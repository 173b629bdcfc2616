import Condense.Proofs.BitVectors

/-!
# Evaluation on a machine that may stop

Operations on words are total here: a count is taken modulo the size of a word, a difference
that falls below zero is cut or wraps, and a zero divisor gives zero. A machine may stop
instead. This is evaluation once more, over operations that give `none` where a machine may
stop. The operators look at their operands before they shift, subtract or divide, so none of
them ever stops, whatever the words and the width are. What is left to the sort of a term are
the bounds of a part and the sum of two widths.
-/

namespace Condense.Guarded

set_option autoImplicit false

section Machine

def shiftLeft (value : UInt64) (count : Nat) : Option UInt64 :=
  if count < 64 then some (value <<< count.toUInt64) else none

def shiftRight (value : UInt64) (count : Nat) : Option UInt64 :=
  if count < 64 then some (value >>> count.toUInt64) else none

def shiftSigned (value : UInt64) (count : Nat) : Option UInt64 :=
  if count < 64 then some (value.toInt64 >>> count.toUInt64.toInt64).toUInt64 else none

def subtract (lhs rhs : UInt64) : Option UInt64 :=
  if rhs ≤ lhs then some (lhs - rhs) else none

def divide (lhs rhs : UInt64) : Option UInt64 :=
  if rhs = 0 then none else some (lhs / rhs)

def modulo (lhs rhs : UInt64) : Option UInt64 :=
  if rhs = 0 then none else some (lhs % rhs)

def difference (lhs rhs : Nat) : Option Nat :=
  if rhs ≤ lhs then some (lhs - rhs) else none

def sum (lhs rhs : Nat) : Option Nat :=
  if lhs + rhs < 2 ^ 64 then some (lhs + rhs) else none

end Machine

section Words

def mask (bits : Nat) : Option UInt64 :=
  if 64 ≤ bits then some 0xffffffffffffffff
  else do subtract (← shiftLeft 1 bits) 1

def signBit (bits : Nat) : Option UInt64 :=
  if 1 ≤ bits ∧ bits ≤ 64 then do shiftLeft 1 (← difference bits 1) else some 0

def truncate (value : UInt64) (bits : Nat) : Option UInt64 := do
  return value &&& (← mask bits)

def isNegative (value : UInt64) (bits : Nat) : Option Bool := do
  return value &&& (← signBit bits) != 0

def signExtend (value : UInt64) (bits : Nat) : Option UInt64 := do
  if bits < 64 then
    if ← isNegative value bits then return value ||| ~~~(← mask bits) else return value
  else return value

def negate (value : UInt64) (bits : Nat) : Option UInt64 :=
  truncate (-value) bits

def magnitude (value : UInt64) (bits : Nat) : Option UInt64 := do
  if ← isNegative value bits then negate value bits else return value

def udiv (lhs rhs : UInt64) (bits : Nat) : Option UInt64 :=
  if rhs = 0 then mask bits else divide lhs rhs

def urem (lhs rhs : UInt64) : Option UInt64 :=
  if rhs = 0 then some lhs else modulo lhs rhs

def sdiv (lhs rhs : UInt64) (bits : Nat) : Option UInt64 := do
  let quotient ← udiv (← magnitude lhs bits) (← magnitude rhs bits) bits
  if (← isNegative lhs bits) != (← isNegative rhs bits) then negate quotient bits
  else return quotient

def srem (lhs rhs : UInt64) (bits : Nat) : Option UInt64 := do
  let remainder ← urem (← magnitude lhs bits) (← magnitude rhs bits)
  if ← isNegative lhs bits then negate remainder bits else return remainder

def shl (lhs count : UInt64) (bits : Nat) : Option UInt64 :=
  if BitVector.overshoots count bits then some 0 else shiftLeft lhs count.toNat

def lshr (lhs count : UInt64) (bits : Nat) : Option UInt64 :=
  if BitVector.overshoots count bits then some 0 else shiftRight lhs count.toNat

def ashr (lhs count : UInt64) (bits : Nat) : Option UInt64 := do
  shiftSigned (← signExtend lhs bits)
    (if BitVector.overshoots count bits then 63 else count.toNat)

def unary (op : BvUnary) (value : UInt64) (bits : Nat) : Option UInt64 :=
  match op with
  | .not => truncate (~~~value) bits
  | .neg => negate value bits

def binary (op : BvBinary) (lhs rhs : UInt64) (bits : Nat) : Option UInt64 := do
  let result ← match op with
    | .add => some (lhs + rhs)
    | .sub => some (lhs - rhs)
    | .mul => some (lhs * rhs)
    | .udiv => udiv lhs rhs bits
    | .sdiv => sdiv lhs rhs bits
    | .urem => urem lhs rhs
    | .srem => srem lhs rhs bits
    | .and => some (lhs &&& rhs)
    | .or => some (lhs ||| rhs)
    | .xor => some (lhs ^^^ rhs)
    | .shl => shl lhs rhs bits
    | .lshr => lshr lhs rhs bits
    | .ashr => ashr lhs rhs bits
  truncate result bits

/-- Both operands are extended before the operator is looked at. -/
def compare (op : BvCompare) (lhs rhs : UInt64) (bits : Nat) : Option Bool := do
  let signedLhs := (← signExtend lhs bits).toInt64
  let signedRhs := (← signExtend rhs bits).toInt64
  return match op with
    | .ult => lhs < rhs
    | .ule => lhs ≤ rhs
    | .ugt => rhs < lhs
    | .uge => rhs ≤ lhs
    | .slt => signedLhs < signedRhs
    | .sle => !decide (signedRhs < signedLhs)
    | .sgt => signedRhs < signedLhs
    | .sge => !decide (signedLhs < signedRhs)

end Words

section Bounds

theorem shift_left_eq (value count : UInt64) (small : count.toNat < 64) :
    shiftLeft value count.toNat = some (value <<< count) := by
  rw [shiftLeft, if_pos small, Nat.toUInt64_eq, UInt64.ofNat_toNat]

theorem shift_right_eq (value count : UInt64) (small : count.toNat < 64) :
    shiftRight value count.toNat = some (value >>> count) := by
  rw [shiftRight, if_pos small, Nat.toUInt64_eq, UInt64.ofNat_toNat]

theorem shift_signed_eq (value count : UInt64) (small : count.toNat < 64) :
    shiftSigned value count.toNat = some (value.toInt64 >>> count.toInt64).toUInt64 := by
  rw [shiftSigned, if_pos small, Nat.toUInt64_eq, UInt64.ofNat_toNat]

/-- A count that leaves something of its operand is one that a word can be shifted by. -/
theorem count_lt_of_inside {count : UInt64} {bits : Nat}
    (inside : ¬BitVector.overshoots count bits = true) : count.toNat < 64 := by
  simp only [BitVector.overshoots, decide_eq_true_eq] at inside
  omega

theorem mask_eq (bits : Nat) : mask bits = some (Word.mask bits) := by
  rw [mask, Word.mask]
  by_cases full : 64 ≤ bits
  · rw [if_pos full, if_pos full]
  · have short : bits < 64 := by omega
    have one : (1 : UInt64) ≤ 1 <<< bits.toUInt64 := by
      rw [UInt64.le_iff_toNat_le, Word.one_shift_to_nat short]
      exact Nat.two_pow_pos bits
    rw [if_neg full, if_neg full, shiftLeft, if_pos short]
    exact if_pos one

theorem sign_bit_eq (bits : Nat) : signBit bits = some (Word.signBit bits) := by
  rw [signBit, Word.signBit]
  split
  · next bounds =>
      have short : bits - 1 < 64 := by omega
      rw [difference, if_pos bounds.1]
      exact if_pos short
  · rfl

theorem truncate_eq (value : UInt64) (bits : Nat) :
    truncate value bits = some (Word.truncate value bits) := by
  rw [truncate, mask_eq]
  rfl

theorem is_negative_eq (value : UInt64) (bits : Nat) :
    isNegative value bits = some (Word.isNegative value bits) := by
  rw [isNegative, sign_bit_eq]
  rfl

theorem sign_extend_eq (value : UInt64) (bits : Nat) :
    signExtend value bits = some (Word.signExtend value bits) := by
  rw [signExtend, Word.signExtend, is_negative_eq, mask_eq]
  by_cases short : bits < 64
  · cases negative : Word.isNegative value bits <;> simp [short]
  · simp [short]

theorem negate_eq (value : UInt64) (bits : Nat) :
    negate value bits = some (BitVector.negate value bits) :=
  truncate_eq (-value) bits

theorem magnitude_eq (value : UInt64) (bits : Nat) :
    magnitude value bits = some (BitVector.magnitude value bits) := by
  rw [magnitude, BitVector.magnitude, is_negative_eq, negate_eq]
  cases Word.isNegative value bits <;> rfl

theorem udiv_eq (lhs rhs : UInt64) (bits : Nat) :
    udiv lhs rhs bits = some (BitVector.udiv lhs rhs bits) := by
  rw [udiv, BitVector.udiv]
  split
  · exact mask_eq bits
  · next nonzero => rw [divide, if_neg nonzero]

theorem urem_eq (lhs rhs : UInt64) : urem lhs rhs = some (BitVector.urem lhs rhs) := by
  rw [urem, BitVector.urem]
  split
  · rfl
  · next nonzero => rw [modulo, if_neg nonzero]

theorem sdiv_eq (lhs rhs : UInt64) (bits : Nat) :
    sdiv lhs rhs bits = some (BitVector.sdiv lhs rhs bits) := by
  simp only [sdiv, BitVector.sdiv, magnitude_eq, is_negative_eq, udiv_eq, negate_eq,
    Option.bind_eq_bind, Option.bind_some, Option.pure_def]
  split <;> rfl

theorem srem_eq (lhs rhs : UInt64) (bits : Nat) :
    srem lhs rhs bits = some (BitVector.srem lhs rhs bits) := by
  simp only [srem, BitVector.srem, magnitude_eq, is_negative_eq, urem_eq, negate_eq,
    Option.bind_eq_bind, Option.bind_some, Option.pure_def]
  split <;> rfl

theorem shl_eq (lhs count : UInt64) (bits : Nat) :
    shl lhs count bits = some (BitVector.shl lhs count bits) := by
  rw [shl, BitVector.shl]
  split
  · rfl
  · next inside => exact shift_left_eq lhs count (count_lt_of_inside inside)

theorem lshr_eq (lhs count : UInt64) (bits : Nat) :
    lshr lhs count bits = some (BitVector.lshr lhs count bits) := by
  rw [lshr, BitVector.lshr]
  split
  · rfl
  · next inside => exact shift_right_eq lhs count (count_lt_of_inside inside)

theorem ashr_eq (lhs count : UInt64) (bits : Nat) :
    ashr lhs count bits = some (BitVector.ashr lhs count bits) := by
  rw [ashr, BitVector.ashr, sign_extend_eq]
  show shiftSigned (Word.signExtend lhs bits) _ = _
  split
  · exact shift_signed_eq _ 63 (by decide)
  · next inside => exact shift_signed_eq _ count (count_lt_of_inside inside)

theorem unary_eq (op : BvUnary) (value : UInt64) (bits : Nat) :
    unary op value bits = some (op.apply value bits) := by
  cases op with
  | not => exact truncate_eq _ bits
  | neg => exact negate_eq value bits

theorem binary_eq (op : BvBinary) (lhs rhs : UInt64) (bits : Nat) :
    binary op lhs rhs bits = some (op.apply lhs rhs bits) := by
  cases op <;>
    simp only [binary, BvBinary.apply, udiv_eq, sdiv_eq, urem_eq, srem_eq, shl_eq, lshr_eq,
      ashr_eq, truncate_eq, Option.bind_eq_bind, Option.bind_some]

theorem compare_eq (op : BvCompare) (lhs rhs : UInt64) (bits : Nat) :
    compare op lhs rhs bits = some (op.holds lhs rhs bits) := by
  rw [compare, sign_extend_eq, sign_extend_eq]
  cases op <;> rfl

end Bounds

def ofWord (value : UInt64) (bits : Nat) : Option Value := do
  return .bitVec (← truncate value bits) bits

theorem of_word_eq (value : UInt64) (bits : Nat) :
    ofWord value bits = some (.ofWord value bits) := by
  rw [ofWord, truncate_eq]
  rfl

/-- Evaluation over the operations of the machine. A fault is an answer; `none` is not. -/
def eval (model : Model) : Term → ExceptT Fault Option Value
  | .bool value => return .bool value
  | .bitVec value bits => ofWord value bits
  | .const name _ =>
      match model name with
      | some value => return value
      | none => throw (.missingValue name)
  | .not t => do
      return .bool (!(← ofExcept (← eval model t).toBool))
  | .and l r => do
      if ← ofExcept (← eval model l).toBool then
        return .bool (← ofExcept (← eval model r).toBool)
      else return .bool false
  | .or l r => do
      if ← ofExcept (← eval model l).toBool then return .bool true
      else return .bool (← ofExcept (← eval model r).toBool)
  | .xor l r => do
      let lhs ← ofExcept (← eval model l).toBool
      let rhs ← ofExcept (← eval model r).toBool
      return .bool (lhs != rhs)
  | .eq l r => do
      let lhs ← eval model l
      let rhs ← eval model r
      return .bool (lhs == rhs)
  | .ite c yes no => do
      if ← ofExcept (← eval model c).toBool then eval model yes else eval model no
  | .bvUnary op t => do
      let (value, bits) ← ofExcept (← eval model t).toBitVec
      ofWord (← unary op value bits) bits
  | whole@(.bvBinary op l r) => do
      let lhs ← ofExcept (← eval model l).toBitVec
      let rhs ← ofExcept (← eval model r).toBitVec
      let (lhs, rhs, bits) ← ofExcept (whole.operands lhs rhs)
      ofWord (← binary op lhs rhs bits) bits
  | whole@(.bvCompare op l r) => do
      let lhs ← ofExcept (← eval model l).toBitVec
      let rhs ← ofExcept (← eval model r).toBitVec
      let (lhs, rhs, bits) ← ofExcept (whole.operands lhs rhs)
      return .bool (← compare op lhs rhs bits)
  | .extract high low t => do
      let (value, _) ← ofExcept (← eval model t).toBitVec
      ofWord (← shiftRight value low) (← sum (← difference high low) 1)
  | .zeroExtend extra t => do
      let (value, bits) ← ofExcept (← eval model t).toBitVec
      ofWord value (← sum bits extra)
  | .signExtend extra t => do
      let (value, bits) ← ofExcept (← eval model t).toBitVec
      ofWord (← signExtend value bits) (← sum bits extra)

section Equations

variable {model : Model} {width : Nat}

section Steps

variable {α β : Type} {next : α → ExceptT Fault Option β} {result : α}

theorem bind_of_ok {act : ExceptT Fault Option α} (known : act = some (.ok result)) :
    (act >>= next) = next result := by
  rw [known]
  rfl

theorem bind_of_some {act : Option α} (known : act = some result) :
    (liftM act >>= next : ExceptT Fault Option β) = next result := by
  rw [known]
  rfl

theorem bind_of_answer {answer : Except Fault α} (known : answer = .ok result) :
    (ofExcept answer >>= next) = next result := by
  rw [known]
  rfl

theorem lift_of_some {act : Option α} (known : act = some result) :
    (liftM act : ExceptT Fault Option α) = some (.ok result) := by
  rw [known]
  rfl

end Steps

theorem eval_not {t : Term} {truth : Bool} (operand : eval model t = some (.ok (.bool truth))) :
    eval model (.not t) = some (.ok (.bool (!truth))) :=
  bind_of_ok operand

theorem eval_and {l r : Term} {lhs rhs : Bool} (left : eval model l = some (.ok (.bool lhs)))
    (right : eval model r = some (.ok (.bool rhs))) :
    eval model (.and l r) = some (.ok (.bool (lhs && rhs))) := by
  apply (bind_of_ok left).trans
  cases lhs with
  | false => rfl
  | true => exact bind_of_ok right

theorem eval_or {l r : Term} {lhs rhs : Bool} (left : eval model l = some (.ok (.bool lhs)))
    (right : eval model r = some (.ok (.bool rhs))) :
    eval model (.or l r) = some (.ok (.bool (lhs || rhs))) := by
  apply (bind_of_ok left).trans
  cases lhs with
  | false => exact bind_of_ok right
  | true => rfl

theorem eval_xor {l r : Term} {lhs rhs : Bool} (left : eval model l = some (.ok (.bool lhs)))
    (right : eval model r = some (.ok (.bool rhs))) :
    eval model (.xor l r) = some (.ok (.bool (lhs != rhs))) := by
  apply (bind_of_ok left).trans
  exact bind_of_ok right

theorem eval_eq {l r : Term} {lhs rhs : Value} (left : eval model l = some (.ok lhs))
    (right : eval model r = some (.ok rhs)) :
    eval model (.eq l r) = some (.ok (.bool (lhs == rhs))) := by
  apply (bind_of_ok left).trans
  exact bind_of_ok right

theorem eval_ite {c yes no : Term} {truth : Bool}
    (condition : eval model c = some (.ok (.bool truth))) :
    eval model (.ite c yes no) = if truth then eval model yes else eval model no :=
  bind_of_ok condition

theorem eval_unary {t : Term} {value : UInt64} (op : BvUnary)
    (operand : eval model t = some (.ok (.bitVec value width))) :
    eval model (.bvUnary op t) = some (.ok (.ofWord (op.apply value width) width)) := by
  apply (bind_of_ok operand).trans
  apply (bind_of_some (unary_eq op value width)).trans
  exact lift_of_some (of_word_eq _ width)

theorem eval_binary {l r : Term} {lhs rhs : UInt64} (op : BvBinary)
    (left : eval model l = some (.ok (.bitVec lhs width)))
    (right : eval model r = some (.ok (.bitVec rhs width))) :
    eval model (.bvBinary op l r) = some (.ok (.ofWord (op.apply lhs rhs width) width)) := by
  apply (bind_of_ok left).trans
  apply (bind_of_ok right).trans
  apply (bind_of_answer rfl).trans
  apply (bind_of_answer (Term.operands_of_same_width _ lhs rhs width)).trans
  apply (bind_of_some (binary_eq op lhs rhs width)).trans
  exact lift_of_some (of_word_eq _ width)

theorem eval_compare {l r : Term} {lhs rhs : UInt64} (op : BvCompare)
    (left : eval model l = some (.ok (.bitVec lhs width)))
    (right : eval model r = some (.ok (.bitVec rhs width))) :
    eval model (.bvCompare op l r) = some (.ok (.bool (op.holds lhs rhs width))) := by
  apply (bind_of_ok left).trans
  apply (bind_of_ok right).trans
  apply (bind_of_answer rfl).trans
  apply (bind_of_answer (Term.operands_of_same_width _ lhs rhs width)).trans
  exact bind_of_some (compare_eq op lhs rhs width)

/-- The one shift that nothing in evaluation itself keeps below the size of a word. -/
theorem eval_extract {t : Term} {value : UInt64} {high low : Nat} (ordered : low ≤ high)
    (inside : high < 64) (operand : eval model t = some (.ok (.bitVec value width))) :
    eval model (.extract high low t)
      = some (.ok (.ofWord (value >>> low.toUInt64) (high - low + 1))) := by
  have shifted : shiftRight value low = some (value >>> low.toUInt64) := if_pos (by omega)
  have gap : difference high low = some (high - low) := if_pos ordered
  have total : sum (high - low) 1 = some (high - low + 1) := if_pos (by omega)
  apply (bind_of_ok operand).trans
  apply (bind_of_some shifted).trans
  apply (bind_of_some gap).trans
  apply (bind_of_some total).trans
  exact lift_of_some (of_word_eq _ _)

theorem eval_zero_extend {t : Term} {value : UInt64} {extra : Nat} (narrow : width + extra ≤ 64)
    (operand : eval model t = some (.ok (.bitVec value width))) :
    eval model (.zeroExtend extra t) = some (.ok (.ofWord value (width + extra))) := by
  have total : sum width extra = some (width + extra) := if_pos (by omega)
  apply (bind_of_ok operand).trans
  apply (bind_of_some total).trans
  exact lift_of_some (of_word_eq value _)

theorem eval_sign_extend {t : Term} {value : UInt64} {extra : Nat} (narrow : width + extra ≤ 64)
    (operand : eval model t = some (.ok (.bitVec value width))) :
    eval model (.signExtend extra t)
      = some (.ok (.ofWord (Word.signExtend value width) (width + extra))) := by
  have total : sum width extra = some (width + extra) := if_pos (by omega)
  apply (bind_of_ok operand).trans
  apply (bind_of_some (sign_extend_eq value width)).trans
  apply (bind_of_some total).trans
  exact lift_of_some (of_word_eq _ _)

end Equations

end Condense.Guarded
