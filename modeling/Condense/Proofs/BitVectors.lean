import Condense.Proofs.Words
import Condense.Term.Eval

/-!
# Bit-vector operators on words

Every bit-vector operator of a term, computed on words, is the operation on bit patterns
that SMT-LIB2 gives it. This covers a zero divisor, the least value divided by minus one,
counts that shift every bit out and the full width of 64 bits.
-/

namespace Condense

set_option autoImplicit false

variable {width : Nat}

def BvUnary.denote (op : BvUnary) (bits : BitVec width) : BitVec width :=
  match op with
  | not => ~~~bits
  | neg => -bits

def BvBinary.denote (op : BvBinary) (lhs rhs : BitVec width) : BitVec width :=
  match op with
  | add => lhs + rhs
  | sub => lhs - rhs
  | mul => lhs * rhs
  | udiv => lhs.smtUDiv rhs
  | sdiv => lhs.smtSDiv rhs
  | urem => lhs.umod rhs
  | srem => lhs.srem rhs
  | and => lhs &&& rhs
  | or => lhs ||| rhs
  | xor => lhs ^^^ rhs
  | shl => lhs <<< rhs
  | lshr => lhs >>> rhs
  | ashr => lhs.sshiftRight rhs.toNat

def BvCompare.denote (op : BvCompare) (lhs rhs : BitVec width) : Bool :=
  match op with
  | ult => lhs.ult rhs
  | ule => lhs.ule rhs
  | ugt => rhs.ult lhs
  | uge => rhs.ule lhs
  | slt => lhs.slt rhs
  | sle => lhs.sle rhs
  | sgt => rhs.slt lhs
  | sge => rhs.sle lhs

namespace BitVector

open Word

theorem negate_of_bits (bits : BitVec width) (narrow : width ≤ 64) :
    negate (ofBits bits) width = ofBits (-bits) := by
  rw [negate, truncate_eq_of_bits _ width narrow]
  congr 1
  rw [UInt64.toBitVec_neg, BitVec.setWidth_neg_of_le narrow]
  simp only [ofBits]
  rw [BitVec.setWidth_setWidth_of_le _ narrow, BitVec.setWidth_eq]

theorem magnitude_of_bits (bits : BitVec width) (positive : 1 ≤ width) (narrow : width ≤ 64) :
    magnitude (ofBits bits) width = ofBits (if bits.msb then -bits else bits) := by
  rw [magnitude, is_negative_of_bits bits positive narrow]
  cases bits.msb with
  | false => rfl
  | true => exact negate_of_bits bits narrow

theorem udiv_of_bits (lhs rhs : BitVec width) (narrow : width ≤ 64) :
    udiv (ofBits lhs) (ofBits rhs) width = ofBits (lhs.smtUDiv rhs) := by
  unfold udiv BitVec.smtUDiv
  by_cases zero : rhs = 0
  · have divisor : ofBits rhs = 0 := by
      rw [zero]
      simp [ofBits]
    rw [if_pos divisor, if_pos zero]
    apply UInt64.toBitVec_inj.mp
    exact mask_to_bit_vec width narrow
  · have divisor : ofBits rhs ≠ 0 := by
      intro none
      apply zero
      apply BitVec.eq_of_toNat_eq
      rw [← of_bits_to_nat rhs narrow, none]
      rfl
    rw [if_neg divisor, if_neg zero]
    apply UInt64.toNat_inj.mp
    rw [UInt64.toNat_div, of_bits_to_nat lhs narrow, of_bits_to_nat rhs narrow,
      of_bits_to_nat _ narrow]
    rfl

theorem urem_of_bits (lhs rhs : BitVec width) (narrow : width ≤ 64) :
    urem (ofBits lhs) (ofBits rhs) = ofBits (lhs.umod rhs) := by
  unfold urem
  apply UInt64.toNat_inj.mp
  rw [of_bits_to_nat _ narrow, BitVec.umod_eq, BitVec.toNat_umod]
  split
  next zero =>
    have divisor : rhs.toNat = 0 := by
      rw [← of_bits_to_nat rhs narrow, zero]
      rfl
    rw [divisor, Nat.mod_zero, of_bits_to_nat lhs narrow]
  next =>
    rw [UInt64.toNat_mod, of_bits_to_nat lhs narrow, of_bits_to_nat rhs narrow]

theorem sdiv_of_bits (lhs rhs : BitVec width) (positive : 1 ≤ width) (narrow : width ≤ 64) :
    sdiv (ofBits lhs) (ofBits rhs) width = ofBits (lhs.smtSDiv rhs) := by
  unfold sdiv BitVec.smtSDiv
  simp only [magnitude_of_bits _ positive narrow, is_negative_of_bits _ positive narrow,
    udiv_of_bits _ _ narrow, negate_of_bits _ narrow, BitVec.neg_eq]
  cases lhs.msb <;> cases rhs.msb <;> rfl

theorem srem_of_bits (lhs rhs : BitVec width) (positive : 1 ≤ width) (narrow : width ≤ 64) :
    srem (ofBits lhs) (ofBits rhs) width = ofBits (lhs.srem rhs) := by
  unfold srem BitVec.srem
  simp only [magnitude_of_bits _ positive narrow, is_negative_of_bits _ positive narrow,
    urem_of_bits _ _ narrow, negate_of_bits _ narrow, BitVec.neg_eq]
  cases lhs.msb <;> cases rhs.msb <;> rfl

theorem overshoots_of_bits (count : BitVec width) (narrow : width ≤ 64) :
    overshoots (ofBits count) width = decide (width ≤ count.toNat) := by
  rw [overshoots, of_bits_to_nat count narrow, Nat.min_eq_left narrow]

theorem shl_of_bits (lhs count : BitVec width) (narrow : width ≤ 64) :
    truncate (shl (ofBits lhs) (ofBits count) width) width = ofBits (lhs <<< count) := by
  rw [shl, overshoots_of_bits count narrow, truncate_eq_of_bits _ width narrow]
  congr 1
  by_cases beyond : width ≤ count.toNat
  · rw [if_pos (by simpa using beyond), BitVec.shiftLeft_eq', BitVec.shiftLeft_eq_zero beyond]
    exact BitVec.setWidth_zero _ _
  · have inside : (ofBits count).toBitVec.toNat % 64 = count.toNat := by
      have same : (ofBits count).toBitVec.toNat = count.toNat := of_bits_to_nat count narrow
      rw [same]
      exact Nat.mod_eq_of_lt (by omega)
    rw [if_neg (by simpa using beyond), UInt64.toBitVec_shiftLeft, BitVec.shiftLeft_eq',
      BitVec.toNat_umod, BitVec.setWidth_shiftLeft_of_le narrow]
    rw [show (64 : BitVec 64).toNat = 64 from rfl, inside]
    simp only [ofBits]
    rw [BitVec.setWidth_setWidth_of_le _ narrow, BitVec.setWidth_eq, BitVec.shiftLeft_eq']

theorem lshr_of_bits (lhs count : BitVec width) (narrow : width ≤ 64) :
    lshr (ofBits lhs) (ofBits count) width = ofBits (lhs >>> count) := by
  rw [lshr, overshoots_of_bits count narrow]
  by_cases beyond : width ≤ count.toNat
  · rw [if_pos (by simpa using beyond), BitVec.ushiftRight_eq', BitVec.ushiftRight_eq_zero beyond]
    simp [ofBits]
  · have inside : (ofBits count).toNat % 64 = count.toNat := by
      rw [of_bits_to_nat count narrow]
      exact Nat.mod_eq_of_lt (by omega)
    rw [if_neg (by simpa using beyond)]
    apply UInt64.toNat_inj.mp
    rw [UInt64.toNat_shiftRight, inside, of_bits_to_nat lhs narrow, of_bits_to_nat _ narrow]
    exact (BitVec.toNat_ushiftRight lhs count.toNat).symm

/-- Shifting at 64 bits after sign extension shifts the pattern itself. -/
theorem sshift_right_sign_extend (lhs : BitVec width) (count : Nat) (narrow : width ≤ 64) :
    ((lhs.signExtend 64).sshiftRight count).setWidth width = lhs.sshiftRight count := by
  apply BitVec.eq_of_getLsbD_eq
  intro place bound
  simp only [BitVec.getLsbD_setWidth, BitVec.getLsbD_sshiftRight, BitVec.getLsbD_signExtend,
    BitVec.msb_signExtend]
  grind

/-- A pattern shifted by its width or more, or by one less, is all sign. -/
theorem sshift_right_saturates (lhs : BitVec width) (count : Nat) (beyond : width ≤ count + 1) :
    lhs.sshiftRight count = lhs.sshiftRight width := by
  apply BitVec.eq_of_getLsbD_eq
  intro place bound
  have inside : ¬width ≤ place := by omega
  have beyond : ¬width + place < width := by omega
  rw [BitVec.getLsbD_sshiftRight, BitVec.getLsbD_sshiftRight, if_neg beyond]
  by_cases last : count + place < width
  · have top : count + place = width - 1 := by omega
    rw [if_pos last, top, ← BitVec.msb_eq_getLsbD_last]
  · rw [if_neg last]

theorem int64_shift_right (lhs count : UInt64) (bound : count.toNat < 64) :
    (lhs.toInt64 >>> count.toInt64).toUInt64.toBitVec
      = lhs.toBitVec.sshiftRight count.toNat := by
  have reduced : (count.toBitVec.smod 64).toNat = count.toNat := by
    have sign : count.toBitVec.msb = false := by
      rw [BitVec.msb_eq_false_iff_two_mul_lt]
      have same : count.toBitVec.toNat = count.toNat := rfl
      omega
    rw [BitVec.smod_eq, sign]
    exact Nat.mod_eq_of_lt bound
  have shifted : (lhs.toInt64 >>> count.toInt64).toUInt64.toBitVec
      = lhs.toBitVec.sshiftRight' (count.toBitVec.smod 64) := rfl
  rw [shifted, BitVec.sshiftRight_eq', reduced]

theorem ashr_of_bits (lhs count : BitVec width) (positive : 1 ≤ width) (narrow : width ≤ 64) :
    truncate (ashr (ofBits lhs) (ofBits count) width) width
      = ofBits (lhs.sshiftRight count.toNat) := by
  rw [ashr, overshoots_of_bits count narrow, truncate_eq_of_bits _ width narrow,
    sign_extend_of_bits lhs positive narrow]
  congr 1
  by_cases beyond : width ≤ count.toNat
  · rw [if_pos (by simpa using beyond), int64_shift_right _ _ (by decide)]
    rw [sshift_right_sign_extend lhs _ narrow]
    rw [sshift_right_saturates lhs count.toNat (by omega)]
    exact sshift_right_saturates lhs 63 (by omega)
  · have same := of_bits_to_nat count narrow
    rw [if_neg (by simpa using beyond), int64_shift_right _ _ (by omega), same]
    exact sshift_right_sign_extend lhs _ narrow

theorem signed_lt_of_bits (lhs rhs : BitVec width) (positive : 1 ≤ width)
    (narrow : width ≤ 64) :
    signedLt (ofBits lhs) (ofBits rhs) width = lhs.slt rhs := by
  have extended (bits : BitVec width) :
      (signExtend (ofBits bits) width).toInt64.toInt = bits.toInt := by
    rw [sign_extend_of_bits bits positive narrow]
    exact BitVec.toInt_signExtend_of_le narrow
  rw [signedLt, BitVec.slt_eq_decide, ← extended lhs, ← extended rhs]
  exact decide_eq_decide.mpr Int64.lt_iff_toInt_lt

end BitVector

open Word BitVector

theorem BvUnary.apply_of_bits (op : BvUnary) (bits : BitVec width) (narrow : width ≤ 64) :
    op.apply (ofBits bits) width = ofBits (op.denote bits) := by
  cases op with
  | not =>
      rw [BvUnary.apply, truncate_eq_of_bits _ width narrow]
      congr 1
      rw [UInt64.toBitVec_not, BitVec.setWidth_not narrow]
      simp only [ofBits]
      rw [BitVec.setWidth_setWidth_of_le _ narrow, BitVec.setWidth_eq]
      rfl
  | neg => exact negate_of_bits bits narrow

/-- An operation that every narrower width computes alike may be done on whole words. -/
theorem truncate_lift (whole : UInt64 → UInt64 → UInt64)
    (part : BitVec width → BitVec width → BitVec width) (lhs rhs : BitVec width)
    (narrow : width ≤ 64)
    (commutes : (whole (ofBits lhs) (ofBits rhs)).toBitVec.setWidth width
      = part ((lhs.setWidth 64).setWidth width) ((rhs.setWidth 64).setWidth width)) :
    truncate (whole (ofBits lhs) (ofBits rhs)) width = ofBits (part lhs rhs) := by
  rw [truncate_eq_of_bits _ width narrow, commutes,
    BitVec.setWidth_setWidth_of_le _ narrow, BitVec.setWidth_setWidth_of_le _ narrow,
    BitVec.setWidth_eq, BitVec.setWidth_eq]

theorem BvBinary.apply_of_bits (op : BvBinary) (lhs rhs : BitVec width) (positive : 1 ≤ width)
    (narrow : width ≤ 64) :
    op.apply (ofBits lhs) (ofBits rhs) width = ofBits (op.denote lhs rhs) := by
  cases op with
  | add => exact truncate_lift (· + ·) (· + ·) lhs rhs narrow (BitVec.setWidth_add _ _ narrow)
  | sub =>
      apply truncate_lift (· - ·) (· - ·) lhs rhs narrow
      rw [UInt64.toBitVec_sub, BitVec.sub_eq_add_neg, BitVec.sub_eq_add_neg,
        BitVec.setWidth_add _ _ narrow, BitVec.setWidth_neg_of_le narrow]
      rfl
  | mul => exact truncate_lift (· * ·) (· * ·) lhs rhs narrow (BitVec.setWidth_mul _ _ narrow)
  | udiv =>
      rw [BvBinary.apply, udiv_of_bits lhs rhs narrow]
      exact truncate_of_bits _ narrow
  | sdiv =>
      rw [BvBinary.apply, sdiv_of_bits lhs rhs positive narrow]
      exact truncate_of_bits _ narrow
  | urem =>
      rw [BvBinary.apply, urem_of_bits lhs rhs narrow]
      exact truncate_of_bits _ narrow
  | srem =>
      rw [BvBinary.apply, srem_of_bits lhs rhs positive narrow]
      exact truncate_of_bits _ narrow
  | and => exact truncate_lift (· &&& ·) (· &&& ·) lhs rhs narrow BitVec.setWidth_and
  | or => exact truncate_lift (· ||| ·) (· ||| ·) lhs rhs narrow BitVec.setWidth_or
  | xor => exact truncate_lift (· ^^^ ·) (· ^^^ ·) lhs rhs narrow BitVec.setWidth_xor
  | shl => exact shl_of_bits lhs rhs narrow
  | lshr =>
      rw [BvBinary.apply, lshr_of_bits lhs rhs narrow]
      exact truncate_of_bits _ narrow
  | ashr => exact ashr_of_bits lhs rhs positive narrow

theorem BvCompare.holds_of_bits (op : BvCompare) (lhs rhs : BitVec width)
    (positive : 1 ≤ width) (narrow : width ≤ 64) :
    op.holds (ofBits lhs) (ofBits rhs) width = op.denote lhs rhs := by
  have less (a b : BitVec width) : decide (ofBits a < ofBits b) = a.ult b := by
    rw [BitVec.ult, ← of_bits_to_nat a narrow, ← of_bits_to_nat b narrow]
    exact decide_eq_decide.mpr UInt64.lt_iff_toNat_lt
  have atMost (a b : BitVec width) : decide (ofBits a ≤ ofBits b) = a.ule b := by
    rw [BitVec.ule, ← of_bits_to_nat a narrow, ← of_bits_to_nat b narrow]
    exact decide_eq_decide.mpr UInt64.le_iff_toNat_le
  have signedAtMost (a b : BitVec width) : (!signedLt (ofBits b) (ofBits a) width) = a.sle b := by
    rw [signed_lt_of_bits b a positive narrow, BitVec.sle_eq_not_slt]
  cases op with
  | ult => exact less lhs rhs
  | ule => exact atMost lhs rhs
  | ugt => exact less rhs lhs
  | uge => exact atMost rhs lhs
  | slt => exact signed_lt_of_bits lhs rhs positive narrow
  | sle => exact signedAtMost lhs rhs
  | sgt => exact signed_lt_of_bits rhs lhs positive narrow
  | sge => exact signedAtMost rhs lhs

def Value.ofBits (bits : BitVec width) : Value :=
  .bitVec (Word.ofBits bits) width

theorem Value.of_word_of_bits (bits : BitVec width) (narrow : width ≤ 64) :
    Value.ofWord (Word.ofBits bits) width = Value.ofBits bits := by
  rw [Value.ofWord, truncate_of_bits bits narrow, Value.ofBits]

theorem Value.bit_vec_eq_of_bits {word : UInt64} (narrow : width ≤ 64)
    (fits : word.toNat < 2 ^ width) :
    Value.bitVec word width = Value.ofBits (BitVec.ofNat width word.toNat) := by
  have same : word = Word.ofBits (BitVec.ofNat width word.toNat) := by
    apply UInt64.toNat_inj.mp
    rw [of_bits_to_nat _ narrow, BitVec.toNat_ofNat, Nat.mod_eq_of_lt fits]
  rw [Value.ofBits, ← same]

namespace Term

variable (model : Model)

theorem bind_of_ok {α β : Type} {act : Except Fault α} {next : α → Except Fault β} {result : α}
    (known : act = .ok result) : (act >>= next) = next result := by
  rw [known]
  rfl

theorem operands_of_same_width (whole : Term) (lhs rhs : UInt64) (width : Nat) :
    whole.operands (lhs, width) (rhs, width) = .ok (lhs, rhs, width) :=
  if_pos rfl

theorem eval_unary_word {t : Term} {value : UInt64} (op : BvUnary)
    (known : t.eval model = .ok (.bitVec value width)) :
    (bvUnary op t).eval model = .ok (.ofWord (op.apply value width) width) :=
  bind_of_ok known

theorem eval_binary_word {l r : Term} {lhs rhs : UInt64} (op : BvBinary)
    (left : l.eval model = .ok (.bitVec lhs width))
    (right : r.eval model = .ok (.bitVec rhs width)) :
    (bvBinary op l r).eval model = .ok (.ofWord (op.apply lhs rhs width) width) := by
  apply (bind_of_ok left).trans
  apply (bind_of_ok right).trans
  exact bind_of_ok (operands_of_same_width (bvBinary op l r) lhs rhs width)

theorem eval_compare_word {l r : Term} {lhs rhs : UInt64} (op : BvCompare)
    (left : l.eval model = .ok (.bitVec lhs width))
    (right : r.eval model = .ok (.bitVec rhs width)) :
    (bvCompare op l r).eval model = .ok (.bool (op.holds lhs rhs width)) := by
  apply (bind_of_ok left).trans
  apply (bind_of_ok right).trans
  exact bind_of_ok (operands_of_same_width (bvCompare op l r) lhs rhs width)

theorem eval_extract_word {t : Term} {value : UInt64} (high low : Nat)
    (known : t.eval model = .ok (.bitVec value width)) :
    (extract high low t).eval model
      = .ok (.ofWord (value >>> low.toUInt64) (high - low + 1)) :=
  bind_of_ok known

theorem eval_zero_extend_word {t : Term} {value : UInt64} (extra : Nat)
    (known : t.eval model = .ok (.bitVec value width)) :
    (zeroExtend extra t).eval model = .ok (.ofWord value (width + extra)) :=
  bind_of_ok known

theorem eval_sign_extend_word {t : Term} {value : UInt64} (extra : Nat)
    (known : t.eval model = .ok (.bitVec value width)) :
    (signExtend extra t).eval model
      = .ok (.ofWord (Word.signExtend value width) (width + extra)) :=
  bind_of_ok known

theorem eval_bv_unary (op : BvUnary) (t : Term) (bits : BitVec width) (narrow : width ≤ 64)
    (known : t.eval model = .ok (.ofBits bits)) :
    (bvUnary op t).eval model = .ok (.ofBits (op.denote bits)) := by
  rw [eval_unary_word model op known, op.apply_of_bits bits narrow,
    Value.of_word_of_bits _ narrow]

theorem eval_bv_binary (op : BvBinary) (l r : Term) (lhs rhs : BitVec width)
    (positive : 1 ≤ width) (narrow : width ≤ 64)
    (left : l.eval model = .ok (.ofBits lhs)) (right : r.eval model = .ok (.ofBits rhs)) :
    (bvBinary op l r).eval model = .ok (.ofBits (op.denote lhs rhs)) := by
  rw [eval_binary_word model op left right, op.apply_of_bits lhs rhs positive narrow,
    Value.of_word_of_bits _ narrow]

theorem eval_bv_compare (op : BvCompare) (l r : Term) (lhs rhs : BitVec width)
    (positive : 1 ≤ width) (narrow : width ≤ 64)
    (left : l.eval model = .ok (.ofBits lhs)) (right : r.eval model = .ok (.ofBits rhs)) :
    (bvCompare op l r).eval model = .ok (.bool (op.denote lhs rhs)) := by
  rw [eval_compare_word model op left right, op.holds_of_bits lhs rhs positive narrow]

theorem eval_extract (high low : Nat) (t : Term) (bits : BitVec width) (ordered : low ≤ high)
    (inside : high < width) (narrow : width ≤ 64) (known : t.eval model = .ok (.ofBits bits)) :
    (extract high low t).eval model
      = .ok (.ofBits ((bits >>> low).setWidth (high - low + 1))) := by
  have shift : low.toUInt64.toNat % 64 = low := by
    simp only [Nat.toUInt64_eq, UInt64.toNat_ofNat']
    omega
  have part : truncate (Word.ofBits bits >>> low.toUInt64) (high - low + 1)
      = Word.ofBits ((bits >>> low).setWidth (high - low + 1)) := by
    apply UInt64.toNat_inj.mp
    rw [truncate_to_nat _ _ (by omega), UInt64.toNat_shiftRight, shift,
      of_bits_to_nat bits narrow, of_bits_to_nat _ (by omega), BitVec.toNat_setWidth,
      BitVec.toNat_ushiftRight]
  rw [eval_extract_word model high low known, Value.ofWord, part, Value.ofBits]

theorem eval_zero_extend (extra : Nat) (t : Term) (bits : BitVec width)
    (narrow : width + extra ≤ 64) (known : t.eval model = .ok (.ofBits bits)) :
    (zeroExtend extra t).eval model = .ok (.ofBits (bits.setWidth (width + extra))) := by
  have same : Word.ofBits bits = Word.ofBits (bits.setWidth (width + extra)) := by
    apply UInt64.toNat_inj.mp
    rw [of_bits_to_nat bits (by omega), of_bits_to_nat _ narrow,
      BitVec.toNat_setWidth_of_le (by omega)]
  rw [eval_zero_extend_word model extra known, same, Value.of_word_of_bits _ narrow]

theorem eval_sign_extend (extra : Nat) (t : Term) (bits : BitVec width) (positive : 1 ≤ width)
    (narrow : width + extra ≤ 64) (known : t.eval model = .ok (.ofBits bits)) :
    (signExtend extra t).eval model = .ok (.ofBits (bits.signExtend (width + extra))) := by
  have cut : (bits.signExtend 64).setWidth (width + extra) = bits.signExtend (width + extra) := by
    apply BitVec.eq_of_getLsbD_eq
    intro place bound
    have inside : place < 64 := by omega
    rw [BitVec.getLsbD_setWidth, BitVec.getLsbD_signExtend, BitVec.getLsbD_signExtend]
    simp [bound, inside]
  rw [eval_sign_extend_word model extra known, sign_extend_of_bits bits positive (by omega),
    Value.ofWord, truncate_eq_of_bits _ _ narrow, cut, Value.ofBits]

/-- Every bit-vector operator evaluates to the operation that SMT-LIB2 gives it on the bit
patterns of its operands, at every width that a word can hold. -/
theorem eval_eq_denote (width : Nat) (positive : 1 ≤ width) (narrow : width ≤ 64) (l r : Term)
    (lhs rhs : UInt64) (lhsFits : lhs.toNat < 2 ^ width) (rhsFits : rhs.toNat < 2 ^ width)
    (left : l.eval model = .ok (.bitVec lhs width))
    (right : r.eval model = .ok (.bitVec rhs width)) :
    let x := BitVec.ofNat width lhs.toNat
    let y := BitVec.ofNat width rhs.toNat
    (∀ op : BvBinary, (bvBinary op l r).eval model = .ok (.ofBits (op.denote x y))) ∧
    (∀ op : BvCompare, (bvCompare op l r).eval model = .ok (.bool (op.denote x y))) ∧
    (∀ op : BvUnary, (bvUnary op l).eval model = .ok (.ofBits (op.denote x))) ∧
    (∀ high low, low ≤ high → high < width →
      (extract high low l).eval model = .ok (.ofBits (x.extractLsb high low))) ∧
    ∀ extra, width + extra ≤ 64 →
      (zeroExtend extra l).eval model = .ok (.ofBits (x.zeroExtend (width + extra))) ∧
      (signExtend extra l).eval model = .ok (.ofBits (x.signExtend (width + extra))) := by
  intro x y
  rw [Value.bit_vec_eq_of_bits narrow lhsFits] at left
  rw [Value.bit_vec_eq_of_bits narrow rhsFits] at right
  refine ⟨?_, ?_, ?_, ?_, ?_⟩
  · intro op
    exact eval_bv_binary model op l r x y positive narrow left right
  · intro op
    exact eval_bv_compare model op l r x y positive narrow left right
  · intro op
    exact eval_bv_unary model op l x narrow left
  · intro high low ordered inside
    have part : (x >>> low).setWidth (high - low + 1) = x.extractLsb high low := by
      apply BitVec.eq_of_toNat_eq
      rw [BitVec.toNat_setWidth, BitVec.toNat_ushiftRight, BitVec.extractLsb_toNat]
    rw [eval_extract model high low l x ordered inside narrow left, part]
  · intro extra total
    constructor
    · exact eval_zero_extend model extra l x total left
    · exact eval_sign_extend model extra l x positive total left

/-- At the full width: the least number over minus one wraps to itself and leaves nothing, a
count of all ones leaves only the sign, and over zero a negative number gives one and itself. -/
theorem eval_eq_denote_least :
    let blank : Model := fun _ => none
    let least : Term := .bitVec 0x8000000000000000 64
    let ones : Term := .bitVec 0xffffffffffffffff 64
    let zero : Term := .bitVec 0 64
    (bvBinary .sdiv least ones).eval blank = .ok (.bitVec 0x8000000000000000 64) ∧
    (bvBinary .srem least ones).eval blank = .ok (.bitVec 0 64) ∧
    (bvBinary .ashr least ones).eval blank = .ok (.bitVec 0xffffffffffffffff 64) ∧
    (bvCompare .slt least ones).eval blank = .ok (.bool true) ∧
    (extract 63 60 least).eval blank = .ok (.bitVec 8 4) ∧
    (bvBinary .sdiv least zero).eval blank = .ok (.bitVec 1 64) ∧
    (bvBinary .srem least zero).eval blank = .ok (.bitVec 0x8000000000000000 64) := by
  intro blank least ones zero
  have overOnes := eval_eq_denote blank 64 (by decide) (by decide) least ones
    0x8000000000000000 0xffffffffffffffff (by decide) (by decide) rfl rfl
  have overZero := eval_eq_denote blank 64 (by decide) (by decide) least zero
    0x8000000000000000 0 (by decide) (by decide) rfl rfl
  obtain ⟨binary, compare, unary, part, extended⟩ := overOnes
  refine ⟨?_, ?_, ?_, ?_, ?_, ?_, ?_⟩
  · exact (binary .sdiv).trans (by decide)
  · exact (binary .srem).trans (by decide)
  · exact (binary .ashr).trans (by decide)
  · exact (compare .slt).trans (by decide)
  · exact (part 63 60 (by decide) (by decide)).trans (by decide)
  · exact (overZero.1 .sdiv).trans (by decide)
  · exact (overZero.1 .srem).trans (by decide)

end Term

end Condense
