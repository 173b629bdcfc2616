import Condense.Term.Sorting

/-!
# Evaluation of terms

The value of a term under a model, by SMT-LIB2's rules, division by zero included.
Evaluation does not check sorts beforehand: it reports the first value of the wrong kind
that it meets, and `and`, `or` and `ite` leave the operands they do not need alone.
-/

namespace Condense

set_option autoImplicit false

inductive Value where
  | bool (value : Bool)
  | bitVec (value : UInt64) (bits : Nat)
  deriving DecidableEq

namespace Value

/-- A bit-vector value without the bits above its width. -/
def ofWord (value : UInt64) (bits : Nat) : Value :=
  bitVec (Word.truncate value bits) bits

def toBool : Value → Except Fault Bool
  | bool value => .ok value
  | bitVec _ _ => .error (.sort "expected a Bool value")

def toBitVec : Value → Except Fault (UInt64 × Nat)
  | bitVec value bits => .ok (value, bits)
  | bool _ => .error (.sort "expected a bit-vector value")

end Value

abbrev Model := String → Option Value

namespace BitVector

def negate (value : UInt64) (bits : Nat) : UInt64 :=
  Word.truncate (-value) bits

def magnitude (value : UInt64) (bits : Nat) : UInt64 :=
  if Word.isNegative value bits then negate value bits else value

/-- All ones when the divisor is zero. -/
def udiv (lhs rhs : UInt64) (bits : Nat) : UInt64 :=
  if rhs = 0 then Word.mask bits else lhs / rhs

/-- The dividend when the divisor is zero. -/
def urem (lhs rhs : UInt64) : UInt64 :=
  if rhs = 0 then lhs else lhs % rhs

/-- Divides the magnitudes; the quotient is negative when the signs differ. -/
def sdiv (lhs rhs : UInt64) (bits : Nat) : UInt64 :=
  let quotient := udiv (magnitude lhs bits) (magnitude rhs bits) bits
  if Word.isNegative lhs bits != Word.isNegative rhs bits then negate quotient bits
  else quotient

/-- The remainder of the magnitudes, with the sign of the dividend. -/
def srem (lhs rhs : UInt64) (bits : Nat) : UInt64 :=
  let remainder := urem (magnitude lhs bits) (magnitude rhs bits)
  if Word.isNegative lhs bits then negate remainder bits else remainder

/-- Whether a shift count moves every bit out. -/
def overshoots (count : UInt64) (bits : Nat) : Bool :=
  min bits 64 ≤ count.toNat

def shl (lhs count : UInt64) (bits : Nat) : UInt64 :=
  if overshoots count bits then 0 else lhs <<< count

def lshr (lhs count : UInt64) (bits : Nat) : UInt64 :=
  if overshoots count bits then 0 else lhs >>> count

def ashr (lhs count : UInt64) (bits : Nat) : UInt64 :=
  let count := if overshoots count bits then 63 else count
  ((Word.signExtend lhs bits).toInt64 >>> count.toInt64).toUInt64

def signedLt (lhs rhs : UInt64) (bits : Nat) : Bool :=
  (Word.signExtend lhs bits).toInt64 < (Word.signExtend rhs bits).toInt64

end BitVector

def BvUnary.apply (op : BvUnary) (value : UInt64) (bits : Nat) : UInt64 :=
  match op with
  | not => Word.truncate (~~~value) bits
  | neg => BitVector.negate value bits

def BvBinary.apply (op : BvBinary) (lhs rhs : UInt64) (bits : Nat) : UInt64 :=
  Word.truncate (match op with
    | add => lhs + rhs
    | sub => lhs - rhs
    | mul => lhs * rhs
    | udiv => BitVector.udiv lhs rhs bits
    | sdiv => BitVector.sdiv lhs rhs bits
    | urem => BitVector.urem lhs rhs
    | srem => BitVector.srem lhs rhs bits
    | and => lhs &&& rhs
    | or => lhs ||| rhs
    | xor => lhs ^^^ rhs
    | shl => BitVector.shl lhs rhs bits
    | lshr => BitVector.lshr lhs rhs bits
    | ashr => BitVector.ashr lhs rhs bits) bits

def BvCompare.holds (op : BvCompare) (lhs rhs : UInt64) (bits : Nat) : Bool :=
  match op with
  | ult => lhs < rhs
  | ule => lhs ≤ rhs
  | ugt => rhs < lhs
  | uge => rhs ≤ lhs
  | slt => BitVector.signedLt lhs rhs bits
  | sle => !BitVector.signedLt rhs lhs bits
  | sgt => BitVector.signedLt rhs lhs bits
  | sge => !BitVector.signedLt lhs rhs bits

namespace Term

/-- The operands of a bit-vector operator, which must agree in width. -/
def operands (whole : Term) (lhs rhs : UInt64 × Nat) : Except Fault (UInt64 × UInt64 × Nat) :=
  if lhs.2 = rhs.2 then .ok (lhs.1, rhs.1, lhs.2)
  else .error (.sort ("operand widths differ in " ++ whole.text))

def eval (model : Model) : Term → Except Fault Value
  | bool value => .ok (.bool value)
  | bitVec value bits => .ok (.ofWord value bits)
  | const name _ =>
      match model name with
      | some value => .ok value
      | none => .error (.missingValue name)
  | not t => do
      return .bool (!(← (← t.eval model).toBool))
  | and l r => do
      if ← (← l.eval model).toBool then
        return .bool (← (← r.eval model).toBool)
      else return .bool false
  | or l r => do
      if ← (← l.eval model).toBool then return .bool true
      else return .bool (← (← r.eval model).toBool)
  | xor l r => do
      let lhs ← (← l.eval model).toBool
      let rhs ← (← r.eval model).toBool
      return .bool (lhs != rhs)
  | eq l r => do
      let lhs ← l.eval model
      let rhs ← r.eval model
      return .bool (lhs == rhs)
  | ite c yes no => do
      if ← (← c.eval model).toBool then yes.eval model else no.eval model
  | bvUnary op t => do
      let (value, bits) ← (← t.eval model).toBitVec
      return .ofWord (op.apply value bits) bits
  | whole@(bvBinary op l r) => do
      let lhs ← (← l.eval model).toBitVec
      let rhs ← (← r.eval model).toBitVec
      let (lhs, rhs, bits) ← whole.operands lhs rhs
      return .ofWord (op.apply lhs rhs bits) bits
  | whole@(bvCompare op l r) => do
      let lhs ← (← l.eval model).toBitVec
      let rhs ← (← r.eval model).toBitVec
      let (lhs, rhs, bits) ← whole.operands lhs rhs
      return .bool (op.holds lhs rhs bits)
  | extract high low t => do
      let (value, _) ← (← t.eval model).toBitVec
      return .ofWord (value >>> low.toUInt64) (high - low + 1)
  | zeroExtend extra t => do
      let (value, bits) ← (← t.eval model).toBitVec
      return .ofWord value (bits + extra)
  | signExtend extra t => do
      let (value, bits) ← (← t.eval model).toBitVec
      return .ofWord (Word.signExtend value bits) (bits + extra)

end Term

end Condense
