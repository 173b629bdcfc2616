import Condense.Encode
import Mathlib.Algebra.Ring.Int.Defs
import Mathlib.Algebra.Ring.Nat

/-!
# What expressions mean

The meaning of an expression in terms of integers, stated without terms, words or masks.
A value of a type `w` bits wide is a bit pattern, a number below `2 ^ w`; the type says
whether it is read as a signed or an unsigned number, and results wrap at `2 ^ w`. A
boolean is the pattern 0 or 1. Division follows SMT-LIB2 where the divisor is zero.

Calls have no meaning here; `Condense.Proofs.Execution` adds them and the effects that
they may have.
-/

namespace Condense

set_option autoImplicit false

/-- What the variables hold: a bit pattern for every name at every sort. -/
abbrev Store := String → (sort : SmtSort) → BitVec sort.bits

def Store.zeros : Store := fun _ sort => BitVec.ofNat sort.bits 0

namespace Ty

/-- The number that a bit pattern of this type stands for. -/
def reading (ty : Ty) (pattern : Nat) : Int :=
  if ty.isSigned ∧ 2 ^ ty.width ≤ 2 * pattern then pattern - 2 ^ ty.width else pattern

/-- The bit pattern of a number, wrapped at the width of this type. -/
def wrap (ty : Ty) (number : Int) : Nat :=
  (number % 2 ^ ty.width).toNat

theorem wrap_lt (ty : Ty) (number : Int) : ty.wrap number < 2 ^ ty.width := by
  have positive : (0 : Int) < 2 ^ ty.width := Int.pow_pos (by decide)
  have lower := Int.emod_nonneg number (Int.ne_of_gt positive)
  have upper := Int.emod_lt_of_pos number positive
  have power : ((2 ^ ty.width : Nat) : Int) = 2 ^ ty.width := by simp
  unfold wrap
  omega

theorem sort_bits (ty : Ty) : ty.sort.bits = ty.width := by
  cases ty with
  | bool => rfl
  | int bits signed => rfl

theorem width_eq_of_sort {lty rty : Ty} (same : lty.sort = rty.sort) : lty.width = rty.width := by
  rw [← sort_bits lty, same, sort_bits rty]

theorem eq_bool {ty : Ty} (boolean : ty.isBool = true) : ty = .bool := by
  cases ty with
  | bool => rfl
  | int bits signed => cases boolean

end Ty

/-- The bit pattern that a literal stands for; bits above its width do not count. -/
def Literal.pattern (c : Literal) : Nat :=
  match c.ty with
  | .bool => c.isNonzero.toNat
  | .int bits _ => c.value.toNat % 2 ^ bits.toNat

namespace Meaning

def holds (pattern : Nat) : Bool :=
  pattern != 0

def cast (source target : Ty) (pattern : Nat) : Nat :=
  match target with
  | .bool => (holds pattern).toNat
  | .int _ _ => target.wrap (source.reading pattern)

def unary (op : UnaryOp) (ty : Ty) (operand : Nat) : Nat :=
  match op with
  | .lnot => (!holds operand).toNat
  | .not => ty.wrap (-ty.reading operand - 1)
  | .neg => ty.wrap (-ty.reading operand)

/-- Rounds toward zero. Division by zero gives all ones, or one when the dividend is
negative. -/
def quotient (ty : Ty) (lhs rhs : Nat) : Nat :=
  let dividend := ty.reading lhs
  let divisor := ty.reading rhs
  if divisor = 0 then
    if 0 ≤ dividend then 2 ^ ty.width - 1 else 1
  else ty.wrap (dividend.tdiv divisor)

def remainder (ty : Ty) (lhs rhs : Nat) : Nat :=
  let divisor := ty.reading rhs
  if divisor = 0 then lhs else ty.wrap ((ty.reading lhs).tmod divisor)

/-- The right operand of a bitwise operator, a truth value when the left one is. -/
def companion (ty : Ty) (rhs : Nat) : Nat :=
  if ty.isBool then (holds rhs).toNat else rhs

/-- How far a shift goes: its count, converted to the width of what is shifted. -/
def count (lty rty : Ty) (rhs : Nat) : Nat :=
  lty.wrap (rty.reading rhs)

def binary (op : BinaryOp) (lty rty : Ty) (lhs rhs : Nat) : Nat :=
  match op with
  | .add => lty.wrap (lhs + rhs)
  | .sub => lty.wrap (lhs - rhs)
  | .mul => lty.wrap (lhs * rhs)
  | .div => quotient lty lhs rhs
  | .rem => remainder lty lhs rhs
  | .and => lhs &&& companion lty rhs
  | .or => lhs ||| companion lty rhs
  | .xor => lhs ^^^ companion lty rhs
  | .shl => lty.wrap (lhs * 2 ^ count lty rty rhs)
  | .shr => lty.wrap ((lty.reading lhs).fdiv (2 ^ count lty rty rhs))
  | .eq => (lhs == rhs).toNat
  | .ne => (lhs != rhs).toNat
  | .lt => (decide (lty.reading lhs < lty.reading rhs)).toNat
  | .le => (decide (lty.reading lhs ≤ lty.reading rhs)).toNat
  | .gt => (decide (lty.reading rhs < lty.reading lhs)).toNat
  | .ge => (decide (lty.reading rhs ≤ lty.reading lhs)).toNat
  | .land => (holds lhs && holds rhs).toNat
  | .lor => (holds lhs || holds rhs).toNat

end Meaning

def Expr.value (store : Store) : Expr → Nat
  | var _ v => (store v.name v.ty.sort).toNat
  | lit _ c => c.pattern
  | unary _ op e => Meaning.unary op e.ty (e.value store)
  | binary _ op l r => Meaning.binary op l.ty r.ty (l.value store) (r.value store)
  | ternary _ c yes no =>
      if Meaning.holds (c.value store) then yes.value store else no.value store
  | paren _ e => e.value store
  | cast _ ty e => Meaning.cast e.ty ty (e.value store)
  | call .. => 0

end Condense
