import Condense.Ty

/-!
# Literals

A literal is a word with a type. `Literal.ofWord` discards the bits above the type's
width; a literal read from a file keeps them.
-/

namespace Condense

set_option autoImplicit false

structure Literal where
  value : UInt64
  ty : Ty
  deriving DecidableEq

namespace Literal

def ofWord (value : UInt64) (ty : Ty) : Literal :=
  ⟨Word.truncate value ty.width, ty⟩

def ofBool (value : Bool) : Literal :=
  ofWord value.toUInt64 .bool

/-- The number this literal stands for, read as a signed 64-bit word. -/
def toInt (literal : Literal) : Int :=
  if literal.ty.isSigned then
    (Word.signExtend literal.value literal.ty.width).toInt64.toInt
  else
    literal.value.toInt64.toInt

def isNonzero (literal : Literal) : Bool :=
  literal.value != 0

def asBool (literal : Literal) : Option Bool :=
  if literal.ty.isBool then some literal.isNonzero else none

def text (literal : Literal) : String :=
  match literal.ty with
  | .bool => if literal.isNonzero then "true" else "false"
  | .int _ true => toString literal.toInt
  | .int _ false => toString literal.value.toNat ++ "U"

end Literal

end Condense
