import Condense.Word

/-!
# Types of expressions

A type is `bool` or a two's-complement integer of a stated width. Every width can be
written down; only the widths 1 to 64 can be reasoned about by a solver.
-/

namespace Condense

set_option autoImplicit false

inductive Ty where
  | bool
  | int (bits : UInt64) (signed : Bool)
  deriving DecidableEq

namespace Ty

def isBool : Ty → Bool
  | bool => true
  | int _ _ => false

def width : Ty → Nat
  | bool => 1
  | int bits _ => bits.toNat

def isSigned : Ty → Bool
  | bool => false
  | int _ signed => signed

/-- Whether a solver can represent values of this type. -/
def isValid (ty : Ty) : Bool :=
  1 ≤ ty.width && ty.width ≤ 64

def signBit (ty : Ty) : UInt64 :=
  Word.signBit ty.width

def mask (ty : Ty) : UInt64 :=
  Word.mask ty.width

def text : Ty → String
  | bool => "bool"
  | int bits true => "int" ++ toString bits.toNat ++ "_t"
  | int bits false => "uint" ++ toString bits.toNat ++ "_t"

end Ty

end Condense
