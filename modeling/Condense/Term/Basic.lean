import Condense.Word

/-!
# Solver terms

Terms over booleans and fixed-width bit-vectors, with their SMT-LIB2 text. A literal's
value need not fit its width: `Term.ofWord` cuts it down, a term read from a file may not
have been.
-/

namespace Condense

set_option autoImplicit false

inductive SmtSort where
  | bool
  | bitVec (bits : Nat)
  deriving DecidableEq

namespace SmtSort

/-- The number of bits that tell the values of a sort apart. -/
def bits : SmtSort → Nat
  | bool => 1
  | bitVec bits => bits

def text : SmtSort → String
  | bool => "Bool"
  | bitVec bits => "(_ BitVec " ++ toString bits ++ ")"

end SmtSort

inductive BvUnary where
  | not
  | neg
  deriving DecidableEq

def BvUnary.name : BvUnary → String
  | not => "bvnot"
  | neg => "bvneg"

inductive BvBinary where
  | add
  | sub
  | mul
  | udiv
  | sdiv
  | urem
  | srem
  | and
  | or
  | xor
  | shl
  | lshr
  | ashr
  deriving DecidableEq

def BvBinary.name : BvBinary → String
  | add => "bvadd"
  | sub => "bvsub"
  | mul => "bvmul"
  | udiv => "bvudiv"
  | sdiv => "bvsdiv"
  | urem => "bvurem"
  | srem => "bvsrem"
  | and => "bvand"
  | or => "bvor"
  | xor => "bvxor"
  | shl => "bvshl"
  | lshr => "bvlshr"
  | ashr => "bvashr"

inductive BvCompare where
  | ult
  | ule
  | ugt
  | uge
  | slt
  | sle
  | sgt
  | sge
  deriving DecidableEq

def BvCompare.name : BvCompare → String
  | ult => "bvult"
  | ule => "bvule"
  | ugt => "bvugt"
  | uge => "bvuge"
  | slt => "bvslt"
  | sle => "bvsle"
  | sgt => "bvsgt"
  | sge => "bvsge"

inductive Term where
  | bool (value : Bool)
  | bitVec (value : UInt64) (bits : Nat)
  | const (name : String) (sort : SmtSort)
  | not (t : Term)
  | and (lhs rhs : Term)
  | or (lhs rhs : Term)
  | xor (lhs rhs : Term)
  | eq (lhs rhs : Term)
  | ite (condition yes no : Term)
  | bvUnary (op : BvUnary) (t : Term)
  | bvBinary (op : BvBinary) (lhs rhs : Term)
  | bvCompare (op : BvCompare) (lhs rhs : Term)
  | extract (high low : Nat) (t : Term)
  | zeroExtend (extra : Nat) (t : Term)
  | signExtend (extra : Nat) (t : Term)
  deriving DecidableEq

namespace Term

def ofWord (value : UInt64) (bits : Nat) : Term :=
  bitVec (Word.truncate value bits) bits

def isSymbolChar (c : Char) : Bool :=
  c.isAlphanum || c == '_' || c == '.' || c == '$'

def isSimpleSymbol (name : String) : Bool :=
  match name.toList with
  | [] => false
  | c :: rest => !c.isDigit && (c :: rest).all isSymbolChar

/-- A name as an SMT-LIB2 symbol: quoted unless simple, a bar inside it shown as `_`. -/
def symbol (name : String) : String :=
  if isSimpleSymbol name then name
  else "|" ++ String.ofList (name.toList.map fun c => if c = '|' then '_' else c) ++ "|"

/-- Hexadecimal when the width is a whole number of digits, decimal otherwise. -/
def literalText (value : UInt64) (bits : Nat) : String :=
  if bits % 4 = 0 then "#x" ++ Word.paddedHex value (bits / 4)
  else "(_ bv" ++ toString value.toNat ++ " " ++ toString bits ++ ")"

def applied (name lhs rhs : String) : String :=
  "(" ++ name ++ " " ++ lhs ++ " " ++ rhs ++ ")"

def text : Term → String
  | bool value => if value then "true" else "false"
  | bitVec value bits => literalText value bits
  | const name _ => symbol name
  | not t => "(not " ++ t.text ++ ")"
  | and l r => applied "and" l.text r.text
  | or l r => applied "or" l.text r.text
  | xor l r => applied "xor" l.text r.text
  | eq l r => applied "=" l.text r.text
  | ite c yes no => "(ite " ++ c.text ++ " " ++ yes.text ++ " " ++ no.text ++ ")"
  | bvUnary op t => "(" ++ op.name ++ " " ++ t.text ++ ")"
  | bvBinary op l r => applied op.name l.text r.text
  | bvCompare op l r => applied op.name l.text r.text
  | extract high low t =>
      "((_ extract " ++ toString high ++ " " ++ toString low ++ ") " ++ t.text ++ ")"
  | zeroExtend extra t => "((_ zero_extend " ++ toString extra ++ ") " ++ t.text ++ ")"
  | signExtend extra t => "((_ sign_extend " ++ toString extra ++ ") " ++ t.text ++ ")"

end Term

end Condense
