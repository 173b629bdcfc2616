import Condense.Expr.Equiv

/-!
# Digests of expressions

A 64-bit digest of an expression's content, free of node ids, so that trees built apart
agree on it. Equivalent expressions have equal digests; the converse is not claimed.
The mixing step rotates the state by five bits, adds a word by exclusive or and
multiplies by a fixed odd constant.
-/

namespace Condense

set_option autoImplicit false

namespace Digest

def rotate (state : UInt64) : UInt64 :=
  (state <<< 5) ||| (state >>> 59)

def word (state w : UInt64) : UInt64 :=
  (rotate state ^^^ w) * 0x517cc1b727220a95

def littleEndian : List UInt8 → UInt64
  | [] => 0
  | b :: rest => b.toUInt64 ||| (littleEndian rest <<< 8)

/-- Mixes at most seven bytes: four, two and one at a time, as far as they reach. -/
def remainder (state : UInt64) : List UInt8 → UInt64
  | a :: b :: c :: d :: rest => pair (word state (littleEndian [a, b, c, d])) rest
  | rest => pair state rest
where
  pair (state : UInt64) : List UInt8 → UInt64
    | a :: b :: rest => single (word state (littleEndian [a, b])) rest
    | rest => single state rest
  single (state : UInt64) : List UInt8 → UInt64
    | a :: _ => word state a.toUInt64
    | [] => state

/-- Mixes bytes eight at a time, then what is left over. -/
def bytes (state : UInt64) : List UInt8 → UInt64
  | a :: b :: c :: d :: e :: f :: g :: h :: rest =>
      bytes (word state (littleEndian [a, b, c, d, e, f, g, h])) rest
  | rest => remainder state rest

/-- Mixes a text's UTF-8 bytes and an end mark. -/
def text (state : UInt64) (s : String) : UInt64 :=
  word (bytes state s.toUTF8.toList) 0xff

def ty (state : UInt64) : Ty → UInt64
  | .bool => word state 0
  | .int bits signed => word (word (word state 1) bits) signed.toUInt64

def ofVar (v : Variable) : UInt64 :=
  ty (text (word 0 0) v.name) v.ty

def ofLit (c : Literal) : UInt64 :=
  ty (word (word 0 1) c.value) c.ty

def ofUnary (op : UnaryOp) (operand : UInt64) : UInt64 :=
  word (word (word 0 2) op.ctorIdx.toUInt64) operand

def ofBinary (op : BinaryOp) (lhs rhs : UInt64) : UInt64 :=
  word (word (word (word 0 3) op.ctorIdx.toUInt64) lhs) rhs

def ofTernary (condition yes no : UInt64) : UInt64 :=
  word (word (word (word 0 4) condition) yes) no

def ofCast (target : Ty) (operand : UInt64) : UInt64 :=
  word (ty (word 0 5) target) operand

def ofCall (name : String) (result : Ty) (args : List UInt64) : UInt64 :=
  args.foldl word (word (ty (text (word 0 6) name) result) args.length.toUInt64)

end Digest

namespace Expr

mutual

/-- The digest of the content, skipping what `strip` skips at every depth. -/
def digest : Expr → UInt64
  | var _ v => Digest.ofVar v
  | lit _ c => Digest.ofLit c
  | unary _ op e => Digest.ofUnary op e.digest
  | binary _ op l r => Digest.ofBinary op l.digest r.digest
  | ternary _ c yes no => Digest.ofTernary c.digest yes.digest no.digest
  | paren _ e => e.digest
  | cast _ ty e => if e.ty = ty then e.digest else Digest.ofCast ty e.digest
  | call _ name ty args => Digest.ofCall name ty (digests args)

def digests : List Expr → List UInt64
  | [] => []
  | e :: rest => e.digest :: digests rest

end

end Expr

end Condense
