import Condense.Expr.Text
import Condense.Term.Sorting

/-!
# Expressions as terms

A condition becomes a `Bool` term over bit-vectors: arithmetic wraps, casts truncate or
extend, and an integer in boolean position is true when it is not zero. Calls have no
meaning in the theory, and a variable name may be used at one sort only.
-/

namespace Condense

set_option autoImplicit false

inductive Obstacle where
  | width
  | twoTypes
  | booleanArithmetic
  | ternaryArms
  | comparison
  | operands
  | call
  deriving DecidableEq

def Obstacle.text : Obstacle → String
  | width => "unsupported integer width"
  | twoTypes => "variable used with two types"
  | booleanArithmetic => "arithmetic on a boolean"
  | ternaryArms => "ternary arms of different types"
  | comparison => "comparison of different types"
  | operands => "operands of different types"
  | call => "opaque call"

structure Unsupported where
  expr : Expr
  obstacle : Obstacle

def Unsupported.toFault (u : Unsupported) : Fault :=
  .unsupported (u.expr.text ++ ": " ++ u.obstacle.text)

def Ty.sort : Ty → SmtSort
  | bool => .bool
  | int bits _ => .bitVec bits.toNat

namespace Encode

/-- The sorts of the variable names met so far, the latest first. -/
abbrev Scope := List (String × SmtSort)

abbrev Encoder := StateT Scope (Except Unsupported)

def refuse {α : Type} (e : Expr) (obstacle : Obstacle) : Encoder α :=
  throw ⟨e, obstacle⟩

/-- Records the sort of a name, which must not have been met at another sort. -/
def declare (e : Expr) (name : String) (sort : SmtSort) : Encoder Unit := do
  match (← get).lookup name with
  | some existing => if existing = sort then return () else refuse e .twoTypes
  | none => modify ((name, sort) :: ·)

/-- A term of type `ty` in boolean position: an integer is true when it is not zero. -/
def truth (ty : Ty) (t : Term) : Term :=
  match ty with
  | .bool => t
  | .int bits _ => .not (.eq t (.ofWord 0 bits.toNat))

/-- A term of type `source` as an integer `width` bits wide. -/
def convert (source : Ty) (width : Nat) (t : Term) : Term :=
  match source with
  | .bool => .ite t (.ofWord 1 width) (.ofWord 0 width)
  | .int bits signed =>
      if bits.toNat = width then t
      else if width < bits.toNat then .extract (width - 1) 0 t
      else if signed then .signExtend (width - bits.toNat) t
      else .zeroExtend (width - bits.toNat) t

def castTo (source target : Ty) (t : Term) : Term :=
  match target with
  | .bool => truth source t
  | .int bits _ => convert source bits.toNat t

/-- A boolean as a one-bit number, so that false comes before true. -/
def bit (t : Term) : Term :=
  .ite t (.ofWord 1 1) (.ofWord 0 1)

def order? (op : BinaryOp) (signed : Bool) : Option BvCompare :=
  match op, signed with
  | .lt, true => some .slt
  | .lt, false => some .ult
  | .le, true => some .sle
  | .le, false => some .ule
  | .gt, true => some .sgt
  | .gt, false => some .ugt
  | .ge, true => some .sge
  | .ge, false => some .uge
  | _, _ => none

/-- The comparison of two operands of one sort; `ty` is the type of the left one. -/
def comparison (op : BinaryOp) (ty : Ty) (l r : Term) : Term :=
  match order? op ty.isSigned with
  | some order => if ty.isBool then .bvCompare order (bit l) (bit r) else .bvCompare order l r
  | none => if op = .ne then .not (.eq l r) else .eq l r

def connective? (op : BinaryOp) : Option (Term → Term → Term) :=
  match op with
  | .and => some .and
  | .or => some .or
  | .xor => some .xor
  | _ => none

/-- The operator on two integers, by the signedness of the left one. -/
def arithmetic (op : BinaryOp) (signed : Bool) : BvBinary :=
  match op with
  | .sub => .sub
  | .mul => .mul
  | .div => if signed then .sdiv else .udiv
  | .rem => if signed then .srem else .urem
  | .and => .and
  | .or => .or
  | .xor => .xor
  | .shl => .shl
  | .shr => if signed then .ashr else .lshr
  | _ => .add

def isShift : BinaryOp → Bool
  | .shl | .shr => true
  | _ => false

/-- The term of an arithmetic or bitwise node. With a boolean on the left the right operand
is read as a truth value; a shift count is converted to the width of what it shifts. -/
def combine (e : Expr) (op : BinaryOp) (lty rty : Ty) (l r : Term) : Encoder Term :=
  if lty.isBool then
    match connective? op with
    | some make => return make l (truth rty r)
    | none => refuse e .booleanArithmetic
  else if isShift op then
    return .bvBinary (arithmetic op lty.isSigned) l (convert rty lty.width r)
  else if lty.sort = rty.sort then
    return .bvBinary (arithmetic op lty.isSigned) l r
  else refuse e .operands

/-- Encodes `e` by `act`, if its type has a width that terms can have. -/
def withWidth (e : Expr) (act : Encoder Term) : Encoder Term :=
  if e.ty.isValid then act else refuse e .width

def literal (c : Literal) : Term :=
  match c.ty with
  | .bool => .bool c.isNonzero
  | .int bits _ => .ofWord c.value bits.toNat

def join (e : Expr) (op : BinaryOp) (lty rty : Ty) (l r : Term) : Encoder Term :=
  if op = .land then return .and (truth lty l) (truth rty r)
  else if op = .lor then return .or (truth lty l) (truth rty r)
  else if op.isComparison then
    if lty.sort = rty.sort then return comparison op lty l r else refuse e .comparison
  else combine e op lty rty l r

/-- The term of an expression, at the sort of its type. -/
def term : Expr → Encoder Term
  | e@(.var _ v) => withWidth e do
      declare e v.name v.ty.sort
      return .const v.name v.ty.sort
  | e@(.lit _ c) => withWidth e (return literal c)
  | e@(.unary _ op a) => withWidth e do
      if op = .lnot then return .not (truth a.ty (← term a))
      else if a.ty.isBool then refuse e .booleanArithmetic
      else return .bvUnary (if op = .neg then .neg else .not) (← term a)
  | e@(.binary _ op l r) => withWidth e do
      let lt ← term l
      let rt ← term r
      join e op l.ty r.ty lt rt
  | e@(.ternary _ c yes no) => withWidth e do
      let ct ← term c
      let yt ← term yes
      let nt ← term no
      if yes.ty.sort = no.ty.sort then return .ite (truth c.ty ct) yt nt
      else refuse e .ternaryArms
  | e@(.paren _ a) => withWidth e (term a)
  | e@(.cast _ ty a) => withWidth e do
      return castTo a.ty ty (← term a)
  | e@(.call ..) => withWidth e (refuse e .call)

end Encode

def Expr.encode (e : Expr) : Except Unsupported Term := do
  let (t, _) ← (Encode.term e).run []
  return Encode.truth e.ty t

end Condense
