import Condense.Literal

/-!
# Expressions

Condition expressions as trees of nodes. Every node carries an id, and two nodes with
the same id have the same content; the id plays no part in what a node means. Ids are natural
numbers and never run out: what a counter of 64 bits would do after 2 ^ 64 nodes is left out.
-/

namespace Condense

set_option autoImplicit false

abbrev NodeId := Nat

structure Variable where
  name : String
  ty : Ty
  deriving DecidableEq

def Variable.identifier (v : Variable) : String :=
  v.name ++ ":" ++ v.ty.text

inductive UnaryOp where
  | lnot
  | not
  | neg
  deriving DecidableEq

def UnaryOp.symbol : UnaryOp → String
  | lnot => "!"
  | not => "~"
  | neg => "-"

inductive BinaryOp where
  | add
  | sub
  | mul
  | div
  | rem
  | and
  | or
  | xor
  | shl
  | shr
  | eq
  | ne
  | lt
  | le
  | gt
  | ge
  | land
  | lor
  deriving DecidableEq

namespace BinaryOp

def symbol : BinaryOp → String
  | add => "+"
  | sub => "-"
  | mul => "*"
  | div => "/"
  | rem => "%"
  | and => "&"
  | or => "|"
  | xor => "^"
  | shl => "<<"
  | shr => ">>"
  | eq => "=="
  | ne => "!="
  | lt => "<"
  | le => "<="
  | gt => ">"
  | ge => ">="
  | land => "&&"
  | lor => "||"

def isComparison : BinaryOp → Bool
  | eq | ne | lt | le | gt | ge => true
  | _ => false

/-- The operators that evaluate their right operand only when needed. -/
def isLogical : BinaryOp → Bool
  | land | lor => true
  | _ => false

end BinaryOp

inductive Expr where
  | var (id : NodeId) (v : Variable)
  | lit (id : NodeId) (literal : Literal)
  | unary (id : NodeId) (op : UnaryOp) (operand : Expr)
  | binary (id : NodeId) (op : BinaryOp) (lhs rhs : Expr)
  | ternary (id : NodeId) (condition yes no : Expr)
  | paren (id : NodeId) (inner : Expr)
  | cast (id : NodeId) (ty : Ty) (operand : Expr)
  | call (id : NodeId) (name : String) (ty : Ty) (args : List Expr)

namespace Expr

def id : Expr → NodeId
  | var id _ | lit id _ | unary id _ _ | binary id _ _ _ | ternary id _ _ _
  | paren id _ | cast id _ _ | call id _ _ _ => id

/-- The type of the value: comparisons and logical operators give `bool`, every other
operator the type of its left operand, a ternary the type of its first arm. -/
def ty : Expr → Ty
  | var _ v => v.ty
  | lit _ c => c.ty
  | unary _ op e => if op = .lnot then .bool else e.ty
  | binary _ op l _ => if op.isComparison || op.isLogical then .bool else l.ty
  | ternary _ _ yes _ => yes.ty
  | paren _ e => e.ty
  | cast _ ty _ => ty
  | call _ _ ty _ => ty

def asBool : Expr → Option Bool
  | lit _ c => c.asBool
  | _ => none

def isTrue (e : Expr) : Bool :=
  e.asBool == some true

def isFalse (e : Expr) : Bool :=
  e.asBool == some false

def isCall : Expr → Bool
  | call .. => true
  | _ => false

def asVariable : Expr → Option Variable
  | var _ v => some v
  | _ => none

def children : Expr → List Expr
  | var .. | lit .. => []
  | unary _ _ e | paren _ e | cast _ _ e => [e]
  | binary _ _ l r => [l, r]
  | ternary _ c yes no => [c, yes, no]
  | call _ _ _ args => args

mutual

/-- Every node of the tree, a node before its operands, left to right. -/
def nodes : Expr → List Expr
  | var id v => [var id v]
  | lit id c => [lit id c]
  | unary id op e => unary id op e :: e.nodes
  | binary id op l r => binary id op l r :: (l.nodes ++ r.nodes)
  | ternary id c yes no => ternary id c yes no :: (c.nodes ++ (yes.nodes ++ no.nodes))
  | paren id e => paren id e :: e.nodes
  | cast id ty e => cast id ty e :: e.nodes
  | call id name ty args => call id name ty args :: nodesOf args

def nodesOf : List Expr → List Expr
  | [] => []
  | e :: rest => e.nodes ++ nodesOf rest

end

def occurrences (e : Expr) : List Variable :=
  e.nodes.filterMap asVariable

/-- Whether a call occurs anywhere: a call may have effects, so an expression that
holds one is never dropped while it would be evaluated. -/
def hasCall (e : Expr) : Bool :=
  e.nodes.any isCall

def nodeCount (e : Expr) : Nat :=
  e.nodes.length

end Expr

end Condense
