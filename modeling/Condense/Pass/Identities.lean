import Condense.Pass.Nodes

/-!
# Syntactic identities

One pass over an expression that needs no solver: parentheses and casts that say nothing
go, double negations cancel, and literals are folded through `!`, `&&` and `||`. An
operand with a call is dropped only where it would not have been evaluated.
-/

namespace Condense

set_option autoImplicit false

namespace Expr

/-- Parentheses around such an expression are redundant. -/
def isAtomic : Expr → Bool
  | var .. | lit .. | paren .. => true
  | _ => false

def unparen : Expr → Expr
  | paren _ e => e.unparen
  | e => e

end Expr

namespace Identities

/-- An operand in boolean position: an integer literal becomes `true` or `false`. Also
tells whether it did. -/
def collapse (e : Expr) : StateM Nodes (Expr × Bool) := do
  match e with
  | .lit id c =>
      if c.ty.isBool then return (e, false)
      else return (← Nodes.literal c.isNonzero id, true)
  | _ => return (e, false)

def negation (id : NodeId) (e : Expr) : StateM Nodes Expr := do
  match e.asBool with
  | some value => Nodes.replace (← Nodes.literal (!value) e.id) id
  | none =>
    match e.unparen with
    | .unary _ .lnot inner =>
        Nodes.inherit inner.id e.id
        if inner.ty.isBool then Nodes.replace inner id
        else
          let zero := .lit (← Nodes.fresh) (.ofWord 0 inner.ty)
          let ne := .binary (← Nodes.fresh) .ne inner zero
          Nodes.replace (← Nodes.replace ne e.id) id
    | _ => return .unary id .lnot e

/-- The node `id`, `l && r` or `l || r`, where the value `absorbing` of either operand
decides the whole. A literal operand goes away where the other alone has the same value
and no call is lost. -/
def junction (id : NodeId) (op : BinaryOp) (absorbing : Bool) (l r : Expr) :
    StateM Nodes Expr := do
  let (l, lc) ← collapse l
  let (r, rc) ← collapse r
  if l.asBool = some absorbing then Nodes.replace l id
  else if r.asBool = some absorbing ∧ !l.hasCall then Nodes.replace r id
  else if l.asBool = some (!absorbing) ∧ r.ty.isBool then Nodes.replace r id
  else if r.asBool = some (!absorbing) ∧ l.ty.isBool then Nodes.replace l id
  else return .binary (← Nodes.renew id (lc || rc)) op l r

def atNode : Expr → StateM Nodes Expr
  | .paren id e => if e.isAtomic then Nodes.replace e id else return .paren id e
  | .cast id ty e => if e.ty = ty then Nodes.replace e id else return .cast id ty e
  | .unary id .lnot e => do
      let (e, _) ← collapse e
      negation id e
  | .binary id .land l r => junction id .land false l r
  | .binary id .lor l r => junction id .lor true l r
  | e => return e

end Identities

namespace Expr

def reduce (e : Expr) : StateM Nodes Expr :=
  e.bottomUp Nodes.renew Identities.atNode

/-- Takes off the parentheses around a whole condition. -/
def unwrap : Expr → StateM Nodes Expr
  | paren id e => do
      Nodes.inherit e.id id
      e.unwrap
  | e => return e

end Expr

end Condense
