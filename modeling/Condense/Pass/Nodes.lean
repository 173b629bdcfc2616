import Condense.Provenance

/-!
# Making and replacing nodes

The pass makes nodes with ids never used before, and every node that takes another's
place takes over its origins. A node whose operands changed is made anew, so an id never
comes to stand for two contents.
-/

namespace Condense

set_option autoImplicit false

structure Nodes where
  /-- The least id not yet given to a node. -/
  next : NodeId
  provenance : Provenance := {}

namespace Nodes

def fresh : StateM Nodes NodeId := fun nodes =>
  (nodes.next, { nodes with next := nodes.next + 1 })

def inherit (target source : NodeId) : StateM Nodes Unit := fun nodes =>
  ((), { nodes with provenance := nodes.provenance.inherit target source })

/-- The id of a node: its own, or when it `changed` a new one with the same origins. -/
def renew (id : NodeId) (changed : Bool) : StateM Nodes NodeId := do
  if changed then
    let new ← fresh
    inherit new id
    return new
  else return id

def replace (e : Expr) (id : NodeId) : StateM Nodes Expr := do
  inherit e.id id
  return e

/-- A new boolean literal in the place of the node `id`. -/
def literal (value : Bool) (id : NodeId) : StateM Nodes Expr := do
  replace (.lit (← fresh) (.ofBool value)) id

end Nodes

section Traversal

variable {m : Type → Type} [Monad m]

mutual

/-- Applies `step` to every node, operands before the node, left to right. `renew` gives
the id of the node that `step` sees, told whether an operand changed. -/
def Expr.bottomUp (renew : NodeId → Bool → m NodeId) (step : Expr → m Expr) : Expr → m Expr
  | .var id v => step (.var id v)
  | .lit id c => step (.lit id c)
  | .unary id op e => do
      let e' ← e.bottomUp renew step
      let id ← renew id (e'.id != e.id)
      step (.unary id op e')
  | .binary id op l r => do
      let l' ← l.bottomUp renew step
      let r' ← r.bottomUp renew step
      let id ← renew id (l'.id != l.id || r'.id != r.id)
      step (.binary id op l' r')
  | .ternary id c yes no => do
      let c' ← c.bottomUp renew step
      let yes' ← yes.bottomUp renew step
      let no' ← no.bottomUp renew step
      let id ← renew id (c'.id != c.id || yes'.id != yes.id || no'.id != no.id)
      step (.ternary id c' yes' no')
  | .paren id e => do
      let e' ← e.bottomUp renew step
      let id ← renew id (e'.id != e.id)
      step (.paren id e')
  | .cast id ty e => do
      let e' ← e.bottomUp renew step
      let id ← renew id (e'.id != e.id)
      step (.cast id ty e')
  | .call id name ty args => do
      let args' ← bottomUpAll renew step args
      let id ← renew id (args'.map Expr.id != args.map Expr.id)
      step (.call id name ty args')

def Expr.bottomUpAll (renew : NodeId → Bool → m NodeId) (step : Expr → m Expr) :
    List Expr → m (List Expr)
  | [] => return []
  | e :: rest => do
      let e' ← e.bottomUp renew step
      let rest' ← Expr.bottomUpAll renew step rest
      return e' :: rest'

end

end Traversal

end Condense
