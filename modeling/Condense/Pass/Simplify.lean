import Condense.Pass.Session

/-!
# Simplifying a condition

A condition goes through rounds until a round leaves it as it is or the rounds run out.
A round applies the identities, proves the operands of `&&` and `||`, and proves the
whole. What cannot be proven stays; an operand or condition with a call is never put to
the prover, since a literal in its place would lose the call.
-/

namespace Condense

set_option autoImplicit false

namespace Pass

variable {σ : Type}

/-- The literal that a proven expression becomes, if the verdict is one. -/
def decided? (e : Expr) : Pass σ (Option Expr) := do
  match ← verdict e with
  | .isTrue => return some (← onNodes (Nodes.literal true e.id))
  | .isFalse => return some (← onNodes (Nodes.literal false e.id))
  | .unknown => return none

/-- An operand of `&&` or `||`, replaced by a literal when proven. Also tells whether it
was. -/
def operand (e : Expr) : Pass σ (Expr × Bool) := do
  if !e.ty.isBool || e.asBool.isSome || e.hasCall then return (e, false)
  match ← decided? e with
  | some literal => return (literal, true)
  | none => return (e, false)

def foldNode : Expr → Pass σ Expr
  | .binary id op l r => do
      if !op.isLogical then return .binary id op l r
      let (l', lp) ← operand l
      let (r', rp) ← operand r
      if lp || rp then
        let id ← onNodes (Nodes.renew id true)
        onNodes (Identities.atNode (.binary id op l' r'))
      else return .binary id op l r
  | e => return e

def fold (e : Expr) : Pass σ Expr :=
  e.bottomUp (fun id changed => onNodes (Nodes.renew id changed)) foldNode

def evaluate (e : Expr) : Pass σ Expr := do
  let (e, _) ← onNodes (Identities.collapse e)
  if e.asBool.isSome || e.hasCall then return e
  return (← decided? e).getD e

def advance (condition : Expr) (before after : Stage) : Pass σ Unit :=
  if before = after then return () else note (.moved condition before after)

/-- One round; `stage` is the stage at which it starts. -/
def round (condition : Expr) (stage : Stage) (e : Expr) : Pass σ Expr := do
  modify fun session => { session with iterations := session.iterations + 1 }
  let reduced ← onNodes e.reduce
  let bare ← onNodes reduced.unwrap
  let folded ← if (← get).options.foldOperands then fold bare else pure bare
  advance condition stage .childrenSimplified
  let evaluated ← evaluate folded
  advance condition .childrenSimplified .conditionEvaluated
  return evaluated

/-- Rounds until one changes nothing, at most `limit` of them. Gives the last result, the
stage reached, and whether a round changed nothing. -/
def rounds (condition : Expr) (stage : Stage) (e : Expr) : Nat → Pass σ (Expr × Stage × Bool)
  | 0 => return (e, stage, false)
  | limit + 1 => do
      let e' ← round condition stage e
      if e'.id = e.id then return (e', .conditionEvaluated, true)
      else rounds condition .conditionEvaluated e' limit

end Pass

/-- Simplifies one condition. The result has the id of the condition if nothing changed. -/
def Expr.simplify {σ : Type} (condition : Expr) : Pass σ Expr := do
  modify fun session => { session with visited := session.visited + 1 }
  let limit := (← get).options.maxIterations.toNat
  let (result, stage, settled) ← Pass.rounds condition .unvisited condition limit
  if !settled then Pass.note (.gaveUp condition limit result)
  if result.id ≠ condition.id then
    Pass.onNodes (Nodes.inherit result.id condition.id)
    modify fun session => { session with changed := session.changed + 1 }
    Pass.advance condition stage .settled
    Pass.note (.replaced condition result)
  return result

end Condense
