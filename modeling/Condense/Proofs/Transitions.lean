import Condense.Proofs.Evolution

/-!
# Whatever the pass does to an expression

A `Transition` is a relation between an expression and what becomes of it that has a rule
for each thing the pass can do: to take something from inside a node, to put a literal, a
comparison or a node with other operands in its place, and to go on from there. Such a
relation holds of every successful run of the pass, from the identities at one node to the
rounds of a simplification, whatever the solver answers.
-/

namespace Condense

set_option autoImplicit false

/-- A relation between an expression and what the pass makes of it, with the least unused ids
before and after, that has a rule for everything the pass does to an expression. -/
structure Transition (related : NodeId → Expr → NodeId → Expr → Prop) : Prop where
  refl : ∀ next e, related next e next e
  trans : ∀ {next next' next'' e e' e''}, related next e next' e' →
    related next' e' next'' e'' → related next e next'' e''
  /-- A node of which no operand has a new id stays where it is. -/
  rebuilt : ∀ {next next' e operands}, Through related next e.children next' operands →
    operands.map Expr.id = e.children.map Expr.id → related next e next' (e.rebuild e.id operands)
  /-- A node with other operands is made anew. -/
  renewed : ∀ {next next' e operands}, Through related next e.children next' operands →
    operands ≠ e.children → related next e (next' + 1) (e.rebuild next' operands)
  inner : ∀ {next next' e r}, r ∈ Expr.nodesOf e.children → next ≤ next' →
    related next e next' r
  literal : ∀ {next next' id e} (value : Bool), 1 < e.weight → next ≤ id → id < next' →
    related next e next' (.lit id (.ofBool value))
  /-- A double negation of an integer becomes a comparison. -/
  comparison : ∀ {next id id' a inner}, a.unparen = .unary id' .lnot inner →
    inner.ty.isBool = false → related next (.unary id .lnot a) (next + 2)
      (.binary (next + 1) .ne inner (.lit next (.ofWord 0 inner.ty)))

namespace Transition

open Condense.Identities

section Identities

variable {related : NodeId → Expr → NodeId → Expr → Prop} (transition : Transition related)
  {next next' : NodeId} {e r : Expr}

include transition

theorem of_collapsed (collapsed : Collapsed next e r next') : related next e next' r := by
  cases collapsed with
  | kept => exact transition.refl next e
  | literal integer value =>
      refine transition.literal value ?_ (Nat.le_refl _) (Nat.lt_succ_self _)
      exact Expr.one_lt_weight (by simp [Expr.asBool, Literal.asBool, integer]) rfl

theorem of_outcome (outcome : Identities.Outcome e next r next') : related next e next' r := by
  cases outcome with
  | kept idle irreducible => exact transition.refl next e
  | inner inside later => exact transition.inner inside later
  | literal value heavier unused used => exact transition.literal value heavier unused used
  | comparison whole negated integer =>
      subst whole
      exact transition.comparison negated integer
  | @joined id middle next' op l r l' r' whole left right changed =>
      subst whole
      have operands : Through related next [l, r] next' [l', r'] :=
        .cons (transition.of_collapsed left) (.cons (transition.of_collapsed right) (.nil _))
      exact transition.renewed (e := .binary id op l r) operands changed

end Identities

def Moves {σ : Type} (related : NodeId → Expr → NodeId → Expr → Prop) (s : Session σ) (e : Expr)
    (t : Session σ) (r : Expr) : Prop :=
  related s.nodes.next e t.nodes.next r ∧ t.options = s.options

section Pass

variable {related : NodeId → Expr → NodeId → Expr → Prop} (transition : Transition related)
  {σ : Type} {s t : Session σ} {e r : Expr}

include transition

/-- A transition only looks at the supply of ids, so every act of the pass has a rule in it. -/
theorem evolution : Evolution (Moves related : Session σ → Expr → Session σ → Expr → Prop) where
  refl := fun _ e => ⟨transition.refl _ e, rfl⟩
  trans := fun first second => ⟨transition.trans first.1 second.1, second.2.trans first.2⟩
  counted := fun _ e _ => ⟨transition.refl _ e, rfl⟩
  told := fun _ e _ => ⟨transition.refl _ e, rfl⟩
  asked := fun _ => ⟨transition.refl _ _, rfl⟩
  rebuilt := by
    intro s u e results below same
    exact ⟨transition.rebuilt (below.map (fun s : Session σ => s.nodes.next) And.left) same,
      below.unchanged Session.options And.right⟩
  renewed := by
    intro s u e results below differ
    have kept : u.options = s.options := below.unchanged Session.options And.right
    exact ⟨transition.renewed (below.map (fun s : Session σ => s.nodes.next) And.left) differ,
      kept⟩
  acted := by
    intro s e act acts
    refine ⟨?_, rfl⟩
    cases acts with
    | identities => exact transition.of_outcome (at_node_outcome e s.nodes)
    | unwrapped =>
        obtain ⟨bare, supply⟩ := e.unwrap_run s.nodes
        show related s.nodes.next e (e.unwrap s.nodes).2.next (e.unwrap s.nodes).1
        rw [bare, supply]
        have inside := e.unparen_mem_nodes
        rw [e.nodes_eq] at inside
        rcases List.mem_cons.mp inside with same | deeper
        · rw [same]
          exact transition.refl _ e
        · exact transition.inner deeper (Nat.le_refl _)
    | collapsed => exact transition.of_collapsed (collapse_run e s.nodes).1
    | decided isOpen value =>
        exact transition.literal value (Expr.one_lt_weight isOpen.1 isOpen.2) (Nat.le_refl _)
          (Nat.lt_succ_self _)

theorem round {condition : Expr} {stage : Stage}
    (run : Pass.round condition stage e s = (.ok r, t)) : Moves related s e t r :=
  transition.evolution.round run

/-- Whatever holds of everything the pass does holds of a simplification. -/
theorem simplify {condition : Expr} (run : condition.simplify s = (.ok r, t)) :
    Moves related s condition t r := by
  obtain ⟨stage, u, oracle, provenance, changed, steps, rfl⟩ := Pass.simplify_eq_ok run
  exact (transition.evolution.rounds steps :)

end Pass

end Transition

end Condense
