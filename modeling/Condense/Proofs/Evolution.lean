import Condense.Proofs.Runs

/-!
# Whatever the pass does to a session

A `Course` relates a session and an expression to the session and the expression that the
pass makes of them, and has a rule for each act that a round is made of once it has counted
itself. With a rule for the count as well it is an `Evolution`. Such a relation holds of every
successful run, from one node to the rounds of a simplification, whatever the solver answers.
It may speak of all that a session holds: the supply of ids, the origins of nodes, the answers
that the prover keeps and the counters.
-/

namespace Condense

set_option autoImplicit false

open Condense.Identities

/-- The acts by which the pass puts one expression in the place of another. -/
inductive Expr.Act (e : Expr) : StateM Nodes Expr → Prop where
  | identities : e.Act (atNode e)
  | unwrapped : e.Act e.unwrap
  | collapsed : e.Act (Prod.fst <$> collapse e)
  | decided (isOpen : e.IsOpen) (value : Bool) : e.Act (Nodes.literal value e.id)

/-- A relation that has a rule for everything the pass does in the course of a round. -/
structure Course {σ : Type} (related : Session σ → Expr → Session σ → Expr → Prop) :
    Prop where
  refl : ∀ s e, related s e s e
  trans : ∀ {s u t e e' e''}, related s e u e' → related u e' t e'' → related s e t e''
  told : ∀ s e journal, related s e (s.told journal) e
  asked : ∀ {s e answer prover}, Prover.verdict e s.prover = (.ok answer, prover) →
    related s e { s with prover } e
  /-- A node of which no operand has a new id stays where it is. -/
  rebuilt : ∀ {s u e results}, Through related s e.children u results →
    results.map Expr.id = e.children.map Expr.id → related s e u (e.rebuild e.id results)
  /-- A node with other operands is made anew. -/
  renewed : ∀ {s u e results}, Through related s e.children u results → results ≠ e.children →
    related s e { u with nodes := (Nodes.renew e.id true u.nodes).2 }
      (e.rebuild u.nodes.next results)
  acted : ∀ {s e act}, e.Act act →
    related s e { s with nodes := (act s.nodes).2 } (act s.nodes).1

/-- A relation that has a rule for everything the pass does. -/
structure Evolution {σ : Type} (related : Session σ → Expr → Session σ → Expr → Prop) : Prop
    extends Course related where
  counted : ∀ s e iterations, related s e { s with iterations } e

/-- What depends neither on the prover nor on the nodes stays as it is. -/
theorem Course.of_view {σ α : Type} (view : Session σ → α)
    (blind : ∀ s prover nodes, view { s with prover, nodes } = view s) :
    Course fun (s : Session σ) (_ : Expr) (t : Session σ) (_ : Expr) => view t = view s where
  refl := fun _ _ => rfl
  trans := fun first second => second.trans first
  told := fun s _ _ => blind s _ s.nodes
  asked := fun {s} _ _ prover _ => blind s prover s.nodes
  rebuilt := fun below _ => below.unchanged view fun same => same
  renewed := fun {_ u} _ _ below _ =>
    (blind u u.prover _).trans (below.unchanged view fun same => same)
  acted := fun {s} _ _ _ => blind s s.prover _

section Runs

open Condense.Pass

variable {σ : Type} {related : Session σ → Expr → Session σ → Expr → Prop}
  {s t : Session σ} {e r : Expr}

namespace Course

variable (course : Course related)

include course

theorem of_act {act : StateM Nodes Expr} (acts : e.Act act)
    (run : onNodes act s = (.ok r, t)) : related s e t r := by
  obtain ⟨rfl, rfl⟩ := on_nodes_eq_ok run
  exact course.acted acts

theorem verdict {answer : Verdict} (run : Pass.verdict e s = (.ok answer, t)) :
    related s e t e := by
  obtain ⟨prover, journal, asked, rfl⟩ := verdict_eq_ok run
  exact course.trans (course.asked asked) (course.told _ e journal)

/-- A question changes no expression, and an answer puts a literal in its place. -/
theorem of_tried {fit : Prop} (isOpen : fit → e.IsOpen) (tried : Tried fit s e t r) :
    related s e t r := by
  cases tried with
  | skipped unfit => exact course.refl s e
  | unknown fits asked => exact course.verdict asked
  | @decided answer u fits asked value =>
      have supply : u.nodes = s.nodes := by
        obtain ⟨prover, journal, _, rfl⟩ := verdict_eq_ok asked
        rfl
      rw [← supply]
      exact course.trans (course.verdict asked)
        (course.acted (.decided (isOpen fits) value))

theorem bottom_up {step : Expr → Pass σ Expr}
    (steps : ∀ {e s r t}, step e s = (.ok r, t) → related s e t r)
    (run : e.bottomUp renew step s = (.ok r, t)) : related s e t r := by
  refine related_of_bottom_up ?_ run
  intro s u v t e r operands id below renewed stepped
  obtain ⟨rfl, rfl⟩ := on_nodes_eq_ok renewed
  -- What the traversal sees of a change is a new id among those of the operands.
  cases changed : operands.map Expr.id != e.children.map Expr.id with
  | false =>
      rw [changed] at stepped
      exact course.trans (course.rebuilt below (by simpa using changed)) (steps stepped)
  | true =>
      rw [changed] at stepped
      have differ : operands ≠ e.children := by
        rintro rfl
        simp at changed
      exact course.trans (course.renewed below differ) (steps stepped)

theorem reduce (run : onNodes e.reduce s = (.ok r, t)) : related s e t r := by
  unfold Expr.reduce at run
  rw [on_nodes_bottom_up] at run
  exact course.bottom_up (course.of_act .identities) run

theorem fold_node (run : foldNode e s = (.ok r, t)) : related s e t r := by
  cases fold_node_eq_ok run with
  | other plain => exact course.refl s e
  | @unproven u _ id op a b logical left right =>
      have below : Through related s [a, b] t [a, b] :=
        .cons (course.of_tried And.right left)
          (.cons (course.of_tried And.right right) (.nil _))
      exact course.rebuilt (e := .binary id op a b) below rfl
  | @proven u v _ id op a b a' b' _ logical left right changed reduced =>
      have below : Through related s [a, b] v [a', b'] :=
        .cons (course.of_tried And.right left)
          (.cons (course.of_tried And.right right) (.nil _))
      exact course.trans (course.renewed (e := .binary id op a b) below changed)
        (course.of_act .identities reduced)

theorem fold (run : Pass.fold e s = (.ok r, t)) : related s e t r :=
  course.bottom_up course.fold_node run

theorem evaluate (run : Pass.evaluate e s = (.ok r, t)) : related s e t r := by
  have collapsed : related s e { s with nodes := (collapse e s.nodes).2 }
      (collapse e s.nodes).1.1 :=
    course.acted .collapsed
  exact course.trans collapsed (course.of_tried id (evaluate_eq_ok run))

/-- A round counts itself, and what it does then is what the relation is about. -/
theorem round {condition : Expr} {stage : Stage}
    (run : Pass.round condition stage e s = (.ok r, t)) :
    related { s with iterations := s.iterations + 1 } e t r := by
  obtain ⟨reduced, bare, folded, u, v, w, x, journal, journal', first, second, third, fourth,
    rfl⟩ := round_eq_ok run
  have unwrapped : related { s with iterations := s.iterations + 1 } e v bare :=
    course.trans (course.reduce first) (course.of_act .unwrapped second)
  have proven : related v bare w folded := by
    rcases third with ⟨_, third⟩ | ⟨_, rfl, rfl⟩
    · exact course.fold third
    · exact course.refl _ _
  have evaluated : related w folded (x.told journal') r :=
    course.trans (course.told w folded journal)
      (course.trans (course.evaluate fourth) (course.told x r journal'))
  exact course.trans unwrapped (course.trans proven evaluated)

end Course

namespace Evolution

variable (evolution : Evolution related)

include evolution

theorem round {condition : Expr} {stage : Stage}
    (run : Pass.round condition stage e s = (.ok r, t)) : related s e t r :=
  evolution.trans (evolution.counted s e _) (evolution.toCourse.round run)

theorem rounds {condition : Expr} {stage stage' : Stage} {limit : Nat} {settled : Bool}
    (run : Pass.rounds condition stage e limit s = (.ok (r, stage', settled), t)) :
    related s e t r := by
  induction limit generalizing stage e s with
  | zero =>
      obtain ⟨result, rfl⟩ := pure_eq_ok run
      cases result
      exact evolution.refl _ _
  | succ limit ih =>
      obtain ⟨e', u, once, ending | ⟨_, more⟩⟩ := rounds_eq_ok run
      · obtain ⟨_, rfl, _, rfl⟩ := ending
        exact evolution.round once
      · exact evolution.trans (evolution.round once) (ih more)

end Evolution

end Runs

end Condense
