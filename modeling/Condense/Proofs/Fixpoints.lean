import Condense.Proofs.Convergence
import Condense.Proofs.Identity
import Condense.Proofs.Recall

/-!
# What a round leaves when it changes nothing

A round that returns the expression it was given has done nothing on the way, since an
expression that was changed is lighter and never becomes as heavy again. So there was
nothing to do at any node: no identity applies, and everything that may be put to the
prover was put to it and stayed without a verdict. Such an expression is settled.
-/

namespace Condense

set_option autoImplicit false

open Condense.Identities

namespace Expr

/-- No operand of `&&` or `||` that may be put to the prover has a verdict. -/
def IsUnproven (undecided : Expr → Prop) (e : Expr) : Prop :=
  ∀ id op l r, e = .binary id op l r → op.isLogical = true →
    (l.IsProvable → undecided l) ∧ (r.IsProvable → undecided r)

/-- There is nothing left for a round to do, when nothing is proven about the conditions
that are `undecided`. -/
structure Settled (undecided : Expr → Prop) (folds : Bool) (e : Expr) : Prop where
  idle : ∀ node ∈ e.nodes, node.IsIdle
  bare : ∀ id a, e ≠ .paren id a
  boolean : ∀ nodes, collapse e nodes = ((e, false), nodes)
  operands : folds = true → ∀ node ∈ e.nodes, node.IsUnproven undecided
  whole : e.IsOpen → undecided e

theorem IsUnproven.mono {undecided undecided' : Expr → Prop} {e : Expr}
    (unproven : e.IsUnproven undecided) (weaker : ∀ x, undecided x → undecided' x) :
    e.IsUnproven undecided' := by
  intro id op l r whole logical
  obtain ⟨left, right⟩ := unproven id op l r whole logical
  exact ⟨fun fits => weaker l (left fits), fun fits => weaker r (right fits)⟩

theorem Settled.mono {undecided undecided' : Expr → Prop} {folds : Bool} {e : Expr}
    (settled : Settled undecided folds e) (weaker : ∀ x, undecided x → undecided' x) :
    Settled undecided' folds e where
  idle := settled.idle
  bare := settled.bare
  boolean := settled.boolean
  operands := fun folds node inside => (settled.operands folds node inside).mono weaker
  whole := fun isOpen => weaker e (settled.whole isOpen)

theorem idle_of_outcome {e r : Expr} {next next' : NodeId}
    (outcome : Identities.Outcome e next r next') (same : r = e) : e.IsIdle ∧ ¬IsRedex e := by
  cases outcome with
  | kept idle irreducible => exact ⟨idle, irreducible⟩
  | inner inside later => exact absurd same (Lighter.inner inside).ne
  | literal value heavier unused used => exact absurd same (Lighter.literal _ value heavier).ne
  | comparison whole negated integer =>
      rw [whole] at same
      cases same
  | joined whole left right changed =>
      rw [whole] at same
      cases same
      exact absurd rfl changed

end Expr

namespace Pass

open Condense.Expr

variable {σ : Type} {s t u : Session σ} {e r : Expr}

section Unmoved

variable {step : Expr → Pass σ Expr} {keeps : Prover σ → Prop} {done : Prover σ → Expr → Prop}

/-- An act leaves the expression or makes it lighter; where it leaves it, every node is done.
What is done stays so. -/
def Unmoved (keeps : Prover σ → Prop) (done : Prover σ → Expr → Prop) (s : Session σ) (e : Expr)
    (t : Session σ) (r : Expr) : Prop :=
  keeps s.prover → keeps t.prover ∧ (∀ x, done s.prover x → done t.prover x) ∧ Lightens e r ∧
    (r = e → ∀ node ∈ e.nodes, done t.prover node)

theorem Unmoved.through {as bs : List Expr} (steps : Through (Unmoved keeps done) s as t bs)
    (kept : keeps s.prover) :
    keeps t.prover ∧ (∀ x, done s.prover x → done t.prover x) ∧
      Through (fun _ e _ r => Lightens e r) s as t bs ∧
      (bs = as → ∀ node ∈ nodesOf as, done t.prover node) := by
  induction steps with
  | nil s => exact ⟨kept, fun _ known => known, .nil s, by simp [nodesOf]⟩
  | cons head tail ih =>
      obtain ⟨kept, stays, lightens, all⟩ := head kept
      obtain ⟨kept, stays', rest, all'⟩ := ih kept
      refine ⟨kept, fun x known => stays' x (stays x known), .cons lightens rest, ?_⟩
      intro same node inside
      obtain ⟨first, others⟩ := List.cons.inj same
      rw [nodesOf, List.mem_append] at inside
      rcases inside with inside | inside
      · exact stays' node (all first node inside)
      · exact all' others node inside

/-- A traversal that returns the expression itself has done every node. -/
theorem unmoved_of_bottom_up
    (steps : ∀ {e s r t}, step e s = (.ok r, t) → keeps s.prover →
      keeps t.prover ∧ (∀ x, done s.prover x → done t.prover x) ∧ Lightens e r ∧
        (r = e → done t.prover e))
    (run : e.bottomUp renew step s = (.ok r, t)) : Unmoved keeps done s e t r := by
  refine related_of_bottom_up ?_ run
  intro s u v t e r operands id below renewed stepped kept
  obtain ⟨kept, stays, lightens, all⟩ := Unmoved.through below kept
  obtain ⟨rfl, rfl⟩ := on_nodes_eq_ok renewed
  obtain ⟨kept, stays', lightens', last⟩ := steps stepped kept
  generalize anew : (operands.map Expr.id != e.children.map Expr.id) = changed
    at stepped last lightens'
  have first : Lightens e (e.rebuild (Nodes.renew e.id changed u.nodes).1 operands) := by
    by_cases same : operands = e.children
    · rw [same] at anew ⊢
      rw [← anew, bne_self_eq_false]
      exact .inl e.rebuild_self
    · exact .inr (.of_operands _ lightens same)
  refine ⟨kept, fun x known => stays' x (stays x known), first.trans lightens', ?_⟩
  intro same node inside
  rw [same] at lightens' last
  -- The step came back to the node, so it was at the node, over operands that stayed.
  have fixed := first.eq_of_cycle lightens'
  have children : operands = e.children := by
    rw [← (rebuild_cases _ lightens.length_eq).2, fixed]
  rw [fixed] at last
  rw [e.nodes_eq, List.mem_cons] at inside
  rcases inside with rfl | inside
  · exact last rfl
  · exact stays' node (all children node inside)

end Unmoved

section Settling

theorem idle_of_reduce (run : onNodes e.reduce s = (.ok e, t)) : ∀ node ∈ e.nodes, node.IsIdle := by
  unfold Expr.reduce at run
  rw [on_nodes_bottom_up] at run
  have unmoved : Unmoved (fun _ => True) (fun _ => IsIdle) s e t e := by
    apply unmoved_of_bottom_up _ run
    intro e s r t stepped _
    have outcome := at_node_outcome e s.nodes
    obtain ⟨rfl, rfl⟩ := on_nodes_eq_ok stepped
    exact ⟨trivial, fun _ known => known, Lightens.transition.of_outcome outcome,
      fun same => (idle_of_outcome outcome same).1⟩
  exact (unmoved trivial).2.2.2 rfl

theorem bare_of_unwrap (run : onNodes e.unwrap s = (.ok e, t)) (id : NodeId) (a : Expr) :
    e ≠ .paren id a := by
  rintro rfl
  obtain ⟨same, _⟩ := on_nodes_eq_ok run
  rw [(unwrap_run _ _).1] at same
  have inside : (Expr.paren id a).unparen ∈ nodesOf (Expr.paren id a).children := by
    rw [children, nodes_of_singleton]
    exact a.unparen_mem_nodes
  exact absurd same.symm (Lighter.inner inside).ne

/-- What has been answered stays answered when an expression is put to the prover. -/
theorem Tried.recalls {fit : Prop} (tried : Tried fit s e t r) (filed : s.prover.Filed) :
    t.prover.Filed ∧ s.prover.Recalls t.prover := by
  have asked {answer : Verdict} {u : Session σ} (known : verdict e s = (.ok answer, u)) :
      u.prover.Filed ∧ s.prover.Recalls u.prover := by
    obtain ⟨prover, journal, run, rfl⟩ := verdict_eq_ok known
    have recalls := Prover.verdict_recalls filed e
    rw [run] at recalls
    exact ⟨recalls.1, recalls.2.trans (.of_oracle _)⟩
  cases tried with
  | skipped unfit => exact ⟨filed, .refl _⟩
  | unknown fits known => exact asked known
  | decided fits known value => exact (asked known :)

/-- An expression that stays although it is fit for the prover is undecided. -/
theorem Tried.undecided {fit : Prop} (isOpen : fit → e.IsOpen) (tried : Tried fit s e t r)
    (same : r = e) (filed : s.prover.Filed) (fits : fit) : t.prover.Undecided e := by
  rcases tried.stays isOpen same with ⟨unfit, _⟩ | ⟨_, known⟩
  · exact absurd fits unfit
  · obtain ⟨prover, journal, run, rfl⟩ := verdict_eq_ok known
    exact (Prover.undecided_of_verdict filed run).recalled (.of_oracle _)

theorem fold_node_recalls (run : foldNode e s = (.ok r, t)) (filed : s.prover.Filed) :
    t.prover.Filed ∧ s.prover.Recalls t.prover ∧
      (r = e → e.IsUnproven t.prover.Undecided) := by
  cases fold_node_eq_ok run with
  | other plain =>
      refine ⟨filed, .refl _, ?_⟩
      intro _ id op l r whole logical
      rw [plain id op l r whole] at logical
      cases logical
  | unproven logical left right =>
      obtain ⟨filed', recalls⟩ := left.recalls filed
      obtain ⟨filed'', recalls'⟩ := right.recalls filed'
      refine ⟨filed'', recalls.trans recalls', ?_⟩
      intro _ id op l r whole _
      cases whole
      exact ⟨fun fits => (left.undecided And.right rfl filed fits).recalled recalls',
        right.undecided And.right rfl filed'⟩
  | @proven u v _ id op a b a' b' _ logical left right changed reduced =>
      obtain ⟨filed', recalls⟩ := left.recalls filed
      obtain ⟨filed'', recalls'⟩ := right.recalls filed'
      have operands : Through (fun _ e _ r => Lightens e r) s [a, b] v [a', b'] :=
        .cons (u := u) (Lightens.transition.evolution.of_tried And.right left).1
          (.cons (Lightens.transition.evolution.of_tried And.right right).1 (.nil _))
      have lighter : Lighter (.binary id op a b) r :=
        (Lighter.of_operands (e := .binary id op a b) v.nodes.next operands changed).trans
          (Lightens.transition.evolution.of_act .identities reduced).1
      obtain ⟨_, rfl⟩ := on_nodes_eq_ok reduced
      exact ⟨filed'', recalls.trans recalls', fun same => absurd same lighter.ne⟩

/-- Where no operand is replaced, none has a verdict. -/
theorem unproven_of_fold (run : fold e s = (.ok e, t)) (filed : s.prover.Filed) :
    t.prover.Filed ∧ ∀ node ∈ e.nodes, node.IsUnproven t.prover.Undecided := by
  have unmoved : Unmoved Prover.Filed (fun prover => IsUnproven prover.Undecided) s e t e := by
    apply unmoved_of_bottom_up _ run
    intro e s r t stepped filed
    obtain ⟨filed', recalls, unproven⟩ := fold_node_recalls stepped filed
    refine ⟨filed', ?_, (Lightens.transition.evolution.fold_node stepped).1, unproven⟩
    intro node known
    exact known.mono fun x undecided => undecided.recalled recalls
  obtain ⟨filed', _, _, all⟩ := unmoved filed
  exact ⟨filed', all rfl⟩

theorem evaluate_recalls (run : evaluate e s = (.ok e, t)) (filed : s.prover.Filed) :
    t.prover.Filed ∧ s.prover.Recalls t.prover ∧
      (∀ nodes, collapse e nodes = ((e, false), nodes)) ∧
      (e.IsOpen → t.prover.Undecided e) := by
  have tried := evaluate_eq_ok run
  obtain ⟨collapsed, changed⟩ := collapse_run e s.nodes
  have same : (collapse e s.nodes).1.1 = e :=
    (Lightens.transition.of_collapsed collapsed).eq_of_cycle
      (Lightens.transition.evolution.of_tried id tried).1
  have boolean : ∀ nodes, collapse e nodes = ((e, false), nodes) := by
    rcases changed with ⟨_, differs⟩ | idle
    · exact absurd same differs
    · exact idle
  obtain ⟨filed', recalls⟩ := tried.recalls filed
  refine ⟨filed', recalls, boolean, ?_⟩
  rw [same] at tried
  exact tried.undecided id rfl filed

/-- A round that returns the expression itself leaves it settled. -/
theorem settled_of_round {condition : Expr} {stage : Stage}
    (run : round condition stage e s = (.ok e, t)) (filed : s.prover.Filed) :
    Settled t.prover.Undecided s.options.foldOperands e := by
  obtain ⟨reduced, bare, folded, u, v, w, x, journal, journal', first, second, third, fourth,
    rfl⟩ := round_eq_ok run
  have simpler : Lightens e reduced := (Lightens.transition.evolution.reduce first).1
  have unwrapped : Lightens reduced bare :=
    (Lightens.transition.evolution.of_act .unwrapped second).1
  have proven : Lightens bare folded := by
    rcases third with ⟨_, third⟩ | ⟨_, rfl, rfl⟩
    · exact (Lightens.transition.evolution.fold third).1
    · exact .inl rfl
  have evaluated : Lightens folded e := (Lightens.transition.evolution.evaluate fourth).1
  -- The expression can only get lighter, so it was the same all along.
  obtain rfl : reduced = e :=
    simpler.eq_of_cycle (unwrapped.trans (proven.trans evaluated))
  obtain rfl : bare = reduced := unwrapped.eq_of_cycle (proven.trans evaluated)
  obtain rfl : folded = bare := proven.eq_of_cycle evaluated
  have idle := idle_of_reduce first
  have outermost := bare_of_unwrap second
  obtain ⟨_, rfl⟩ := on_nodes_eq_ok first
  obtain ⟨_, rfl⟩ := on_nodes_eq_ok second
  have unproven : w.prover.Filed ∧ (s.options.foldOperands = true →
      ∀ node ∈ folded.nodes, node.IsUnproven w.prover.Undecided) := by
    rcases third with ⟨_, third⟩ | ⟨off, _, rfl⟩
    · obtain ⟨filed, all⟩ := unproven_of_fold third filed
      exact ⟨filed, fun _ => all⟩
    · refine ⟨filed, ?_⟩
      intro on
      rw [off] at on
      cases on
  obtain ⟨_, recalls, boolean, whole⟩ := evaluate_recalls fourth unproven.1
  have later : w.prover.Recalls (x.told journal').prover :=
    ((Prover.Recalls.of_oracle _).trans recalls).trans (.of_oracle _)
  constructor
  · exact idle
  · exact outermost
  · exact boolean
  · intro on node inside
    exact (unproven.2 on node inside).mono fun x undecided => undecided.recalled later
  · intro isOpen
    exact (whole isOpen).recalled (.of_oracle _)

theorem settled_of_rounds {condition : Expr} {stage stage' : Stage} {limit : Nat}
    (owned : Owned s.nodes.next [e]) (sequenced : s.prover.Sequenced)
    (run : rounds condition stage e limit s = (.ok (r, stage', true), t)) :
    Settled t.prover.Undecided s.options.foldOperands r := by
  induction limit generalizing stage e s with
  | zero =>
      obtain ⟨ending, _⟩ := pure_eq_ok run
      cases ending
  | succ limit ih =>
      obtain ⟨e', u, once, ending | ⟨_, more⟩⟩ := rounds_eq_ok run
      · obtain ⟨same, rfl, _, rfl⟩ := ending
        have renews := (Renews.transition.round once).1 owned
        rw [renews.eq_of_id owned same] at once ⊢
        exact settled_of_round once sequenced.filed
      · obtain ⟨renews, options⟩ := Renews.transition.round once
        have kept : u.prover.Sequenced := by
          have given : Guarantee.sequenced.logic.gives (round condition stage e : Pass σ Expr) _ :=
            round_gives condition stage e
          have kept := Guarantee.after_act given sequenced
          rwa [once] at kept
        rw [← options]
        exact ih ((renews owned).owned owned) kept more

/-- A simplification that ends by itself leaves its result settled; it has made a round. -/
theorem settled_of_simplify {condition : Expr} (owned : Owned s.nodes.next [condition])
    (sequenced : s.prover.Sequenced) (settles : condition.settles s = true)
    (run : condition.simplify s = (.ok r, t)) :
    Settled t.prover.Undecided s.options.foldOperands r ∧
      s.options.maxIterations.toNat ≠ 0 := by
  obtain ⟨stage, u, oracle, provenance, changed, rounds, rfl⟩ := simplify_eq_ok run
  rw [settles] at rounds
  constructor
  · have settled := settled_of_rounds (s := { s with visited := s.visited + 1 }) owned
      sequenced rounds
    exact settled.mono fun x undecided => undecided.recalled (.of_oracle oracle)
  · intro none
    rw [none] at rounds
    obtain ⟨ending, _⟩ := pure_eq_ok rounds
    cases ending

end Settling

end Pass

end Condense
