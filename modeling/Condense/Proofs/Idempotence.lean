import Condense.Proofs.Fixpoints
import Condense.Proofs.Transparency

/-!
# A settled condition stays

Where every question that a round asks about a settled expression comes to nothing, the
round returns the expression itself. There are two ways to know that it does. In the session
that settled the expression both answers are still in the cache, whatever else has been
simplified since, so that nothing is asked of the solver. In a new session, with a solver
whose answers depend on the term alone, the answers are given again.
-/

namespace Condense

set_option autoImplicit false

open Condense.Identities

section Traversal

variable {m : Type → Type} [Monad m] {renew : NodeId → Bool → m NodeId} {step : Expr → m Expr}

theorem Expr.bottom_up_all_stays (logic : Logic m) {args : List Expr}
    (each : ∀ arg ∈ args, logic.gives (arg.bottomUp renew step) (· = arg)) :
    logic.gives (bottomUpAll renew step args) (· = args) := by
  induction args with
  | nil => exact logic.pure rfl
  | cons first rest ih =>
      apply logic.bind (each first (by simp))
      intro first' head
      apply logic.bind (ih fun arg member => each arg (by simp [member]))
      intro rest' tail
      rw [head, tail]
      exact logic.pure rfl

theorem Expr.bottom_up_stays [LawfulMonad m] (logic : Logic m)
    (keeps : ∀ id, renew id false = pure id) {e : Expr}
    (steps : ∀ node ∈ e.nodes, logic.gives (step node) (· = node)) :
    logic.gives (e.bottomUp renew step) (· = e) := by
  induction e using children_induction with
  | node e ih =>
      have below : logic.gives (bottomUpAll renew step e.children) (· = e.children) := by
        apply bottom_up_all_stays
        intro child member
        apply ih child member
        intro node inside
        apply steps
        rw [e.nodes_eq]
        exact List.mem_cons_of_mem _ (mem_nodes_of.mpr ⟨child, member, inside⟩)
      rw [bottom_up_eq keeps]
      apply logic.bind below
      rintro operands rfl
      rw [bne_self_eq_false, keeps, pure_bind, rebuild_self]
      exact steps e e.self_mem_nodes

end Traversal

namespace Pass

open Condense.Expr

variable {σ : Type}

/-- Under the invariant, which no note breaks, questions about the conditions that are
`undecided` come to nothing. -/
structure Passive (undecided : Expr → Prop) (folds : Bool) (invariant : Session σ → Prop) :
    Prop where
  noted : ∀ {s : Session σ} (event : Event), invariant s → invariant (note event s).2
  asked : ∀ {s : Session σ} {e : Expr}, undecided e → invariant s →
    ∃ t, verdict e s = (.ok .unknown, t) ∧ invariant t
  folds_eq : ∀ {s : Session σ}, invariant s → s.options.foldOperands = folds

theorem run_of_gives {invariant : Session σ → Prop} {α : Type} {act : Pass σ α} {a : α}
    {s : Session σ} (given : (logic invariant).gives act (· = a)) (kept : invariant s) :
    ∃ t, act s = (.ok a, t) ∧ invariant t := by
  obtain ⟨_, t, run, kept, rfl⟩ := given s kept
  exact ⟨t, run, kept⟩

theorem on_nodes_stays {invariant : Session σ → Prop} {α : Type} {act : StateM Nodes α} {a : α}
    (idle : ∀ nodes, act nodes = (a, nodes)) :
    (logic invariant).gives (onNodes act) (· = a) := by
  intro s kept
  refine ⟨a, s, ?_, kept, rfl⟩
  have steps : onNodes act s = (.ok (act s.nodes).1, { s with nodes := (act s.nodes).2 }) := rfl
  rw [steps, idle]

namespace Passive

variable {undecided : Expr → Prop} {folds : Bool} {invariant : Session σ → Prop}
  (passive : Passive undecided folds invariant) {e : Expr}

include passive

theorem get_stays : (logic invariant).gives (get : Pass σ (Session σ)) fun session =>
    session.options.foldOperands = folds := by
  intro s kept
  exact ⟨s, s, rfl, kept, passive.folds_eq kept⟩

theorem advance_stays (condition : Expr) (before after : Stage) :
    (logic invariant).gives (advance condition before after) fun _ => True := by
  unfold advance
  split
  · exact (logic invariant).pure trivial
  · intro s kept
    exact ⟨(), _, rfl, passive.noted _ kept, trivial⟩

theorem decided_stays (known : undecided e) : (logic invariant).gives (decided? e) (· = none) := by
  intro s kept
  obtain ⟨t, run, kept⟩ := passive.asked known kept
  refine ⟨none, t, ?_, kept, rfl⟩
  unfold decided?
  rw [ExceptT.bind_run_ok run]
  rfl

theorem operand_stays (known : e.IsProvable → undecided e) :
    (logic invariant).gives (operand e) (· = (e, false)) := by
  unfold operand
  by_cases fits : e.IsProvable
  · rw [if_neg fun unfit => not_is_provable_iff.mpr unfit fits]
    apply (logic invariant).bind (passive.decided_stays (known fits))
    rintro _ rfl
    exact (logic invariant).pure rfl
  · rw [if_pos (not_is_provable_iff.mp fits)]
    exact (logic invariant).pure rfl

theorem fold_node_stays (unproven : e.IsUnproven undecided) :
    (logic invariant).gives (foldNode e) (· = e) := by
  cases e with
  | binary id op l r =>
      rw [foldNode]
      cases logical : op.isLogical with
      | false => exact (logic invariant).pure rfl
      | true =>
          obtain ⟨left, right⟩ := unproven id op l r rfl logical
          apply (logic invariant).bind (passive.operand_stays left)
          rintro _ rfl
          apply (logic invariant).bind (passive.operand_stays right)
          rintro _ rfl
          exact (logic invariant).pure rfl
  | _ => exact (logic invariant).pure rfl

/-- What `evaluate` does after it has looked for an integer literal. -/
theorem open_stays (whole : e.IsOpen → undecided e) :
    (logic invariant).gives (do
      if e.asBool.isSome || e.hasCall then return e
      return (← decided? e).getD e) (· = e) := by
  by_cases fits : e.IsOpen
  · rw [if_neg fun unfit => not_is_open_iff.mpr unfit fits]
    apply (logic invariant).bind (passive.decided_stays (whole fits))
    rintro _ rfl
    exact (logic invariant).pure rfl
  · rw [if_pos (not_is_open_iff.mp fits)]
    exact (logic invariant).pure rfl

theorem evaluate_stays (boolean : ∀ nodes, collapse e nodes = ((e, false), nodes))
    (whole : e.IsOpen → undecided e) : (logic invariant).gives (evaluate e) (· = e) := by
  unfold evaluate
  apply (logic invariant).bind (on_nodes_stays boolean)
  rintro _ rfl
  exact passive.open_stays whole

/-- A round on a settled expression returns it. -/
theorem round_stays (condition : Expr) (stage : Stage) (settled : Settled undecided folds e)
    {s : Session σ} (kept : invariant { s with iterations := s.iterations + 1 }) :
    ∃ t, round condition stage e s = (.ok e, t) ∧ invariant t := by
  have reduced : (logic invariant).gives (onNodes e.reduce) (· = e) := by
    unfold Expr.reduce
    rw [on_nodes_bottom_up]
    exact bottom_up_stays _ (fun _ => rfl) fun node inside =>
      on_nodes_stays (settled.idle node inside)
  have unwrapped : (logic invariant).gives (onNodes e.unwrap) (· = e) := by
    apply on_nodes_stays
    intro nodes
    cases e with
    | paren id a => exact absurd rfl (settled.bare id a)
    | _ => rfl
  have finish : (logic invariant).gives (do
      advance condition stage .childrenSimplified
      let evaluated ← evaluate e
      advance condition .childrenSimplified .conditionEvaluated
      return evaluated) (· = e) := by
    apply (logic invariant).bind (passive.advance_stays _ _ _)
    intro _ _
    apply (logic invariant).bind (passive.evaluate_stays settled.boolean settled.whole)
    rintro _ rfl
    apply (logic invariant).bind (passive.advance_stays _ _ _)
    intro _ _
    exact (logic invariant).pure rfl
  rw [round_run]
  refine run_of_gives ?_ kept
  apply (logic invariant).bind reduced
  rintro _ rfl
  apply (logic invariant).bind unwrapped
  rintro _ rfl
  apply (logic invariant).bind passive.get_stays
  intro session same
  dsimp only
  rw [same]
  cases folds with
  | true =>
      apply (logic invariant).bind (bottom_up_stays _ (fun _ => rfl) fun node inside =>
        passive.fold_node_stays (settled.operands rfl node inside))
      rintro _ rfl
      exact finish
  | false =>
      apply (logic invariant).bind ((logic invariant).pure rfl)
      rintro _ rfl
      exact finish

theorem simplify_stays (settled : Settled undecided folds e) {s : Session σ}
    (allowed : s.options.maxIterations.toNat ≠ 0)
    (kept : invariant { s with visited := s.visited + 1, iterations := s.iterations + 1 }) :
    ∃ t, e.simplify s = (.ok e, t) ∧ invariant t := by
  obtain ⟨t, once, kept⟩ := passive.round_stays (s := { s with visited := s.visited + 1 }) e
    .unvisited settled kept
  have run := (Expr.SettlesIn.of_settling (.last once rfl) (Nat.pos_of_ne_zero allowed)).run
  rw [Session.concluded, if_pos rfl] at run
  exact ⟨t, run, kept⟩

end Passive

theorem verdict_of_unknown {s : Session σ} {e : Expr} {prover : Prover σ}
    (run : Prover.verdict e s.prover = (.ok .unknown, prover)) :
    verdict e s = (.ok .unknown, { s with prover }) := by
  have asked : onProver (Prover.verdict e) s = (.ok .unknown, { s with prover }) := by
    show ((Prover.verdict e s.prover).1, { s with prover := (Prover.verdict e s.prover).2 }) = _
    rw [run]
  unfold verdict
  rw [ExceptT.bind_run_ok asked, if_neg (by simp)]
  rfl

end Pass

structure Session.Quiet {σ : Type} (base session : Session σ) : Prop where
  recalls : base.prover.Recalls session.prover
  queries : session.prover.oracle.queries = base.prover.oracle.queries
  failures : session.prover.oracle.failures = base.prover.oracle.failures
  iterations : session.iterations = base.iterations
  options : session.options = base.options

theorem Session.Quiet.passive {σ : Type} (base : Session σ) :
    Pass.Passive base.prover.Undecided base.options.foldOperands base.Quiet where
  noted := fun _ quiet => ⟨quiet.recalls.trans (.of_oracle _), quiet.queries, quiet.failures,
    quiet.iterations, quiet.options⟩
  asked := by
    intro s e undecided quiet
    obtain ⟨prover, run, recalls, queries, failures⟩ :=
      Prover.verdict_of_undecided (undecided.recalled quiet.recalls)
    exact ⟨_, Pass.verdict_of_unknown run, quiet.recalls.trans recalls,
      queries.trans quiet.queries, failures.trans quiet.failures, quiet.iterations, quiet.options⟩
  folds_eq := fun quiet => by rw [quiet.options]

/-- Where only one answer is admitted, what had no verdict has none again. -/
theorem Evidence.IsDetermined.passive {σ : Type} {solver : Solver σ} {evidence : Evidence solver}
    (determined : evidence.IsDetermined) (folds : Bool) :
    Pass.Passive (fun e => evidence.Concludes e .unknown) folds fun session =>
      evidence.Trusts session.prover ∧ session.options.foldOperands = folds where
  noted := fun _ kept => ⟨⟨kept.1.solver, kept.1.entries⟩, kept.2⟩
  asked := by
    intro s e concluded kept
    obtain ⟨verdict, prover, run, trusts, concludes⟩ := Prover.verdict_concludes kept.1 e
    obtain rfl := determined.verdict_eq rfl concluded concludes
    exact ⟨_, Pass.verdict_of_unknown run, trusts, kept.2⟩
  folds_eq := And.right

namespace Expr.Settled

variable {σ : Type} {session : Session σ} {e : Expr}

/-- In the session that settled it, an expression is simplified to itself from the cache. -/
theorem simplify_again
    (settled : Settled session.prover.Undecided session.options.foldOperands e)
    (allowed : session.options.maxIterations.toNat ≠ 0) :
    ∃ final, e.simplify session = (.ok e, final) ∧
      final.iterations = session.iterations + 1 ∧
      final.prover.oracle.queries = session.prover.oracle.queries ∧
      final.prover.oracle.failures = session.prover.oracle.failures := by
  have passive := Session.Quiet.passive
    { session with visited := session.visited + 1, iterations := session.iterations + 1 }
  obtain ⟨final, run, quiet⟩ :=
    passive.simplify_stays settled allowed ⟨.refl _, rfl, rfl, rfl, rfl⟩
  exact ⟨final, run, quiet.iterations, quiet.queries, quiet.failures⟩

/-- Where the answers are determined, any session simplifies it to itself. -/
theorem simplify_anew {solver : Solver σ} {evidence : Evidence solver}
    (determined : evidence.IsDetermined)
    (settled : Settled (fun x => evidence.Concludes x .unknown) session.options.foldOperands e)
    (trusts : evidence.Trusts session.prover)
    (allowed : session.options.maxIterations.toNat ≠ 0) :
    ∃ final, e.simplify session = (.ok e, final) := by
  have passive := determined.passive session.options.foldOperands
  obtain ⟨final, run, _⟩ := passive.simplify_stays settled allowed ⟨trusts, rfl⟩
  exact ⟨final, run⟩

end Expr.Settled

theorem Exhaustive.to_solver_answers (exhaustive : Exhaustive)
    (punctual : ∀ bound number, exhaustive.expired bound number = false) :
    exhaustive.toSolver.Answers fun t => exhaustive.check t .standard := by
  have early (strategy : Strategy) : exhaustive.isLate strategy = fun _ => false := by
    funext number
    unfold isLate
    cases strategy.timeout with
    | none => rfl
    | some bound =>
        dsimp only
        rw [punctual, Bool.and_false]
  intro t strategy memory
  show exhaustive.check t strategy = exhaustive.check t .standard
  rw [check, check, early, early]

/-- For any solver and in a session with any history: where a simplification ends because a
round changes nothing, its result is simplified to itself. In the same session, whatever
has been done meanwhile and under the same options, this takes one round, in which no query
is put to the solver and no condition fails to have a term. In a new session it is so for
every solver whose answers depend on the term alone. The ids of the condition's nodes stand
for one content each and were given out before. -/
theorem Expr.simplify_idempotent {σ : Type} (solver : Solver σ) (memory : σ) (nodes : Nodes)
    (options : Options) (operations : List Operation) (condition : Expr)
    (identified : Identified [condition])
    (made : ∀ node ∈ condition.nodes,
      node.id < ((Session.start solver memory nodes options).after operations).nodes.next)
    (settles : condition.settles ((Session.start solver memory nodes options).after operations)
      = true) :
    let session := (Session.start solver memory nodes options).after operations
    ∃ result after, condition.simplify session = (.ok result, after) ∧
      after.options = session.options ∧
      (∀ more, (after.after more).options = session.options →
        ∃ final, result.simplify (after.after more) = (.ok result, final) ∧
          final.iterations = (after.after more).iterations + 1 ∧
          final.prover.oracle.queries = (after.after more).prover.oracle.queries ∧
          final.prover.oracle.failures = (after.after more).prover.oracle.failures) ∧
      ∀ answer, solver.Answers answer → ∀ memory' nodes', ∃ final,
        result.simplify (Session.start solver memory' nodes' session.options)
          = (.ok result, final) := by
  intro session
  have sequenced : session.prover.Sequenced :=
    Session.after_sequenced solver memory nodes options operations
  obtain ⟨result, after, run, sequenced'⟩ := condition.simplify_succeeds sequenced
  have same : after.options = session.options := (Renews.transition.simplify run).2
  obtain ⟨settled, allowed⟩ :=
    Pass.settled_of_simplify ⟨identified, by simpa using made⟩ sequenced settles run
  refine ⟨result, after, run, same, ?_, ?_⟩
  · intro more unchanged
    rw [← unchanged] at settled allowed
    refine Settled.simplify_again (settled.mono ?_) allowed
    intro x undecided
    exact undecided.recalled (Session.after_recalls sequenced' more)
  · intro answer answers memory' nodes'
    have trusts : (Evidence.ofAnswers answers).Trusts session.prover :=
      ((Evidence.ofAnswers answers).trusts_start memory nodes options).after_operations operations
    have trusts' : (Evidence.ofAnswers answers).Trusts after.prover := by
      have kept := Guarantee.after_act (Expr.simplify_gives condition) trusts
      rwa [run] at kept
    refine Settled.simplify_anew (Evidence.of_answers_is_determined answers) (settled.mono ?_)
      ((Evidence.ofAnswers answers).trusts_start memory' nodes' session.options) allowed
    intro x undecided
    exact Evidence.concludes_of_undecided trusts' undecided

/-- `f() && !!x` becomes `f() && x != 0`, about which enumeration finds nothing, now or later. -/
theorem Expr.simplify_idempotent_with_call :
    let solver : Solver Unit := (⟨8, fun _ _ => false⟩ : Exhaustive).toSolver
    let x : Expr := .var 1 ⟨"x", .int 8 false⟩
    let condition : Expr :=
      .binary 4 .land (.call 0 "f" .bool []) (.unary 3 .lnot (.unary 2 .lnot x))
    let session := (Session.start solver () ⟨2, {}⟩ {}).after [.condition x, .supply ⟨5, {}⟩]
    Identified [condition] ∧ (∀ node ∈ condition.nodes, node.id < session.nodes.next) ∧
    condition.settles session = true ∧
    ∃ result after, condition.simplify session = (.ok result, after) ∧
      (∃ final, result.simplify after = (.ok result, final) ∧
        final.prover.oracle.queries = after.prover.oracle.queries) ∧
      ∃ final, result.simplify (Session.start solver () ⟨9, {}⟩ session.options)
        = (.ok result, final) := by
  intro solver x condition session
  have identified : Identified [condition] := by
    simp [Identified, condition, x, nodesOf, nodes, Expr.id, anonymous]
  have made : ∀ node ∈ condition.nodes, node.id < 5 := by
    simp [condition, x, nodesOf, nodes, Expr.id]
  have settles : condition.settles session = true := by decide +kernel
  obtain ⟨result, after, run, same, again, anew⟩ := Expr.simplify_idempotent solver () ⟨2, {}⟩ {}
    [.condition x, .supply ⟨5, {}⟩] condition identified made settles
  refine ⟨identified, made, settles, result, after, run, ?_, ?_⟩
  · obtain ⟨final, run, _, queries, _⟩ := again [] same
    exact ⟨final, run, queries⟩
  · exact anew _ (Exhaustive.to_solver_answers _ fun _ _ => rfl) () ⟨9, {}⟩

end Condense
