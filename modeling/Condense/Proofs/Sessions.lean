import Condense.Pass.Walk
import Condense.Proofs.Enumeration
import Condense.Proofs.Soundness

/-!
# Sessions and their history

Everything that can be asked of a simplifier is an operation, and a session is what a
sequence of operations leaves behind. Whatever the sequence, a guarantee that a new session
has is kept: the cache stays supported by the evidence that the solver's answers are, so
simplification is as sound in a long session as in a new one.
-/

namespace Condense

set_option autoImplicit false

/-- What can be asked of a simplifier between one condition and the next. -/
inductive Operation where
  | condition (e : Expr)
  | control (wanted : Control) (s : Statement)
  | statement (s : Statement)
  | routine (r : Routine)
  | program (p : Program)
  /-- A question put to the oracle past the cache. -/
  | query (polarity : Polarity) (e : Expr)
  | follow (strategy : Strategy)
  /-- Nodes are made and origins recorded by others. -/
  | supply (nodes : Nodes)

variable {σ : Type}

def Operation.run (session : Session σ) : Operation → Session σ
  | condition e => ((e.simplify : Pass σ Expr) session).2
  | control wanted s => ((s.simplifyControl wanted : Pass σ (Statement × Bool)) session).2
  | statement s => ((s.simplify : Pass σ (Statement × Bool)) session).2
  | routine r => ((r.simplify : Pass σ (Routine × Bool)) session).2
  | program p => ((p.simplify : Pass σ (Program × Bool)) session).2
  | query polarity e =>
      { session with
        prover := (Prover.consult (Oracle.query polarity e) session.prover).2 }
  | follow strategy => session.setStrategy strategy
  | supply nodes => { session with nodes }

def Session.after (session : Session σ) (operations : List Operation) : Session σ :=
  operations.foldl Operation.run session

variable {guarantee : Guarantee σ}

section Walk

theorem Statement.exists_condition {s : Statement} {wanted : Control}
    (control : s.control? = some wanted) : ∃ c, s.condition? = some c := by
  cases s with
  | ifThen c _ => exact ⟨c, rfl⟩
  | ifElse c _ _ => exact ⟨c, rfl⟩
  | whileDo c _ => exact ⟨c, rfl⟩
  | doWhile _ c => exact ⟨c, rfl⟩
  | _ => cases control

theorem Statement.simplify_control_gives {s : Statement} {wanted : Control}
    (control : s.control? = some wanted) :
    guarantee.logic.gives (s.simplifyControl wanted) fun _ => True := by
  rcases exists_condition control with ⟨c, own⟩
  rw [simplifyControl, if_pos control, simplifyCondition, own]
  apply guarantee.logic.bind (Pass.simplify_gives c)
  intro result _
  split
  · exact guarantee.logic.pure trivial
  · exact guarantee.logic.pure trivial

theorem Statement.simplify_body_gives {s body : Statement} {wanted : Control}
    (control : s.control? = some wanted)
    (inner : guarantee.logic.gives body.simplify fun _ => True) :
    guarantee.logic.gives (do
      let (own, changed) ← s.simplifyControl wanted
      let (body, bodyChanged) ← body.simplify
      return (own.setBodies [body], changed || bodyChanged)) fun _ => True := by
  apply guarantee.logic.bind (simplify_control_gives control)
  intro _ _
  apply guarantee.logic.bind inner
  intro _ _
  exact guarantee.logic.pure trivial

mutual

theorem Statement.simplify_gives :
    (s : Statement) → guarantee.logic.gives s.simplify fun _ => True
  | .block body => by
      rw [Statement.simplify]
      apply guarantee.logic.bind (Statement.simplify_all_gives body)
      intro _ _
      exact guarantee.logic.pure trivial
  | .ifThen c yes => by
      rw [Statement.simplify]
      exact Statement.simplify_body_gives rfl (Statement.simplify_gives yes)
  | .ifElse c yes no => by
      rw [Statement.simplify]
      apply guarantee.logic.bind (Statement.simplify_control_gives rfl)
      intro _ _
      apply guarantee.logic.bind (Statement.simplify_gives yes)
      intro _ _
      apply guarantee.logic.bind (Statement.simplify_gives no)
      intro _ _
      exact guarantee.logic.pure trivial
  | .whileDo c body => by
      rw [Statement.simplify]
      exact Statement.simplify_body_gives rfl (Statement.simplify_gives body)
  | .doWhile body c => by
      rw [Statement.simplify]
      exact Statement.simplify_body_gives rfl (Statement.simplify_gives body)
  | .eval e => guarantee.logic.pure trivial
  | .ret e => guarantee.logic.pure trivial
  | .breakLoop => guarantee.logic.pure trivial
  | .continueLoop => guarantee.logic.pure trivial

theorem Statement.simplify_all_gives :
    (body : List Statement) → guarantee.logic.gives (Statement.simplifyAll body) fun _ => True
  | [] => guarantee.logic.pure trivial
  | s :: rest => by
      rw [Statement.simplifyAll]
      apply guarantee.logic.bind (Statement.simplify_gives s)
      intro _ _
      apply guarantee.logic.bind (Statement.simplify_all_gives rest)
      intro _ _
      exact guarantee.logic.pure trivial

end

theorem Routine.simplify_gives (r : Routine) :
    guarantee.logic.gives r.simplify fun _ => True := by
  unfold simplify
  apply guarantee.logic.bind r.body.simplify_gives
  intro _ _
  apply guarantee.logic.bind (Pass.note_gives _)
  intro _ _
  exact guarantee.logic.pure trivial

theorem Routine.simplify_all_gives (routines : List Routine) :
    guarantee.logic.gives (Routine.simplifyAll routines) fun _ => True := by
  induction routines with
  | nil => exact guarantee.logic.pure trivial
  | cons r rest ih =>
      rw [simplifyAll]
      apply guarantee.logic.bind r.simplify_gives
      intro _ _
      apply guarantee.logic.bind ih
      intro _ _
      exact guarantee.logic.pure trivial

theorem Program.simplify_gives (p : Program) :
    guarantee.logic.gives p.simplify fun _ => True := by
  unfold simplify
  apply guarantee.logic.bind (Routine.simplify_all_gives p.routines)
  intro _ _
  exact guarantee.logic.pure trivial

end Walk

namespace Guarantee

variable {session : Session σ}

theorem after_act {α : Type} {act : Pass σ α} {property : α → Prop}
    (given : guarantee.logic.gives act property) (holds : guarantee.holds session.prover) :
    guarantee.holds (act session).2.prover := by
  obtain ⟨a, after, run, kept, _⟩ := given session holds
  rw [run]
  exact kept

theorem after_operation (holds : guarantee.holds session.prover) (operation : Operation) :
    guarantee.holds (operation.run session).prover := by
  cases operation with
  | condition e => exact after_act (Pass.simplify_gives e) holds
  | control wanted s =>
      by_cases control : s.control? = some wanted
      · exact after_act (Statement.simplify_control_gives control) holds
      · rw [Operation.run, Statement.simplifyControl, if_neg control]
        exact holds
  | statement s => exact after_act s.simplify_gives holds
  | routine r => exact after_act r.simplify_gives holds
  | program p => exact after_act p.simplify_gives holds
  | query polarity e =>
      exact guarantee.consulted (Oracle.query_run polarity e session.prover.oracle).2.solver holds
  | follow strategy => exact guarantee.consulted rfl holds
  | supply nodes => exact holds

theorem after_operations (guarantee : Guarantee σ) (holds : guarantee.holds session.prover)
    (operations : List Operation) :
    guarantee.holds (session.after operations).prover := by
  induction operations generalizing session with
  | nil => exact holds
  | cons operation rest ih => exact ih (after_operation holds operation)

end Guarantee

variable {solver : Solver σ} {evidence : Evidence solver}

theorem Evidence.Trusts.after_operations {session : Session σ}
    (trusts : evidence.Trusts session.prover) (operations : List Operation) :
    evidence.Trusts (session.after operations).prover :=
  evidence.guarantee.after_operations trusts operations

theorem Evidence.trusts_start (evidence : Evidence solver) (memory : σ) (nodes : Nodes)
    (options : Options) :
    evidence.Trusts (Session.start solver memory nodes options).prover := by
  refine ⟨rfl, ?_⟩
  intro polarity entry member
  cases polarity <;> cases member

/-- In a session with any history, over a sound solver, simplification succeeds. Wherever
the condition has a result, the simplified condition has one with the same truth value and
the same effects. -/
theorem Expr.simplify_sound (solver : Solver σ) (sound : solver.IsSound) (memory : σ)
    (nodes : Nodes) (options : Options) (operations : List Operation) (condition : Expr)
    (masked : condition.IsMasked) :
    ∃ result after,
      condition.simplify ((Session.start solver memory nodes options).after operations)
        = (.ok result, after) ∧
      ∀ calls store pattern store',
        condition.run calls store = some (pattern, store') →
        ∃ pattern', result.run calls store = some (pattern', store') ∧
          Meaning.holds pattern' = Meaning.holds pattern := by
  have trusts := ((Evidence.ofSound sound).trusts_start memory nodes options).after_operations
    operations
  obtain ⟨result, after, run, _, condensed⟩ := condition.simplify_gives _ trusts
  exact ⟨result, after, run, (condensed (Evidence.of_sound_is_truthful sound) masked).2⟩

/-- The call in `f() || x <= 255` stays, although a byte is never above 255. -/
theorem Expr.simplify_sound_with_call :
    let byte : Expr := .var 1 ⟨"x", .int 8 false⟩
    let bounded : Expr := .binary 3 .le byte (.lit 2 ⟨255, .int 8 false⟩)
    let condition : Expr := .binary 4 .lor (.call 0 "f" .bool []) bounded
    let solver : Solver Unit := (⟨8, fun bound _ => bound == 0⟩ : Exhaustive).toSolver
    condition.IsMasked ∧
    ∃ result after,
      condition.simplify ((Session.start solver () ⟨5, {}⟩ {}).after [.condition bounded])
        = (.ok result, after) ∧
      ∀ calls store, ∃ pattern store', result.run calls store = some (pattern, store') ∧
        store' = (calls "f" .bool [] store).2 ∧ Meaning.holds pattern = true := by
  intro byte bounded condition solver
  have masked : condition.IsMasked := by
    refine Expr.is_masked_binary.mpr ⟨Expr.is_masked_call.mpr (by simp), ?_⟩
    refine Expr.is_masked_binary.mpr ⟨by simp [Expr.IsMasked, byte, Expr.nodes], ?_⟩
    exact Expr.is_masked_lit.mpr fun _ => by decide
  refine ⟨masked, ?_⟩
  obtain ⟨result, after, run, same⟩ := Expr.simplify_sound solver
    (Exhaustive.to_solver_is_sound _) () ⟨5, {}⟩ {} [.condition bounded] condition masked
  refine ⟨result, after, run, ?_⟩
  intro calls store
  have always (store : Store) : bounded.run calls store = some (1, store) := by
    have small : (store "x" (.bitVec 8)).toNat < 256 := (store "x" (.bitVec 8)).isLt
    have value : bounded.run calls store
        = some ((decide (((store "x" (.bitVec 8)).toNat : Int) ≤ 255)).toNat, store) := rfl
    rw [value, decide_eq_true (by omega)]
    rfl
  have evaluated : condition.run calls store = some (1, (calls "f" .bool [] store).2) := by
    refine Expr.run_binary.mpr ⟨_, _, rfl, ?_⟩
    cases holds : Meaning.holds (calls "f" .bool [] store).1.toNat with
    | true => exact .inl ⟨holds, rfl, rfl⟩
    | false =>
        refine .inr ⟨holds, 1, always _, rfl, ?_⟩
        rw [Meaning.binary, holds]
        rfl
  obtain ⟨pattern, known, truth⟩ := same calls store _ _ evaluated
  exact ⟨pattern, _, known, rfl, truth⟩

end Condense
