import Condense.Cache
import Condense.Proofs.Encoding.Evaluation

/-!
# Answers of the oracle

What the oracle answers, as a function of the solver's reply: a question is answered with
yes exactly when the condition has a term and the solver finds the term to refute
unsatisfiable. Asking changes the solver's memory, the counters and the journal, and
neither the solver nor the strategy.
-/

namespace Condense

set_option autoImplicit false

theorem StateM.bind_run {σ α β : Type} (act : StateM σ α) (next : α → StateM σ β) (state : σ) :
    (act >>= next) state = next (act state).1 (act state).2 := rfl

def Reply.refutes (reply : Reply) : Bool :=
  match reply.result with
  | .ok .unsat => true
  | _ => false

theorem Reply.refutes_iff {reply : Reply} :
    reply.refutes = true ↔ reply.result = .ok .unsat := by
  unfold Reply.refutes
  split
  · next unsat => simp [unsat]
  · next other =>
      constructor
      · intro impossible
        cases impossible
      · intro unsat
        exact absurd unsat (by simpa using other)

/-- The model gives every free constant a value of its sort. -/
def Model.Fits (model : Model) (t : Term) : Prop :=
  ∀ constant ∈ t.constants, ∃ bits : BitVec constant.2.bits,
    model constant.1 = some (constant.2.value bits.toNat)

def Term.IsRefuted (t : Term) : Prop :=
  ∀ model : Model, model.Fits t → t.eval model ≠ .ok (.bool true)

/-- The solver calls only refuted terms unsatisfiable. Nothing is asked of its other
answers, and it may remember, fail or give up. -/
def Solver.IsSound {σ : Type} (solver : Solver σ) : Prop :=
  ∀ t strategy memory, (solver.check t strategy memory).1.result = .ok .unsat → t.IsRefuted

/-- What is refuted to prove one of the two opposite facts about a condition's term. -/
def Polarity.target : Polarity → Term → Term
  | positive, t => .not t
  | negative, t => t

def Polarity.claim : Polarity → Claim
  | positive => .truth
  | negative => .falsity

def Polarity.truth : Polarity → Bool
  | positive => true
  | negative => false

theorem Polarity.eval_target {model : Model} {t : Term} {holds : Bool} (polarity : Polarity)
    (known : t.eval model = .ok (.bool holds)) :
    (polarity.target t).eval model = .ok (.bool (holds != polarity.truth)) := by
  cases polarity with
  | positive =>
      rw [Polarity.target, Term.eval_not known, Polarity.truth, Bool.bne_true]
  | negative => rw [Polarity.target, known, Polarity.truth, Bool.bne_false]

namespace Oracle

variable {σ : Type}

def answer (oracle : Oracle σ) (polarity : Polarity) (e : Expr) : Bool :=
  match e.encode with
  | .ok t => (oracle.solver.check (polarity.target t) oracle.strategy oracle.memory).1.refutes
  | .error _ => false

/-- Nothing that later answers depend on has changed, the solver's memory apart. -/
structure Kept (before after : Oracle σ) : Prop where
  solver : after.solver = before.solver
  strategy : after.strategy = before.strategy

namespace Kept

theorem trans {first second third : Oracle σ} (before : Kept first second)
    (after : Kept second third) : Kept first third :=
  ⟨after.solver.trans before.solver, after.strategy.trans before.strategy⟩

end Kept

theorem kept_note (event : Event) (oracle : Oracle σ) : Kept oracle (note event oracle).2 :=
  ⟨rfl, rfl⟩

theorem encode_run (e : Expr) (oracle : Oracle σ) :
    (encode e oracle).1 = e.encode.toOption ∧ Kept oracle (encode e oracle).2 ∧
      (encode e oracle).2.memory = oracle.memory := by
  unfold encode
  cases e.encode with
  | ok t => exact ⟨rfl, ⟨rfl, rfl⟩, rfl⟩
  | error unsupported => exact ⟨rfl, ⟨rfl, rfl⟩, rfl⟩

theorem refutes_run (t : Term) (e : Expr) (claim : Claim) (oracle : Oracle σ) :
    (refutes t e claim oracle).1
        = (oracle.solver.check t oracle.strategy oracle.memory).1.refutes ∧
      Kept oracle (refutes t e claim oracle).2 := by
  have result : (ask t oracle).1
      = (oracle.solver.check t oracle.strategy oracle.memory).1.result := rfl
  have kept : Kept oracle (ask t oracle).2 := ⟨rfl, rfl⟩
  unfold Reply.refutes refutes
  rw [← result, StateM.bind_run]
  cases (ask t oracle).1 with
  | ok outcome => cases outcome <;> exact ⟨rfl, kept.trans (kept_note _ _)⟩
  | error fault => cases fault <;> exact ⟨rfl, kept.trans (kept_note _ _)⟩

theorem query_eq (polarity : Polarity) (e : Expr) :
    (query polarity e : StateM (Oracle σ) Bool) = encode e >>= fun term? =>
      match term? with
      | some t => refutes (polarity.target t) e polarity.claim
      | none => pure false := by
  cases polarity <;> rfl

theorem query_run (polarity : Polarity) (e : Expr) (oracle : Oracle σ) :
    (query polarity e oracle).1 = oracle.answer polarity e ∧
      Kept oracle (query polarity e oracle).2 := by
  obtain ⟨term, kept, memory⟩ := encode_run e oracle
  rw [query_eq, StateM.bind_run, term, answer]
  cases e.encode with
  | error unsupported => exact ⟨rfl, kept⟩
  | ok t =>
      have result := refutes_run (polarity.target t) e polarity.claim (encode e oracle).2
      rw [kept.solver, kept.strategy, memory] at result
      exact ⟨result.1, kept.trans result.2⟩

theorem verdict_eq (e : Expr) :
    (verdict e : StateM (Oracle σ) Verdict) = query .positive e >>= fun holds =>
      if holds then pure .isTrue
      else query .negative e >>= fun fails => if fails then pure .isFalse else pure .unknown :=
  rfl

/-- The verdict asks for truth first, and for falsity only when truth is not proven. -/
theorem verdict_run (e : Expr) (oracle : Oracle σ) :
    ∃ middle, Kept oracle middle ∧
      (verdict e oracle).1 = if oracle.answer .positive e then .isTrue
        else if middle.answer .negative e then .isFalse else .unknown := by
  obtain ⟨positive, kept⟩ := query_run .positive e oracle
  refine ⟨(query .positive e oracle).2, kept, ?_⟩
  rw [verdict_eq, StateM.bind_run, positive]
  cases oracle.answer .positive e with
  | true => rfl
  | false =>
      have negative := (query_run .negative e (query .positive e oracle).2).1
      rw [if_neg (by decide), if_neg (by decide), StateM.bind_run, negative]
      cases (query .positive e oracle).2.answer .negative e <;> rfl

/-- Two conditions are proven to agree when both have terms and the solver finds no model
that tells the terms apart. -/
theorem prove_equivalent_run (lhs rhs : Expr) (oracle : Oracle σ) :
    (proveEquivalent lhs rhs oracle).1 = true ↔
      ∃ l r, lhs.encode = .ok l ∧ rhs.encode = .ok r ∧
        (oracle.solver.check (.not (.eq l r)) oracle.strategy oracle.memory).1.result
          = .ok .unsat := by
  obtain ⟨left, kept, memory⟩ := encode_run lhs oracle
  obtain ⟨right, kept', memory'⟩ := encode_run rhs (encode lhs oracle).2
  unfold proveEquivalent
  rw [StateM.bind_run, StateM.bind_run, left, right]
  cases lhs.encode with
  | error unsupported =>
      apply iff_of_false Bool.false_ne_true
      rintro ⟨_, _, impossible, _⟩
      cases impossible
  | ok l =>
      cases rhs.encode with
      | error unsupported =>
          apply iff_of_false Bool.false_ne_true
          rintro ⟨_, _, _, impossible, _⟩
          cases impossible
      | ok r =>
          have result := (refutes_run (.not (.eq l r)) lhs .equivalence
            (encode rhs (encode lhs oracle).2).2).1
          rw [(kept.trans kept').solver, (kept.trans kept').strategy, memory', memory] at result
          simp [Except.toOption, result, Reply.refutes_iff]

end Oracle

end Condense
