import Condense.Proofs.Evolution

/-!
# How a simplification ends

The rounds of a simplification end because one of them returns the id it was given, or because
they run out. In the first case the simplification settles: it is a number of rounds, each but
the last with another id than the one before, and what is done once about the result of the last.
Each round counts itself and nothing else does, so the session tells how many there were.
-/

namespace Condense

set_option autoImplicit false

/-- The session once the rounds of a simplification have settled: a result with another id takes
over the origins of the condition, is counted and is noted. -/
def Session.concluded {σ : Type} (s : Session σ) (condition result : Expr) : Session σ :=
  if result.id = condition.id then s
  else
    { s.told (.replaced condition result :: .moved condition .conditionEvaluated .settled
        :: s.prover.oracle.journal) with
      nodes := (Nodes.inherit result.id condition.id s.nodes).2
      changed := s.changed + 1 }

namespace Session

variable {σ : Type} (s : Session σ) (condition result : Expr)

theorem concluded_iterations : (s.concluded condition result).iterations = s.iterations := by
  unfold concluded
  split <;> rfl

theorem concluded_nodes : (s.concluded condition result).nodes
    = (Nodes.inherit result.id condition.id s.nodes).2 := by
  unfold concluded
  split
  case isTrue same => exact (Nodes.inherit_of_eq same s.nodes).symm
  case isFalse => rfl

end Session

namespace Pass

variable {σ : Type}

/-- Rounds one after the other, `count` of them, of which the last and no other returns the id it
was given. -/
inductive Settling (condition : Expr) :
    Nat → Stage → Session σ → Expr → Session σ → Expr → Prop where
  | last {stage : Stage} {s t : Session σ} {e r : Expr}
      (run : round condition stage e s = (.ok r, t)) (same : r.id = e.id) :
      Settling condition 1 stage s e t r
  | next {count : Nat} {stage : Stage} {s u t : Session σ} {e e' r : Expr}
      (run : round condition stage e s = (.ok e', u)) (moved : e'.id ≠ e.id)
      (rest : Settling condition count .conditionEvaluated u e' t r) :
      Settling condition (count + 1) stage s e t r

variable {condition e r : Expr} {stage stage' : Stage} {limit count : Nat} {s t : Session σ}

theorem settling_of_rounds
    (run : rounds condition stage e limit s = (.ok (r, stage', true), t)) :
    ∃ count ≤ limit, Settling condition count stage s e t r := by
  induction limit generalizing stage e s with
  | zero =>
      have flags := (pure_eq_ok run).1
      cases flags
  | succ limit ih =>
      rcases rounds_eq_ok run with ⟨e', u, once, ⟨same, rfl, _, rfl⟩ | ⟨moved, more⟩⟩
      · exact ⟨1, Nat.le_add_left 1 limit, .last once same⟩
      · rcases ih more with ⟨count, enough, settling⟩
        exact ⟨count + 1, Nat.succ_le_succ enough, .next once moved settling⟩

theorem Settling.rounds (settling : Settling condition count stage s e t r)
    (enough : count ≤ limit) :
    Pass.rounds condition stage e limit s = (.ok (r, .conditionEvaluated, true), t) := by
  induction settling generalizing limit with
  | last run same =>
      rcases Nat.exists_eq_add_of_le' enough with ⟨limit, rfl⟩
      rw [Pass.rounds, ExceptT.bind_run_ok run, if_pos same]
      rfl
  | next run moved rest ih =>
      rcases Nat.exists_eq_add_of_le' enough with ⟨limit, rfl⟩
      rw [← Nat.add_assoc, Pass.rounds, ExceptT.bind_run_ok run, if_neg moved]
      exact ih (Nat.le_add_left _ _)

theorem round_iterations (run : round condition stage e s = (.ok r, t)) :
    t.iterations = s.iterations + 1 :=
  (Course.of_view Session.iterations fun _ _ _ => rfl).round run

theorem Settling.iterations (settling : Settling condition count stage s e t r) :
    t.iterations = s.iterations + count := by
  induction settling with
  | last run same => exact round_iterations run
  | next run moved rest ih =>
      rw [ih, round_iterations run]
      omega

theorem simplify_of_rounds
    (run : rounds condition .unvisited condition s.options.maxIterations.toNat
      { s with visited := s.visited + 1 } = (.ok (r, .conditionEvaluated, true), t)) :
    condition.simplify s = (.ok r, t.concluded condition r) := by
  rw [simplify_run, ExceptT.bind_run_ok run]
  unfold Session.concluded
  dsimp only
  rw [if_neg (by decide)]
  by_cases same : r.id = condition.id
  · rw [if_neg (not_not.mpr same), if_pos same]
    rfl
  · rw [if_pos same, if_neg same]
    rfl

end Pass

/-- A simplification that settles in the `count`th round, one of those that are allowed. -/
structure Expr.SettlesIn {σ : Type} (condition : Expr) (count : Nat) (before : Session σ)
    (result : Expr) (after : Session σ) : Prop where
  allowed : count ≤ before.options.maxIterations.toNat
  run : condition.simplify before = (.ok result, after)
  rounds : ∃ last, Pass.Settling condition count .unvisited
      { before with visited := before.visited + 1 } condition last result ∧
    after = last.concluded condition result
  iterations : after.iterations = before.iterations + count

namespace Expr

variable {σ : Type} {condition r : Expr} {count : Nat} {s t last : Session σ}

/-- Rounds that settle within the limit are those of the simplification. -/
theorem SettlesIn.of_settling
    (settling : Pass.Settling condition count .unvisited { s with visited := s.visited + 1 }
      condition last r)
    (allowed : count ≤ s.options.maxIterations.toNat) :
    condition.SettlesIn count s r (last.concluded condition r) where
  allowed := allowed
  run := Pass.simplify_of_rounds (settling.rounds allowed)
  rounds := ⟨last, settling, rfl⟩
  iterations := (last.concluded_iterations condition r).trans settling.iterations

/-- A run ends by itself, and not by the limit, exactly if it settles. -/
theorem settles_iff_settles_in (run : condition.simplify s = (.ok r, t)) :
    condition.settles s = true ↔ ∃ count, condition.SettlesIn count s r t := by
  constructor
  · intro settles
    rcases Pass.simplify_ends run with ⟨stage, last, journal, rounds, _⟩
    rw [settles] at rounds
    rcases Pass.settling_of_rounds rounds with ⟨count, allowed, settling⟩
    have settled := SettlesIn.of_settling settling allowed
    have same := run.symm.trans settled.run
    rw [(Prod.mk.inj same).2]
    exact ⟨count, settled⟩
  · rintro ⟨count, settled⟩
    rcases settled.rounds with ⟨last, settling, _⟩
    unfold settles
    rw [settling.rounds settled.allowed]

end Expr

end Condense
