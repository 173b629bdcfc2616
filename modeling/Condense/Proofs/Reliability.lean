import Condense.Proofs.Consistency
import Condense.Proofs.Sessions

/-!
# Reliability of the pass

The pass asks the cache for verdicts and for nothing else, and a verdict asks about falsity
only once truth is kept as not proven. A class with an answer about falsity therefore has
one about truth, so that no lookup of the pass can come to a conflict, whatever the solver
answers. Nothing is asked of the ids here: where one id stands for several contents the
digests may be wrong, but an entry is still found under the digest it was filed with.
-/

namespace Condense

set_option autoImplicit false

namespace Prover

variable {σ : Type} {prover : Prover σ} {polarity : Polarity} {e : Expr}

theorem kept_ne_none (filed : prover.Filed) {entry : Entry}
    (member : entry ∈ prover.cache.entries polarity)
    (same : entry.digest = (digest e prover).1)
    (equivalent : entry.representative.isEquiv e = true) : prover.kept? polarity e ≠ none := by
  intro unasked
  rw [kept_eq_find filed, Option.map_eq_none_iff, List.find?_eq_none] at unasked
  exact unasked entry member (by simp [same, equivalent])

theorem kept_of_lookup (filed : prover.Filed) {after : Prover σ} {proven : Bool}
    (run : lookup polarity e prover = (.ok proven, after)) :
    after.kept? polarity e = some proven := by
  have filed' := lookup_filed filed polarity e
  obtain ⟨result, after', run', looked, memo, _⟩ := lookup_cases prover polarity e
  rw [run] at run' filed'
  obtain ⟨rfl, rfl⟩ := Prod.mk.inj run'
  have known : after.memo.get? e.id = some (digest e prover).1 := by
    rw [memo]
    exact Memo.get_digest e prover.memo
  have again : (digest e after).1 = (digest e prover).1 := by
    show (Memo.digest e after.memo).1 = _
    rw [Memo.digest_known known]
  rw [kept_eq_find filed', again]
  cases looked with
  | hit recalled cache => rw [cache, entries_hit, ← kept_eq_find filed, recalled]
  | miss _ _ cache =>
      rw [cache, entries_insert, if_pos rfl, List.find?_cons_of_pos]
      · rfl
      · simp [Expr.is_equiv_refl]

/-- Whatever has an answer about falsity was asked about truth before. -/
structure Sequenced (prover : Prover σ) : Prop where
  filed : prover.Filed
  preceded : ∀ entry ∈ prover.cache.entries .negative,
    ∃ earlier ∈ prover.cache.entries .positive,
      earlier.digest = entry.digest ∧
        earlier.representative.isEquiv entry.representative = true

/-- Truth can be asked about at any time, falsity once truth is known not to be proven. -/
theorem lookup_sequenced (sequenced : prover.Sequenced) (polarity : Polarity) (e : Expr)
    (prior : polarity = .negative → prover.kept? .positive e = some false) :
    ∃ proven after, lookup polarity e prover = (.ok proven, after) ∧ after.Sequenced := by
  have filed := lookup_filed sequenced.filed polarity e
  obtain ⟨result, after, run, looked, _⟩ := lookup_cases prover polarity e
  rw [run] at filed
  have kept : after.Sequenced := by
    refine ⟨filed, ?_⟩
    intro entry member
    rcases looked.mem_entries member with old | ⟨negative, _, _, rfl⟩
    · obtain ⟨earlier, asked, same⟩ := sequenced.preceded entry old
      exact ⟨earlier, looked.subset .positive asked, same⟩
    · obtain ⟨earlier, asked, same, equivalent, _⟩ := find_some (prior negative.symm)
      exact ⟨earlier, looked.subset .positive asked, same, equivalent⟩
  cases looked with
  | hit _ _ => exact ⟨_, after, run, kept⟩
  | conflict unasked _ opposed _ =>
      cases polarity with
      | positive =>
          -- The answer about falsity came after one about truth, which would have been found.
          obtain ⟨entry, member, same, equivalent, _⟩ := find_some opposed
          obtain ⟨earlier, asked, same', equivalent'⟩ := sequenced.preceded entry member
          exact absurd unasked (kept_ne_none sequenced.filed asked (same'.trans same)
            (Expr.is_equiv_trans equivalent' equivalent))
      | negative =>
          have both : some true = some false := opposed.symm.trans (prior rfl)
          cases both
  | miss _ _ _ => exact ⟨_, after, run, kept⟩

theorem verdict_sequenced (sequenced : prover.Sequenced) (e : Expr) :
    ∃ result after, verdict e prover = (.ok result, after) ∧ after.Sequenced := by
  obtain ⟨holds, middle, run, asked⟩ := lookup_sequenced sequenced .positive e (by simp)
  cases holds with
  | true => exact ⟨.isTrue, middle, verdict_of_true run, asked⟩
  | false =>
      obtain ⟨fails, after, run', kept⟩ := lookup_sequenced asked .negative e
        fun _ => kept_of_lookup sequenced.filed run
      exact ⟨_, after, verdict_of_false run run', kept⟩

end Prover

section Sessions

variable {σ : Type}

def Guarantee.sequenced : Guarantee σ where
  holds := Prover.Sequenced
  concludes _ _ := True
  consulted := fun _ sequenced => ⟨sequenced.filed, sequenced.preceded⟩
  decides := by
    intro prover e sequenced
    obtain ⟨result, after, run, kept⟩ := Prover.verdict_sequenced sequenced e
    exact ⟨result, after, run, kept, trivial⟩

theorem Prover.start_sequenced (oracle : Oracle σ) : Sequenced { oracle } :=
  ⟨start_filed oracle, by simp⟩

theorem Session.after_sequenced (solver : Solver σ) (memory : σ) (nodes : Nodes)
    (options : Options) (operations : List Operation) :
    ((Session.start solver memory nodes options).after operations).prover.Sequenced := by
  apply Guarantee.sequenced.after_operations
  exact Prover.start_sequenced _

theorem Expr.simplify_succeeds {session : Session σ} (sequenced : session.prover.Sequenced)
    (condition : Expr) :
    ∃ result after, condition.simplify session = (.ok result, after) ∧
      after.prover.Sequenced := by
  have given : Guarantee.sequenced.logic.gives (condition.simplify : Pass σ Expr) _ :=
    Pass.simplify_gives condition
  obtain ⟨result, after, run, kept, _⟩ := given session sequenced
  exact ⟨result, after, run, kept⟩

/-- For any solver and in a session with any history, nothing fails but to ask for a
control statement of one kind where there is a statement of another; and that changes
nothing. -/
theorem Session.never_fails (solver : Solver σ) (memory : σ) (nodes : Nodes) (options : Options)
    (operations : List Operation) :
    let session := (Session.start solver memory nodes options).after operations
    (∀ e : Expr, ∃ result after, e.simplify session = (.ok result, after)) ∧
    (∀ s : Statement, ∃ result after, s.simplify session = (.ok result, after)) ∧
    (∀ r : Routine, ∃ result after, r.simplify session = (.ok result, after)) ∧
    (∀ p : Program, ∃ result after, p.simplify session = (.ok result, after)) ∧
    ∀ (wanted : Control) (s : Statement),
      (s.control? = some wanted →
        ∃ result after, s.simplifyControl wanted session = (.ok result, after)) ∧
      (s.control? ≠ some wanted →
        s.simplifyControl wanted session = (.error (.unexpectedStatement
          ("expected " ++ wanted.text ++ ", found " ++ s.kindName)), session)) := by
  intro session
  have holds : Prover.Sequenced session.prover := by
    apply Guarantee.sequenced.after_operations
    exact Prover.start_sequenced _
  have succeeds {α : Type} {act : Pass σ α} {property : α → Prop}
      (given : Guarantee.sequenced.logic.gives act property) :
      ∃ result after, act session = (.ok result, after) := by
    obtain ⟨result, after, run, _⟩ := given session holds
    exact ⟨result, after, run⟩
  refine ⟨fun e => succeeds (Pass.simplify_gives e), fun s => succeeds s.simplify_gives,
    fun r => succeeds r.simplify_gives, fun p => succeeds p.simplify_gives, ?_⟩
  intro wanted s
  refine ⟨fun same => succeeds (Statement.simplify_control_gives same), fun other => ?_⟩
  rw [Statement.simplifyControl, if_neg other]
  rfl

end Sessions

end Condense
