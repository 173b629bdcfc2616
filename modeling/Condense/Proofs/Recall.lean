import Condense.Proofs.Reliability

/-!
# Answers that stay

Once the cache has an answer for a condition, it goes on to give that answer: entries are
never dropped, an entry is filed for a class only when none is found, and a digest that is
known is never replaced. This holds through any operations of a session, whatever the
solver does and whatever the ids of other conditions stand for. A condition for which both
questions have been answered in the negative is undecided for good, and asking about it
again puts no query to the solver.
-/

namespace Condense

set_option autoImplicit false

namespace Prover

variable {σ : Type} {prover after : Prover σ} {polarity : Polarity} {e : Expr}

structure Answered (prover : Prover σ) (polarity : Polarity) (e : Expr) (proven : Bool) :
    Prop where
  known : ∃ digest, prover.memo.get? e.id = some digest
  kept : prover.kept? polarity e = some proven

def Recalls (before after : Prover σ) : Prop :=
  ∀ polarity e proven, before.Answered polarity e proven → after.Answered polarity e proven

namespace Recalls

theorem refl (prover : Prover σ) : prover.Recalls prover :=
  fun _ _ _ answered => answered

theorem trans {middle : Prover σ} (first : prover.Recalls middle) (second : middle.Recalls after) :
    prover.Recalls after :=
  fun polarity e proven answered => second polarity e proven (first polarity e proven answered)

theorem of_oracle (oracle : Oracle σ) : prover.Recalls { prover with oracle } :=
  fun _ _ _ answered => ⟨answered.known, answered.kept⟩

end Recalls

theorem lookup_recalls (filed : prover.Filed) (polarity : Polarity) (e : Expr) :
    prover.Recalls (lookup polarity e prover).2 := by
  have filed' := lookup_filed filed polarity e
  obtain ⟨result, after, run, looked, memo, _⟩ := lookup_cases prover polarity e
  rw [run] at filed' ⊢
  intro other e' proven answered
  obtain ⟨digest', known⟩ := answered.known
  have known' : after.memo.get? e'.id = some digest' := by
    rw [memo]
    exact Memo.digest_extends e prover.memo _ _ known
  have same : (digest e' prover).1 = digest' := congrArg Prod.fst (Memo.digest_known known)
  have same' : (digest e' after).1 = digest' := congrArg Prod.fst (Memo.digest_known known')
  refine ⟨⟨digest', known'⟩, ?_⟩
  have kept := answered.kept
  rw [kept_eq_find filed, same] at kept
  rw [kept_eq_find filed', same']
  rcases looked.entries_eq other with unchanged | ⟨rfl, unasked, _, grown⟩
  · rw [unchanged]
    exact kept
  · rw [grown, List.find?_cons_of_neg]
    · exact kept
    · -- The class of the new entry had none, and so is not that of `e'`.
      intro matched
      rw [Bool.and_eq_true, beq_iff_eq] at matched
      obtain ⟨entry, member, filedUnder, equivalent, _⟩ := find_some answered.kept
      rw [Expr.is_equiv_comm] at matched
      exact kept_ne_none filed member (filedUnder.trans (same.trans matched.1.symm))
        (Expr.is_equiv_trans equivalent matched.2) unasked

theorem answered_of_lookup (filed : prover.Filed) {proven : Bool}
    (run : lookup polarity e prover = (.ok proven, after)) : after.Answered polarity e proven := by
  refine ⟨?_, kept_of_lookup filed run⟩
  obtain ⟨result, after', run', _, memo, _⟩ := lookup_cases prover polarity e
  rw [run] at run'
  cases run'
  rw [memo]
  exact ⟨_, Memo.get_digest e prover.memo⟩

theorem verdict_recalls (filed : prover.Filed) (e : Expr) :
    (verdict e prover).2.Filed ∧ prover.Recalls (verdict e prover).2 := by
  have first := lookup_recalls filed .positive e
  have filed' := lookup_filed filed .positive e
  rcases verdict_after e prover with same | same
  · rw [same]
    exact ⟨filed', first⟩
  · rw [same]
    exact ⟨lookup_filed filed' .negative e, first.trans (lookup_recalls filed' .negative e)⟩

/-- Neither of the two opposite facts has been proven, and both have been asked about. -/
structure Undecided (prover : Prover σ) (e : Expr) : Prop where
  positive : prover.Answered .positive e false
  negative : prover.Answered .negative e false

theorem Undecided.recalled (undecided : prover.Undecided e) (recalls : prover.Recalls after) :
    after.Undecided e :=
  ⟨recalls _ _ _ undecided.positive, recalls _ _ _ undecided.negative⟩

theorem undecided_of_verdict (filed : prover.Filed)
    (run : verdict e prover = (.ok .unknown, after)) : after.Undecided e := by
  rcases verdict_eq_ok run with ⟨impossible, _⟩ | ⟨middle, fails, first, second, unproven⟩
  · cases impossible
  have filed' : middle.Filed := by
    have kept := lookup_filed filed .positive e
    rwa [first] at kept
  cases fails with
  | true => cases unproven
  | false =>
      have recalls := lookup_recalls filed' .negative e
      rw [second] at recalls
      exact ⟨recalls _ _ _ (answered_of_lookup filed first), answered_of_lookup filed' second⟩

/-- A question that has an answer adds a line to the journal and counts a hit. -/
theorem lookup_of_answered {proven : Bool} (answered : prover.Answered polarity e proven) :
    lookup polarity e prover = (.ok proven, { prover with
      oracle := (Oracle.note (.hit e polarity proven) prover.oracle).2
      cache := { prover.cache with hits := prover.cache.hits + 1 } }) := by
  obtain ⟨digest', known⟩ := answered.known
  have digested : digest e prover = (digest', prover) := by
    unfold digest
    rw [Memo.digest_known known]
  have kept := answered.kept
  unfold kept? at kept
  rw [digested] at kept
  unfold lookup
  rw [ExceptT.lift_bind_run, digested, ExceptT.get_bind_run]
  dsimp only at kept ⊢
  rw [kept]
  rfl

theorem Recalls.of_hit (oracle : Oracle σ) (hits : Nat) :
    prover.Recalls { prover with oracle, cache := { prover.cache with hits } } := by
  intro polarity e proven answered
  refine ⟨answered.known, ?_⟩
  have kept := answered.kept
  unfold kept? find? Cache.find? at kept ⊢
  rw [← kept]
  show ((Cache.entries { prover.cache with hits } polarity).find? _).map _ = _
  rw [entries_hit]
  rfl

/-- Nothing is put to the solver about a condition that is undecided. -/
theorem verdict_of_undecided (undecided : prover.Undecided e) :
    ∃ after, verdict e prover = (.ok .unknown, after) ∧ prover.Recalls after ∧
      after.oracle.queries = prover.oracle.queries ∧
      after.oracle.failures = prover.oracle.failures := by
  have first := lookup_of_answered undecided.positive
  have recalls : prover.Recalls _ :=
    .of_hit (Oracle.note (.hit e .positive false) prover.oracle).2 (prover.cache.hits + 1)
  have second := lookup_of_answered (recalls _ _ _ undecided.negative)
  exact ⟨_, verdict_of_false first second, recalls.trans (.of_hit _ _), rfl, rfl⟩

end Prover

section Sessions

variable {σ : Type}

def Guarantee.recalling (base : Prover σ) : Guarantee σ where
  holds prover := prover.Sequenced ∧ base.Recalls prover
  concludes _ _ := True
  consulted := by
    rintro prover oracle - ⟨sequenced, recalls⟩
    exact ⟨⟨sequenced.filed, sequenced.preceded⟩, recalls.trans (.of_oracle oracle)⟩
  decides := by
    rintro prover e ⟨sequenced, recalls⟩
    have later := (Prover.verdict_recalls sequenced.filed e).2
    obtain ⟨result, after, run, kept⟩ := Prover.verdict_sequenced sequenced e
    rw [run] at later
    exact ⟨result, after, run, ⟨kept, recalls.trans later⟩, trivial⟩

theorem Session.after_recalls {session : Session σ} (sequenced : session.prover.Sequenced)
    (operations : List Operation) :
    session.prover.Recalls (session.after operations).prover :=
  ((Guarantee.recalling session.prover).after_operations ⟨sequenced, .refl _⟩ operations).2

end Sessions

namespace Evidence

variable {σ : Type} {solver : Solver σ} {evidence : Evidence solver} {prover : Prover σ} {e : Expr}

theorem concludes_of_undecided (trusts : evidence.Trusts prover)
    (undecided : prover.Undecided e) : evidence.Concludes e .unknown := by
  have admitted {polarity : Polarity} (answered : prover.Answered polarity e false) :
      evidence.admits polarity e false := by
    obtain ⟨entry, member, _, equivalent, proven⟩ := Prover.find_some answered.kept
    have supports := (trusts.entries polarity entry member).shared equivalent
    rw [proven] at supports
    exact supports.1
  exact ⟨admitted undecided.positive, admitted undecided.negative⟩

end Evidence

end Condense
