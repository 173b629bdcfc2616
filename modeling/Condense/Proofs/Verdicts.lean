import Condense.Proofs.Answers
import Condense.Proofs.Canonical

/-!
# Verdicts and what they are evidence of

What may be concluded from a verdict depends on the solver, and not on which conditions
have been asked about before: an answer kept in the cache was given for a condition of the
same class. `Evidence` says, for a solver, what an answer admits as a conclusion. As long
as the cache holds admissible answers only, every verdict succeeds and is admissible, and
the cache goes on to hold admissible answers only. This is one `Guarantee`; the pass works
under any.
-/

namespace Condense

set_option autoImplicit false

section Runs

variable {σ α β : Type}

theorem ExceptT.lift_bind_run (act : StateM σ α) (next : α → ExceptT Fault (StateM σ) β)
    (state : σ) : (ExceptT.lift act >>= next) state = next (act state).1 (act state).2 := rfl

theorem ExceptT.get_bind_run (next : σ → ExceptT Fault (StateM σ) β) (state : σ) :
    ((get : ExceptT Fault (StateM σ) σ) >>= next) state = next state state := rfl

theorem ExceptT.bind_run_ok {act : ExceptT Fault (StateM σ) α}
    {next : α → ExceptT Fault (StateM σ) β} {state after : σ} {a : α}
    (run : act state = (.ok a, after)) : (act >>= next) state = next a after := by
  show ExceptT.bindCont next (act state).1 (act state).2 = next a after
  rw [run]
  rfl

theorem ExceptT.bind_run_error {act : ExceptT Fault (StateM σ) α}
    {next : α → ExceptT Fault (StateM σ) β} {state after : σ} {fault : Fault}
    (run : act state = (.error fault, after)) : (act >>= next) state = (.error fault, after) := by
  show ExceptT.bindCont next (act state).1 (act state).2 = (.error fault, after)
  rw [run]
  rfl

end Runs

/-- Conditions of one class have one term or none, and so one answer. -/
theorem Oracle.answer_of_is_equiv {σ : Type} {a b : Expr} (equivalent : a.isEquiv b = true)
    (oracle : Oracle σ) (polarity : Polarity) :
    oracle.answer polarity a = oracle.answer polarity b := by
  have same (t : Term) : a.encode = .ok t ↔ b.encode = .ok t :=
    Expr.encode_of_is_equiv equivalent
  unfold answer
  cases left : a.encode with
  | ok t => rw [(same t).mp left]
  | error unsupported =>
      cases right : b.encode with
      | error unsupported => rfl
      | ok t =>
          rw [(same t).mpr right] at left
          cases left

/-- Conclusions that the answers of a solver admit: what the oracle answers is admitted, it
is admitted for the whole class, and no condition is admitted to hold always and never,
unless it was also admitted not to be provable. -/
structure Evidence {σ : Type} (solver : Solver σ) where
  admits : Polarity → Expr → Bool → Prop
  answered : ∀ (oracle : Oracle σ) (polarity : Polarity) (e : Expr), oracle.solver = solver →
    admits polarity e (oracle.answer polarity e)
  shared : ∀ {a b : Expr} {polarity : Polarity} {proven : Bool}, a.isEquiv b = true →
    admits polarity a proven → admits polarity b proven
  exclusive : ∀ {e : Expr}, admits .positive e true → admits .positive e false →
    ¬admits .negative e true

namespace Evidence

variable {σ : Type} {solver : Solver σ}

/-- A class is asked about falsity only when its truth was not proven. -/
def Supports (evidence : Evidence solver) (polarity : Polarity) (e : Expr) (proven : Bool) :
    Prop :=
  evidence.admits polarity e proven ∧
    (polarity = .negative → evidence.admits .positive e false)

structure Trusts (evidence : Evidence solver) (prover : Prover σ) : Prop where
  solver : prover.oracle.solver = solver
  entries : ∀ polarity, ∀ entry ∈ prover.cache.entries polarity,
    evidence.Supports polarity entry.representative entry.proven

def Concludes (evidence : Evidence solver) (e : Expr) : Verdict → Prop
  | .isTrue => evidence.admits .positive e true
  | .isFalse => evidence.admits .positive e false ∧ evidence.admits .negative e true
  | .unknown => evidence.admits .positive e false ∧ evidence.admits .negative e false

theorem Supports.shared {evidence : Evidence solver} {a b : Expr} {polarity : Polarity}
    {proven : Bool} (equivalent : a.isEquiv b = true)
    (supports : evidence.Supports polarity a proven) : evidence.Supports polarity b proven := by
  refine ⟨evidence.shared equivalent supports.1, ?_⟩
  intro negative
  exact evidence.shared equivalent (supports.2 negative)

/-- Whichever of the two opposite facts was admitted first, the other cannot follow. -/
theorem Supports.not_both {evidence : Evidence solver} {e : Expr} {polarity : Polarity}
    (supports : evidence.Supports polarity e true) :
    ¬evidence.Supports polarity.opposite e true := by
  intro opposite
  cases polarity with
  | positive => exact evidence.exclusive supports.1 (opposite.2 rfl) opposite.1
  | negative => exact evidence.exclusive opposite.1 (supports.2 rfl) supports.1

end Evidence

namespace Prover

variable {σ : Type} {prover : Prover σ} {polarity : Polarity} {e : Expr}

theorem find_some {digest : UInt64} {proven : Bool}
    (found : prover.find? polarity digest e = some proven) :
    ∃ entry ∈ prover.cache.entries polarity, entry.digest = digest ∧
      entry.representative.isEquiv e = true ∧ entry.proven = proven := by
  obtain ⟨entry, first, same⟩ := Option.map_eq_some_iff.mp found
  have accepted := List.find?_some first
  rw [Bool.and_eq_true, beq_iff_eq] at accepted
  refine ⟨entry, List.mem_of_find?_eq_some first, accepted.1, ?_, same⟩
  have equivalent := accepted.2
  unfold Memo.isEquiv at equivalent
  split at equivalent
  · rw [Bool.and_eq_true] at equivalent
    exact equivalent.2
  · exact equivalent

def kept? (prover : Prover σ) (polarity : Polarity) (e : Expr) : Option Bool :=
  (digest e prover).2.find? polarity (digest e prover).1 e

/-- What a lookup can come to, as its result and the prover it leaves. -/
inductive Looked (prover : Prover σ) (polarity : Polarity) (e : Expr) (after : Prover σ) :
    Except Fault Bool → Prop where
  /-- The class has been asked about, and the oracle is not consulted. -/
  | hit {proven : Bool} (recalled : prover.kept? polarity e = some proven)
      (cache : after.cache = { prover.cache with hits := prover.cache.hits + 1 }) :
      Looked prover polarity e after (.ok proven)
  /-- The oracle proves the opposite of what is kept, and nothing is kept. -/
  | conflict (unasked : prover.kept? polarity e = none)
      (proven : prover.oracle.answer polarity e = true)
      (opposed : prover.kept? polarity.opposite e = some true)
      (cache : after.cache = prover.cache) :
      Looked prover polarity e after (.error (.inconsistent e.text))
  | miss (unasked : prover.kept? polarity e = none)
      (unopposed : prover.oracle.answer polarity e = true →
        prover.kept? polarity.opposite e ≠ some true)
      (cache : after.cache = prover.cache.insert polarity
        ⟨(digest e prover).1, e, prover.oracle.answer polarity e⟩) :
      Looked prover polarity e after (.ok (prover.oracle.answer polarity e))

theorem lookup_cases (prover : Prover σ) (polarity : Polarity) (e : Expr) :
    ∃ result after, lookup polarity e prover = (result, after) ∧
      Looked prover polarity e after result ∧ after.memo = (digest e prover).2.memo ∧
      Oracle.Kept prover.oracle after.oracle := by
  unfold lookup
  rw [ExceptT.lift_bind_run, ExceptT.get_bind_run]
  cases recalled : (digest e prover).2.find? polarity (digest e prover).1 e with
  | some proven => exact ⟨_, _, rfl, .hit recalled rfl, rfl, ⟨rfl, rfl⟩⟩
  | none =>
      obtain ⟨answer, kept⟩ := Oracle.query_run polarity e prover.oracle
      have asked : (consult (Oracle.query polarity e) (digest e prover).2).1
          = prover.oracle.answer polarity e := answer
      dsimp only
      rw [ExceptT.lift_bind_run, asked, ExceptT.get_bind_run]
      split
      · next both =>
          rw [Bool.and_eq_true, beq_iff_eq] at both
          exact ⟨_, _, rfl, .conflict recalled both.1 both.2 rfl, rfl, kept.trans ⟨rfl, rfl⟩⟩
      · next quiet =>
          rw [Bool.and_eq_true, beq_iff_eq] at quiet
          exact ⟨_, _, rfl, .miss recalled (fun proven opposed => quiet ⟨proven, opposed⟩) rfl,
            rfl, kept.trans ⟨rfl, rfl⟩⟩

theorem verdict_of_true {after : Prover σ} (run : lookup .positive e prover = (.ok true, after)) :
    verdict e prover = (.ok .isTrue, after) := by
  unfold verdict
  rw [ExceptT.bind_run_ok run]
  rfl

theorem verdict_of_false {middle after : Prover σ} {fails : Bool}
    (run : lookup .positive e prover = (.ok false, middle))
    (run' : lookup .negative e middle = (.ok fails, after)) :
    verdict e prover = (.ok (if fails then .isFalse else .unknown), after) := by
  unfold verdict
  rw [ExceptT.bind_run_ok run, if_neg (by decide), ExceptT.bind_run_ok run']
  cases fails <;> rfl

theorem verdict_after (e : Expr) (prover : Prover σ) :
    (verdict e prover).2 = (lookup .positive e prover).2 ∨
      (verdict e prover).2 = (lookup .negative e (lookup .positive e prover).2).2 := by
  rcases run : lookup .positive e prover with ⟨error | holds, middle⟩
  · unfold verdict
    rw [ExceptT.bind_run_error run]
    exact .inl rfl
  · cases holds with
    | true =>
        rw [verdict_of_true run]
        exact .inl rfl
    | false =>
        refine .inr ?_
        rcases run' : lookup .negative e middle with ⟨error | fails, after⟩
        · unfold verdict
          rw [ExceptT.bind_run_ok run, if_neg (by decide), ExceptT.bind_run_error run']
        · rw [verdict_of_false run run']

/-- A verdict is a proof of truth, or what a lookup about falsity says after one about truth
has found no proof. -/
theorem verdict_eq_ok {answer : Verdict} {after : Prover σ}
    (run : verdict e prover = (.ok answer, after)) :
    answer = .isTrue ∧ lookup .positive e prover = (.ok true, after) ∨
      ∃ middle fails, lookup .positive e prover = (.ok false, middle) ∧
        lookup .negative e middle = (.ok fails, after) ∧
        answer = if fails then .isFalse else .unknown := by
  rcases first : lookup .positive e prover with ⟨fault | holds, middle⟩
  · unfold verdict at run
    rw [ExceptT.bind_run_error first] at run
    cases run
  cases holds with
  | true =>
      rw [verdict_of_true first] at run
      cases run
      exact .inl ⟨rfl, rfl⟩
  | false =>
      rcases second : lookup .negative e middle with ⟨fault | fails, last⟩
      · unfold verdict at run
        rw [ExceptT.bind_run_ok first, if_neg (by decide), ExceptT.bind_run_error second] at run
        cases run
      · rw [verdict_of_false first second] at run
        cases run
        exact .inr ⟨middle, fails, rfl, second, rfl⟩

@[simp]
theorem entries_empty (polarity : Polarity) : Cache.entries {} polarity = [] := by
  cases polarity <;> rfl

theorem entries_insert (cache : Cache) (polarity other : Polarity) (entry : Entry) :
    (cache.insert polarity entry).entries other
      = if other = polarity then entry :: cache.entries other else cache.entries other := by
  cases polarity <;> cases other <;> rfl

theorem entries_hit (cache : Cache) (hits : Nat) (polarity : Polarity) :
    Cache.entries { cache with hits } polarity = cache.entries polarity := by
  cases polarity <;> rfl

/-- A lookup that finds no answer in the cache and succeeds files one entry; any other files
none. -/
theorem Looked.entries_eq {after : Prover σ} {result : Except Fault Bool}
    (looked : Looked prover polarity e after result) (other : Polarity) :
    after.cache.entries other = prover.cache.entries other ∨
      other = polarity ∧ prover.kept? polarity e = none ∧
        (prover.oracle.answer polarity e = true →
          prover.kept? polarity.opposite e ≠ some true) ∧
        after.cache.entries other
          = ⟨(digest e prover).1, e, prover.oracle.answer polarity e⟩
            :: prover.cache.entries other := by
  cases looked with
  | hit recalled cache =>
      rw [cache]
      exact .inl (entries_hit _ _ other)
  | conflict unasked proven opposed cache =>
      rw [cache]
      exact .inl rfl
  | miss unasked unopposed cache =>
      rw [cache, entries_insert]
      by_cases same : other = polarity
      · rw [if_pos same]
        exact .inr ⟨same, unasked, unopposed, rfl⟩
      · rw [if_neg same]
        exact .inl rfl

theorem Looked.subset {after : Prover σ} {result : Except Fault Bool}
    (looked : Looked prover polarity e after result) (other : Polarity) :
    prover.cache.entries other ⊆ after.cache.entries other := by
  rcases looked.entries_eq other with same | ⟨_, _, _, grown⟩
  · rw [same]
    exact List.Subset.refl _
  · rw [grown]
    exact List.subset_cons_self _ _

theorem Looked.mem_entries {after : Prover σ} {result : Except Fault Bool} {other : Polarity}
    {entry : Entry} (looked : Looked prover polarity e after result)
    (member : entry ∈ after.cache.entries other) :
    entry ∈ prover.cache.entries other ∨
      other = polarity ∧ prover.kept? polarity e = none ∧
        (prover.oracle.answer polarity e = true →
          prover.kept? polarity.opposite e ≠ some true) ∧
        entry = ⟨(digest e prover).1, e, prover.oracle.answer polarity e⟩ := by
  rcases looked.entries_eq other with same | ⟨same, unasked, unopposed, grown⟩
  · rw [same] at member
    exact .inl member
  · rw [grown, List.mem_cons] at member
    rcases member with new | earlier
    · exact .inr ⟨same, unasked, unopposed, new⟩
    · exact .inl earlier

section Evidence

variable {solver : Solver σ} {evidence : Evidence solver}

/-- An answer from the cache is supported because it is for the same class, a new answer
because the oracle gave it. -/
theorem lookup_supports (trusts : evidence.Trusts prover) (polarity : Polarity) (e : Expr)
    (prior : polarity = .negative → evidence.admits .positive e false) :
    ∃ proven after, lookup polarity e prover = (.ok proven, after) ∧ evidence.Trusts after ∧
      evidence.Supports polarity e proven := by
  have filed {other : Polarity} {proven : Bool}
      (recalled : prover.kept? other e = some proven) : evidence.Supports other e proven := by
    obtain ⟨entry, member, _, equivalent, rfl⟩ := find_some recalled
    exact (trusts.entries other entry member).shared equivalent
  have answered : evidence.Supports polarity e (prover.oracle.answer polarity e) :=
    ⟨evidence.answered prover.oracle polarity e trusts.solver, prior⟩
  obtain ⟨result, after, run, looked, _, same⟩ := lookup_cases prover polarity e
  have kept : evidence.Trusts after := by
    refine ⟨same.solver.trans trusts.solver, ?_⟩
    intro other entry member
    rcases looked.mem_entries member with earlier | ⟨rfl, _, _, rfl⟩
    · exact trusts.entries other entry earlier
    · exact answered
  cases looked with
  | hit recalled cache => exact ⟨_, after, run, kept, filed recalled⟩
  | conflict unasked proven opposed cache =>
      rw [proven] at answered
      exact absurd (filed opposed) answered.not_both
  | miss unasked unopposed cache => exact ⟨_, after, run, kept, answered⟩

theorem verdict_concludes (trusts : evidence.Trusts prover) (e : Expr) :
    ∃ verdict after, Prover.verdict e prover = (.ok verdict, after) ∧ evidence.Trusts after ∧
      evidence.Concludes e verdict := by
  obtain ⟨holds, middle, run, trusts, positive⟩ :=
    lookup_supports trusts .positive e (by simp)
  cases holds with
  | true => exact ⟨.isTrue, middle, verdict_of_true run, trusts, positive.1⟩
  | false =>
      obtain ⟨fails, after, run', trusts, negative⟩ :=
        lookup_supports trusts .negative e fun _ => positive.1
      refine ⟨_, after, verdict_of_false run run', trusts, ?_⟩
      cases fails with
      | true => exact ⟨positive.1, negative.1⟩
      | false => exact ⟨positive.1, negative.1⟩

end Evidence

end Prover

/-- A property of provers that questions preserve, whatever the oracle does, under which every
verdict succeeds, with what a verdict then says about the condition. -/
structure Guarantee (σ : Type) where
  holds : Prover σ → Prop
  concludes : Expr → Verdict → Prop
  consulted : ∀ {prover : Prover σ} {oracle : Oracle σ},
    oracle.solver = prover.oracle.solver → holds prover → holds { prover with oracle }
  decides : ∀ {prover : Prover σ} (e : Expr), holds prover →
    ∃ verdict after, Prover.verdict e prover = (.ok verdict, after) ∧ holds after ∧
      concludes e verdict

def Evidence.guarantee {σ : Type} {solver : Solver σ} (evidence : Evidence solver) :
    Guarantee σ where
  holds := evidence.Trusts
  concludes := evidence.Concludes
  consulted := fun same trusts => ⟨same.trans trusts.solver, trusts.entries⟩
  decides := fun e trusts => Prover.verdict_concludes trusts e

end Condense
