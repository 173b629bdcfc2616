import Condense.Proofs.Answers
import Condense.Proofs.Constants

/-!
# Enumeration decides

Numbering the assignments misses no store: every store is what some number in range
stands for, and every number stands for a store. So a search through all numbers settles
whether a condition holds always or never, and the oracle over it is a decision procedure
for the conditions that are narrow enough.
-/

namespace Condense

set_option autoImplicit false

namespace Constants

def Numbers (constants : Constants) (number : Nat) (store : Store) : Prop :=
  ∀ constant ∈ constants, constants.model number constant.1
    = some (constant.2.value (store constant.1 constant.2).toNat)

theorem model_cons_self (name : String) (sort : SmtSort) (rest : Constants) (number : Nat) :
    Constants.model ((name, sort) :: rest) number name
      = some (sort.value (number % 2 ^ sort.bits)) := by
  rw [Constants.model, if_pos rfl, Nat.one_shiftLeft]

theorem model_cons_other {name other : String} (sort : SmtSort) (rest : Constants)
    (number : Nat) (different : name ≠ other) :
    Constants.model ((other, sort) :: rest) number name
      = Constants.model rest (number / 2 ^ sort.bits) name := by
  rw [Constants.model, if_neg different, Nat.shiftRight_eq_div_pow]

theorem exists_store {constants : Constants} (ascending : constants.Ascending) (number : Nat) :
    ∃ store, constants.Numbers number store := by
  induction constants generalizing number with
  | nil => exact ⟨.zeros, by simp [Numbers]⟩
  | cons first rest ih =>
      obtain ⟨name, sort⟩ := first
      obtain ⟨store, numbers⟩ := ih ascending.of_cons (number / 2 ^ sort.bits)
      refine ⟨fun other sort =>
        if other = name then BitVec.ofNat sort.bits number else store other sort, ?_⟩
      intro constant member
      rcases List.mem_cons.mp member with rfl | member
      · rw [model_cons_self]
        dsimp only
        rw [if_pos rfl, BitVec.toNat_ofNat]
      · have different := ascending.name_ne member
        rw [model_cons_other _ _ _ different, numbers constant member]
        dsimp only
        rw [if_neg different]

theorem exists_number {constants : Constants} (ascending : constants.Ascending) (store : Store) :
    ∃ number, number < constants.count ∧ constants.Numbers number store := by
  induction constants with
  | nil => exact ⟨0, Nat.one_pos, by simp [Numbers]⟩
  | cons first rest ih =>
      obtain ⟨name, sort⟩ := first
      obtain ⟨number, small, numbers⟩ := ih ascending.of_cons
      have fits := (store name sort).isLt
      -- The first constant takes the lowest bits, the others are numbered by what is above.
      refine ⟨(store name sort).toNat + 2 ^ sort.bits * number, ?_, ?_⟩
      · rw [Constants.count, Nat.shiftLeft_eq, Nat.mul_comm (Constants.count rest)]
        calc (store name sort).toNat + 2 ^ sort.bits * number
            < 2 ^ sort.bits + 2 ^ sort.bits * number := Nat.add_lt_add_right fits _
          _ = 2 ^ sort.bits * (number + 1) := by rw [Nat.mul_succ, Nat.add_comm]
          _ ≤ 2 ^ sort.bits * Constants.count rest := Nat.mul_le_mul_left _ small
      · intro constant member
        rcases List.mem_cons.mp member with rfl | member
        · rw [model_cons_self, Nat.add_mul_mod_self_left, Nat.mod_eq_of_lt fits]
        · rw [model_cons_other _ _ _ (ascending.name_ne member),
            Nat.add_mul_div_left _ _ (Nat.two_pow_pos _), Nat.div_eq_of_lt fits, Nat.zero_add,
            numbers constant member]

end Constants

theorem Term.eval_congr {model model' : Model} {t : Term}
    (same : ∀ constant ∈ t.occurrences, model constant.1 = model' constant.1) :
    t.eval model = t.eval model' := by
  induction t with
  | bool value => rfl
  | bitVec value bits => rfl
  | const name sort => rw [eval, eval, same (name, sort) (by simp [occurrences])]
  | not t ih | bvUnary op t ih | extract high low t ih | zeroExtend extra t ih
  | signExtend extra t ih => rw [eval, eval, ih same]
  | and l r left right | or l r left right | xor l r left right | eq l r left right
  | bvBinary op l r left right | bvCompare op l r left right =>
      rw [eval, eval, left fun c member => same c (by simp [occurrences, member]),
        right fun c member => same c (by simp [occurrences, member])]
  | ite c yes no condition positive negative =>
      rw [eval, eval, condition fun c member => same c (by simp [occurrences, member]),
        positive fun c member => same c (by simp [occurrences, member]),
        negative fun c member => same c (by simp [occurrences, member])]

/-- A model that fits is one of those that have a number, as far as the term can tell. -/
theorem Model.Fits.exists_number {model : Model} {t : Term} (fits : model.Fits t) :
    ∃ number, number < t.constants.count ∧
      t.eval model = t.eval (t.constants.model number) := by
  classical
  let store : Store := fun name sort =>
    if member : (name, sort) ∈ t.constants then (fits (name, sort) member).choose
    else Store.zeros name sort
  obtain ⟨number, small, numbers⟩ := Constants.exists_number t.constants_ascending store
  refine ⟨number, small, ?_⟩
  apply Term.eval_congr
  intro constant occurs
  obtain ⟨sort, member⟩ := Term.name_mem_constants occurs
  have stored : store constant.1 sort = (fits (constant.1, sort) member).choose := dif_pos member
  rw [(fits (constant.1, sort) member).choose_spec, numbers (constant.1, sort) member, stored]

namespace Exhaustive

/-- The search comes to the end only when every assignment makes the term false. -/
theorem eval_of_search_unsat {late : Nat → Bool} {t : Term} {constants : Constants}
    {number left : Nat} (unsat : search late t constants number left = .ok .unsat) (k : Nat)
    (lower : number ≤ k) (upper : k < number + left) :
    t.eval (constants.model k) = .ok (.bool false) := by
  induction left generalizing number with
  | zero => omega
  | succ left ih =>
      rw [search] at unsat
      split at unsat
      · cases unsat
      split at unsat
      · cases unsat
      · next first =>
          rcases Nat.eq_or_lt_of_le lower with rfl | later
          · exact first
          · exact ih unsat later (by omega)
      · cases unsat
      · cases unsat

theorem search_eq_unsat {late : Nat → Bool} {t : Term} {constants : Constants}
    {number left : Nat} (punctual : ∀ k, number ≤ k → k < number + left → late k = false) :
    search late t constants number left = .ok .unsat ↔
      ∀ k, number ≤ k → k < number + left →
        t.eval (constants.model k) = .ok (.bool false) := by
  refine ⟨eval_of_search_unsat, ?_⟩
  induction left generalizing number with
  | zero => exact fun _ => rfl
  | succ left ih =>
      intro refuted
      have inTime := punctual number (Nat.le_refl _) (by omega)
      rw [search, if_neg (by simp [inTime]), refuted number (Nat.le_refl _) (by omega)]
      exact ih (fun k lower upper => punctual k (by omega) (by omega))
        fun k lower upper => refuted k (by omega) (by omega)

theorem to_solver_is_sound (solver : Exhaustive) : solver.toSolver.IsSound := by
  intro t strategy memory unsat model fits
  have searched : search (solver.isLate strategy) t t.constants 0 t.constants.count
      = .ok .unsat := by
    change solver.check t strategy = .ok .unsat at unsat
    unfold check at unsat
    dsimp only at unsat
    split at unsat
    · cases unsat
    · exact unsat
  obtain ⟨number, small, same⟩ := fits.exists_number
  rw [same, eval_of_search_unsat searched number (Nat.zero_le _) (by omega)]
  simp

def Covers (solver : Exhaustive) (e : Expr) : Prop :=
  (∃ t, e.encode = .ok t) ∧ e.freeBits ≤ solver.maxBits ∧ e.freeBits < 64

theorem assigns_of_numbers {e : Expr} {t : Term} {number : Nat} {store : Store}
    (accepted : e.encode = .ok t) (numbers : t.constants.Numbers number store) :
    Model.Assigns (t.constants.model number) store e := by
  intro v member
  exact numbers (v.name, v.ty.sort)
    ((Expr.mem_constants_of_encode accepted _).mpr ⟨v, member, rfl⟩)

theorem check_target_unsat (solver : Exhaustive) (strategy : Strategy) (polarity : Polarity)
    {e : Expr} {t : Term} (accepted : e.encode = .ok t)
    (punctual : ∀ number, solver.isLate strategy number = false) :
    solver.check (polarity.target t) strategy = .ok .unsat ↔
      (e.freeBits ≤ solver.maxBits ∧ e.freeBits < 64) ∧
        ∀ store, Meaning.holds (e.value store) = polarity.truth := by
  have ascending := t.constants_ascending
  have constants : (polarity.target t).constants = t.constants := by
    cases polarity <;> rfl
  have evaluates {number : Nat} {store : Store} (numbers : t.constants.Numbers number store) :
      (polarity.target t).eval (t.constants.model number)
        = .ok (.bool (Meaning.holds (e.value store) != polarity.truth)) :=
    polarity.eval_target ((Expr.eval_of_encode accepted (assigns_of_numbers accepted numbers)))
  unfold check
  dsimp only
  rw [constants, Expr.bits_of_encode accepted]
  by_cases wide : solver.maxBits < e.freeBits ∨ 64 ≤ e.freeBits
  · rw [if_pos wide]
    constructor
    · intro impossible
      cases impossible
    · intro decided
      rcases decided with ⟨narrow, _⟩
      omega
  · rw [if_neg wide, search_eq_unsat fun k _ _ => punctual k]
    constructor
    · intro refuted
      refine ⟨by omega, ?_⟩
      intro store
      obtain ⟨number, small, numbers⟩ := Constants.exists_number ascending store
      have no := refuted number (Nat.zero_le _) (by omega)
      rw [evaluates numbers] at no
      simpa using no
    · intro decided k _ _
      rcases decided with ⟨_, constant⟩
      obtain ⟨store, numbers⟩ := Constants.exists_store ascending k
      rw [evaluates numbers, constant store, bne_self_eq_false]

end Exhaustive

namespace Oracle

variable {exhaustive : Exhaustive} {oracle : Oracle Unit}

theorem answer_eq_true (enumerates : oracle.solver = exhaustive.toSolver)
    (punctual : ∀ number, exhaustive.isLate oracle.strategy number = false)
    (polarity : Polarity) (e : Expr) :
    oracle.answer polarity e = true ↔
      exhaustive.Covers e ∧ ∀ store, Meaning.holds (e.value store) = polarity.truth := by
  unfold answer
  cases accepted : e.encode with
  | error unsupported =>
      constructor
      · intro impossible
        cases impossible
      · intro decided
        rcases decided with ⟨⟨⟨t, success⟩, _⟩, _⟩
        rw [accepted] at success
        cases success
  | ok t =>
      dsimp only
      rw [Reply.refutes_iff, enumerates]
      show exhaustive.check (polarity.target t) oracle.strategy = .ok .unsat ↔ _
      rw [exhaustive.check_target_unsat _ polarity accepted punctual]
      constructor
      · intro decided
        rcases decided with ⟨narrow, constant⟩
        exact ⟨⟨⟨t, accepted⟩, narrow⟩, constant⟩
      · intro decided
        rcases decided with ⟨⟨_, narrow⟩, constant⟩
        exact ⟨narrow, constant⟩

theorem verdict_of_answers (enumerates : oracle.solver = exhaustive.toSolver)
    (punctual : ∀ number, exhaustive.isLate oracle.strategy number = false) (e : Expr) :
    ((verdict e oracle).1 = .isTrue ↔ oracle.answer .positive e = true) ∧
      ((verdict e oracle).1 = .isFalse ↔ oracle.answer .negative e = true) := by
  obtain ⟨middle, kept, result⟩ := verdict_run e oracle
  have positive := answer_eq_true enumerates punctual .positive e
  have negative := answer_eq_true enumerates punctual .negative e
  have repeated := answer_eq_true (kept.solver.trans enumerates)
    (by rw [kept.strategy]; exact punctual) .negative e
  have unchanged : middle.answer .negative e = oracle.answer .negative e := by
    rw [Bool.eq_iff_iff, repeated, negative]
  have exclusive : ¬(oracle.answer .positive e = true ∧ oracle.answer .negative e = true) := by
    intro both
    rcases both with ⟨always, never⟩
    have holds := (positive.mp always).2 Store.zeros
    rw [(negative.mp never).2 Store.zeros] at holds
    cases holds
  rw [result, unchanged]
  cases always : oracle.answer .positive e with
  | true =>
      cases never : oracle.answer .negative e with
      | true => exact absurd ⟨always, never⟩ exclusive
      | false => simp
  | false => cases never : oracle.answer .negative e <;> simp

/-- Over the enumeration the oracle decides every condition that is narrow enough, and is
silent about every other. -/
theorem verdict_decides (exhaustive : Exhaustive) (oracle : Oracle Unit)
    (enumerates : oracle.solver = exhaustive.toSolver)
    (punctual : ∀ number, exhaustive.isLate oracle.strategy number = false) (e : Expr) :
    (exhaustive.Covers e →
      ((verdict e oracle).1 = .isTrue ↔ ∀ store, Meaning.holds (e.value store) = true) ∧
      ((verdict e oracle).1 = .isFalse ↔ ∀ store, Meaning.holds (e.value store) = false) ∧
      ((verdict e oracle).1 = .unknown ↔
        (∃ store, Meaning.holds (e.value store) = true) ∧
          ∃ store, Meaning.holds (e.value store) = false)) ∧
    (¬exhaustive.Covers e → (verdict e oracle).1 = .unknown) ∧
    ((prove e oracle).1 = true ↔ (verdict e oracle).1 = .isTrue) ∧
    ((proveFalse e oracle).1 = true ↔ (verdict e oracle).1 = .isFalse) := by
  have proved : (prove e oracle).1 = oracle.answer .positive e := (query_run .positive e oracle).1
  have disproved : (proveFalse e oracle).1 = oracle.answer .negative e :=
    (query_run .negative e oracle).1
  have positive := answer_eq_true enumerates punctual .positive e
  have negative := answer_eq_true enumerates punctual .negative e
  obtain ⟨isTrue, isFalse⟩ := verdict_of_answers enumerates punctual e
  have unknown : (verdict e oracle).1 = .unknown ↔
      ¬(verdict e oracle).1 = .isTrue ∧ ¬(verdict e oracle).1 = .isFalse := by
    cases (verdict e oracle).1 <;> simp
  refine ⟨?_, ?_, ?_, ?_⟩
  · intro covered
    have always : (verdict e oracle).1 = .isTrue ↔
        ∀ store, Meaning.holds (e.value store) = true := by
      rw [isTrue, positive]
      exact ⟨fun known => known.2, fun constant => ⟨covered, constant⟩⟩
    have never : (verdict e oracle).1 = .isFalse ↔
        ∀ store, Meaning.holds (e.value store) = false := by
      rw [isFalse, negative]
      exact ⟨fun known => known.2, fun constant => ⟨covered, constant⟩⟩
    refine ⟨always, never, ?_⟩
    rw [unknown, always, never]
    simp only [not_forall, Bool.not_eq_true, Bool.not_eq_false]
    exact and_comm
  · intro uncovered
    rw [unknown, isTrue, isFalse, positive, negative]
    exact ⟨fun known => uncovered known.1, fun known => uncovered known.1⟩
  · rw [proved, isTrue]
  · rw [disproved, isFalse]

/-- An unsigned byte is at most 255 and not always zero. The clock never runs out under the
standard strategy, whose bound is not zero. -/
theorem verdict_decides_byte :
    let exhaustive : Exhaustive := { maxBits := 8 }
    let oracle : Oracle Unit := { solver := exhaustive.toSolver, memory := () }
    let byte : Expr := .var 0 ⟨"x", .int 8 false⟩
    let bounded : Expr := .binary 2 .le byte (.lit 1 ⟨255, .int 8 false⟩)
    (verdict bounded oracle).1 = .isTrue ∧ (verdict byte oracle).1 = .unknown := by
  intro exhaustive oracle byte bounded
  have punctual (number : Nat) : exhaustive.isLate oracle.strategy number = false := by
    have clock : exhaustive.isLate oracle.strategy number
        = (number % 1024 == 0 && (1000 : UInt64) == 0) := rfl
    rw [clock, Bool.and_eq_false_iff]
    exact .inr (by decide)
  have decides := verdict_decides exhaustive oracle rfl punctual
  have coversBounded : exhaustive.Covers bounded := ⟨⟨_, rfl⟩, by decide, by decide⟩
  have coversByte : exhaustive.Covers byte := ⟨⟨_, rfl⟩, by decide, by decide⟩
  constructor
  · apply ((decides bounded).1 coversBounded).1.mpr
    intro store
    have small : (store "x" (.bitVec 8)).toNat < 256 := (store "x" (.bitVec 8)).isLt
    have value : bounded.value store
        = (decide (((store "x" (.bitVec 8)).toNat : Int) ≤ 255)).toNat := rfl
    rw [value, decide_eq_true (by omega)]
    rfl
  · refine ((decides byte).1 coversByte).2.2.mpr ⟨?_, ?_⟩
    · exact ⟨fun _ sort => BitVec.ofNat sort.bits 1, rfl⟩
    · exact ⟨fun _ sort => BitVec.ofNat sort.bits 0, rfl⟩

end Oracle

end Condense
