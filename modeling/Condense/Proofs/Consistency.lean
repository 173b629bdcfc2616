import Mathlib.Data.List.Find
import Mathlib.Data.List.Nodup
import Condense.Proofs.Digests
import Condense.Proofs.Verdicts

/-!
# Consistency of the cache

Whatever the solver answers, and in whatever order the cache is asked, a class has at most
one answer of each kind and is never kept as both always and never true. Answers are filed
under digests that come from a memo keyed by ids, so this needs an id to stand for one
content; the invariant compares the memo with a table of the right digests. A conflict is
reported exactly when the oracle proves the opposite of an answer that is kept, and it
leaves the cache as it was.
-/

namespace Condense

set_option autoImplicit false

theorem Polarity.opposite_opposite (polarity : Polarity) :
    polarity.opposite.opposite = polarity := by
  cases polarity <;> rfl

theorem Polarity.opposite_ne (polarity : Polarity) : polarity.opposite ≠ polarity := by
  cases polarity <;> decide

namespace Prover

variable {σ : Type} {prover : Prover σ} {polarity : Polarity} {e : Expr}

section Filed

/-- Every answer is filed under the digest that the memo has for its representative. -/
def Filed (prover : Prover σ) : Prop :=
  ∀ polarity, ∀ entry ∈ prover.cache.entries polarity,
    prover.memo.get? entry.representative.id = some entry.digest

theorem start_filed (oracle : Oracle σ) : Filed { oracle } := by
  simp [Filed]

theorem digest_filed (filed : prover.Filed) (e : Expr) : (digest e prover).2.Filed := by
  intro polarity entry member
  exact Memo.digest_extends e prover.memo _ _ (filed polarity entry member)

/-- The memo has all the digests that are compared, so the digests settle which entries are
compared further. -/
theorem kept_eq_find (filed : prover.Filed) (polarity : Polarity) (e : Expr) :
    prover.kept? polarity e = ((prover.cache.entries polarity).find? fun entry =>
      entry.digest == (digest e prover).1 && entry.representative.isEquiv e).map
        Entry.proven := by
  have asked : (digest e prover).2.memo.get? e.id = some (digest e prover).1 :=
    Memo.get_digest e prover.memo
  unfold kept? find? Cache.find?
  congr 1
  apply List.find?_congr
  intro entry member
  unfold Memo.isEquiv
  rw [digest_filed filed e polarity entry member, asked]
  dsimp only
  rw [← Bool.and_assoc, Bool.and_self]

theorem lookup_filed (filed : prover.Filed) (polarity : Polarity) (e : Expr) :
    (lookup polarity e prover).2.Filed := by
  obtain ⟨result, after, run, looked, memo, _⟩ := lookup_cases prover polarity e
  rw [run]
  intro other entry member
  rw [memo]
  rcases looked.mem_entries member with earlier | ⟨_, _, _, rfl⟩
  · exact digest_filed filed e other entry earlier
  · exact Memo.get_digest e prover.memo

end Filed

/-- The cache is filed under right digests, no class is in it twice for one question, and no
class is proven both ways. -/
structure Consistent (table : NodeId → UInt64) (prover : Prover σ) : Prop where
  filed : prover.Filed
  within : prover.memo.Within table
  tabled : ∀ polarity, ∀ entry ∈ prover.cache.entries polarity,
    table entry.representative.id = entry.representative.digest
  distinct : ∀ polarity,
    ((prover.cache.entries polarity).map fun entry => entry.representative.canon).Nodup
  exclusive : ∀ polarity, ∀ a ∈ prover.cache.entries polarity,
    ∀ b ∈ prover.cache.entries polarity.opposite,
      a.representative.isEquiv b.representative = true → ¬(a.proven = true ∧ b.proven = true)

section Consistent

variable {table : NodeId → UInt64}

theorem start_consistent (oracle : Oracle σ) : Consistent table { oracle } := by
  refine ⟨start_filed oracle, ?_, ?_, ?_, ?_⟩ <;> simp [Memo.Within, Memo.get?]

theorem Consistent.kept_eq (consistent : prover.Consistent table) (tabled : e.Tabled table)
    (polarity : Polarity) :
    prover.kept? polarity e = ((prover.cache.entries polarity).find? fun entry =>
      entry.representative.isEquiv e).map Entry.proven := by
  have asked : (digest e prover).1 = e.digest :=
    (Memo.digest_of_tabled tabled consistent.within).1
  rw [kept_eq_find consistent.filed, asked]
  congr 1
  apply List.find?_congr
  intro entry member
  have right : entry.digest = entry.representative.digest := by
    rw [consistent.within _ _ (consistent.filed polarity entry member),
      consistent.tabled polarity entry member]
  cases equivalent : entry.representative.isEquiv e with
  | false => exact Bool.and_false _
  | true => rw [Bool.and_true, right, Expr.digest_of_is_equiv equivalent, beq_self_eq_true]

theorem Consistent.kept_eq_none (consistent : prover.Consistent table)
    (tabled : e.Tabled table) :
    prover.kept? polarity e = none ↔
      ∀ entry ∈ prover.cache.entries polarity, entry.representative.isEquiv e = false := by
  simp [consistent.kept_eq tabled]

theorem Consistent.kept_eq_some (consistent : prover.Consistent table)
    (tabled : e.Tabled table) {proven : Bool} :
    prover.kept? polarity e = some proven ↔
      ∃ entry ∈ prover.cache.entries polarity,
        entry.representative.isEquiv e = true ∧ entry.proven = proven := by
  constructor
  · intro recalled
    obtain ⟨entry, member, _, equivalent, same⟩ := find_some recalled
    exact ⟨entry, member, equivalent, same⟩
  · rintro ⟨entry, member, equivalent, rfl⟩
    rw [consistent.kept_eq tabled]
    cases found : (prover.cache.entries polarity).find? fun entry =>
        entry.representative.isEquiv e with
    | none => exact absurd equivalent (List.find?_eq_none.mp found entry member)
    | some first =>
        -- The first entry of the class is the only one.
        have accepted : first.representative.isEquiv e = true := by
          simpa using List.find?_some found
        have classes : first.representative.canon = entry.representative.canon :=
          ((Expr.is_equiv_iff_canon _ e).mp accepted).trans
            ((Expr.is_equiv_iff_canon _ e).mp equivalent).symm
        have same : first = entry := List.inj_on_of_nodup_map (consistent.distinct polarity)
          (List.mem_of_find?_eq_some found) member classes
        rw [same]
        rfl

theorem digest_consistent (consistent : prover.Consistent table) (tabled : e.Tabled table) :
    (digest e prover).2.Consistent table :=
  ⟨digest_filed consistent.filed e, (Memo.digest_of_tabled tabled consistent.within).2,
    consistent.tabled, consistent.distinct, consistent.exclusive⟩

section Looked

variable {after : Prover σ} {result : Except Fault Bool}

/-- An answer is filed only when its class has none. -/
theorem Consistent.distinct_after (consistent : prover.Consistent table)
    (tabled : e.Tabled table) (looked : Looked prover polarity e after result)
    (other : Polarity) :
    ((after.cache.entries other).map fun entry => entry.representative.canon).Nodup := by
  rcases looked.entries_eq other with same | ⟨rfl, unasked, _, grown⟩
  · rw [same]
    exact consistent.distinct other
  · rw [grown, List.map_cons, List.nodup_cons]
    refine ⟨?_, consistent.distinct other⟩
    intro twice
    obtain ⟨entry, member, classes⟩ := List.mem_map.mp twice
    have equivalent := (Expr.is_equiv_iff_canon _ _).mpr classes
    rw [(consistent.kept_eq_none tabled).mp unasked entry member] at equivalent
    cases equivalent

/-- A proof is filed only when the opposite is not proven. -/
theorem Consistent.exclusive_after (consistent : prover.Consistent table)
    (tabled : e.Tabled table) (looked : Looked prover polarity e after result)
    (other : Polarity) {a b : Entry} (left : a ∈ after.cache.entries other)
    (right : b ∈ after.cache.entries other.opposite)
    (equivalent : a.representative.isEquiv b.representative = true) :
    ¬(a.proven = true ∧ b.proven = true) := by
  rintro ⟨provenA, provenB⟩
  rcases looked.mem_entries left with left | ⟨rfl, _, unopposed, rfl⟩
  · rcases looked.mem_entries right with right | ⟨rfl, _, unopposed, rfl⟩
    · exact consistent.exclusive other a left b right equivalent ⟨provenA, provenB⟩
    · rw [Polarity.opposite_opposite] at unopposed
      exact unopposed provenB
        ((consistent.kept_eq_some tabled).mpr ⟨a, left, equivalent, provenA⟩)
  · rcases looked.mem_entries right with right | ⟨same, _⟩
    · rw [Expr.is_equiv_comm] at equivalent
      exact unopposed provenA
        ((consistent.kept_eq_some tabled).mpr ⟨b, right, equivalent, provenB⟩)
    · exact other.opposite_ne same

end Looked

theorem lookup_consistent (consistent : prover.Consistent table) (tabled : e.Tabled table)
    (polarity : Polarity) : (lookup polarity e prover).2.Consistent table := by
  have filed := lookup_filed consistent.filed polarity e
  obtain ⟨result, after, run, looked, memo, _⟩ := lookup_cases prover polarity e
  rw [run] at filed ⊢
  constructor
  · exact filed
  · rw [memo]
    exact (Memo.digest_of_tabled tabled consistent.within).2
  · intro other entry member
    rcases looked.mem_entries member with earlier | ⟨_, _, _, rfl⟩
    · exact consistent.tabled other entry earlier
    · exact tabled e (Expr.self_mem_nodes e)
  · exact consistent.distinct_after tabled looked
  · intro other a left b right
    exact consistent.exclusive_after tabled looked other left right

end Consistent

end Prover

inductive Question where
  | proven (polarity : Polarity) (e : Expr)
  | verdict (e : Expr)
  | contains (polarity : Polarity) (e : Expr)

def Question.about : Question → Expr
  | proven _ e => e
  | verdict e => e
  | contains _ e => e

section Questions

variable {σ : Type}

def Question.ask (prover : Prover σ) : Question → Prover σ
  | proven polarity e => (Prover.lookup polarity e prover).2
  | verdict e => (Prover.verdict e prover).2
  | contains polarity e => (Prover.contains polarity e prover).2

def Prover.asked (prover : Prover σ) (questions : List Question) : Prover σ :=
  questions.foldl Question.ask prover

variable {prover : Prover σ} {table : NodeId → UInt64}

theorem Prover.Consistent.ask (consistent : prover.Consistent table) {question : Question}
    (tabled : question.about.Tabled table) : (question.ask prover).Consistent table := by
  cases question with
  | proven polarity e => exact lookup_consistent consistent tabled polarity
  | verdict e =>
      have middle := lookup_consistent consistent tabled .positive
      rcases verdict_after e prover with same | same
      · rw [Question.ask, same]
        exact middle
      · rw [Question.ask, same]
        exact lookup_consistent middle tabled .negative
  | contains polarity e => exact digest_consistent consistent tabled

theorem Prover.Consistent.asked (consistent : prover.Consistent table)
    {questions : List Question}
    (tabled : ∀ question ∈ questions, question.about.Tabled table) :
    (prover.asked questions).Consistent table := by
  induction questions generalizing prover with
  | nil => exact consistent
  | cons question rest ih =>
      apply ih (consistent.ask (tabled question (by simp)))
      intro later member
      exact tabled later (by simp [member])

/-- A conflict is reported exactly when the class has no answer, the opposite is kept as
proven, and the oracle proves the condition now. No other fault arises, and the cache is
not changed. -/
theorem Prover.Consistent.conflict_iff (consistent : prover.Consistent table) {e : Expr}
    (tabled : e.Tabled table) (polarity : Polarity) :
    (lookup polarity e prover).1 = .error (.inconsistent e.text) ↔
      (∀ entry ∈ prover.cache.entries polarity, entry.representative.isEquiv e = false) ∧
      (∃ entry ∈ prover.cache.entries polarity.opposite,
        entry.representative.isEquiv e = true ∧ entry.proven = true) ∧
      (Oracle.query polarity e prover.oracle).1 = true := by
  rw [← consistent.kept_eq_none tabled, ← consistent.kept_eq_some tabled,
    (Oracle.query_run polarity e prover.oracle).1]
  obtain ⟨result, after, run, looked, _⟩ := lookup_cases prover polarity e
  rw [run]
  cases looked with
  | hit recalled _ => simp [recalled]
  | conflict unasked proven opposed _ => simp [unasked, proven, opposed]
  | miss unasked unopposed _ =>
      constructor
      · intro impossible
        cases impossible
      · rintro ⟨_, opposed, proven⟩
        exact absurd opposed (unopposed proven)

theorem Prover.cache_of_fault {polarity : Polarity} {e : Expr} {fault : Fault}
    (failed : (lookup polarity e prover).1 = .error fault) :
    fault = .inconsistent e.text ∧ (lookup polarity e prover).2.cache = prover.cache := by
  obtain ⟨result, after, run, looked, _⟩ := lookup_cases prover polarity e
  rw [run] at failed ⊢
  cases looked with
  | hit _ _ => cases failed
  | conflict _ _ _ cache =>
      cases failed
      exact ⟨rfl, cache⟩
  | miss _ _ _ => cases failed

/-- For any solver and any questions in which an id stands for one content: each class has
at most one answer of each kind, no class is proven both ways, and a lookup fails exactly
when its class has no answer, is kept as proven the other way and is proven by the oracle
now. A lookup that fails reports the conflict and leaves the cache as it was. -/
theorem Prover.asked_is_consistent (oracle : Oracle σ) (questions : List Question)
    (identified : Expr.Identified (questions.map Question.about)) :
    let prover := Prover.asked { oracle } questions
    (∀ polarity, (prover.cache.entries polarity).Pairwise fun a b =>
      a.representative.isEquiv b.representative = false) ∧
    (∀ a ∈ prover.cache.positive, ∀ b ∈ prover.cache.negative,
      a.representative.isEquiv b.representative = true →
        ¬(a.proven = true ∧ b.proven = true)) ∧
    ∀ polarity e, Expr.Identified (e :: questions.map Question.about) →
      ((lookup polarity e prover).1 = .error (.inconsistent e.text) ↔
        (∀ entry ∈ prover.cache.entries polarity, entry.representative.isEquiv e = false) ∧
        (∃ entry ∈ prover.cache.entries polarity.opposite,
          entry.representative.isEquiv e = true ∧ entry.proven = true) ∧
        (Oracle.query polarity e prover.oracle).1 = true) ∧
      ∀ fault, (lookup polarity e prover).1 = .error fault →
        fault = .inconsistent e.text ∧ (lookup polarity e prover).2.cache = prover.cache := by
  have consistent {table : NodeId → UInt64}
      (tabled : ∀ e ∈ questions.map Question.about, e.Tabled table) :
      (Prover.asked { oracle } questions).Consistent table := by
    apply (start_consistent oracle).asked
    intro question member
    exact tabled _ (List.mem_map_of_mem member)
  obtain ⟨table, tabled⟩ := identified.exists_table
  intro prover
  refine ⟨?_, (consistent tabled).exclusive .positive, ?_⟩
  · intro polarity
    apply (List.pairwise_map.mp ((consistent tabled).distinct polarity)).imp
    intro a b classes
    rw [← Bool.not_eq_true, Expr.is_equiv_iff_canon]
    exact classes
  · intro polarity e identified
    obtain ⟨table, tabled⟩ := identified.exists_table
    have asked := consistent fun e member => tabled e (by simp [member])
    exact ⟨asked.conflict_iff (tabled e (by simp)) polarity, fun _ failed => cache_of_fault failed⟩

/-- A solver that finds every term unsatisfiable proves `x`, and then the opposite of `(x)`. -/
theorem Prover.asked_is_consistent_after_proof :
    let solver : Solver Unit := .stateless fun _ _ => ⟨.ok .unsat, []⟩
    let x : Expr := .var 1 ⟨"x", .bool⟩
    let prover := Prover.asked { oracle := { solver, memory := () } } [.proven .positive x]
    Expr.Identified [.paren 2 x, x] ∧
    (lookup .negative (.paren 2 x) prover).1 = .error (.inconsistent "(x)") ∧
    (lookup .negative (.paren 2 x) prover).2.cache = prover.cache := by
  intro solver x
  have identified : Expr.Identified [.paren 2 x, x] := by
    simp [Expr.Identified, Expr.nodesOf, Expr.nodes, x, Expr.id, Expr.anonymous]
  have alone : Expr.Identified [x] := by
    simp [Expr.Identified, Expr.nodesOf, Expr.nodes, x]
  obtain ⟨_, _, lookups⟩ :=
    Prover.asked_is_consistent { solver, memory := () } [.proven .positive x] alone
  obtain ⟨reported, kept⟩ := lookups .negative (.paren 2 x) identified
  have cached : (Prover.asked { oracle := { solver, memory := () } } [.proven .positive x]).cache
      = { positive := [⟨(Memo.digest x {}).1, x, true⟩] } := rfl
  rw [cached] at reported
  have failed := reported.mpr ⟨by simp [Cache.entries],
    ⟨⟨(Memo.digest x {}).1, x, true⟩, by simp [Cache.entries, Polarity.opposite], by decide, rfl⟩,
    rfl⟩
  exact ⟨identified, failed, (kept _ failed).2⟩

end Questions

end Condense
