import Condense.Proofs.Enumeration

/-!
# Conditions proven to agree

Two conditions are proven to agree when no model tells their terms apart. The terms are made
one by one and then joined, and a model knows a variable by its name alone. Where every name
that stands in both conditions has one sort, a model of the joined term is a store for both
conditions, and conditions that are proven to agree do agree. Where a name is used at two
sorts, one of the conditions is tried on values that are not its own, and nothing follows.
-/

namespace Condense

set_option autoImplicit false

def Expr.beside (lhs rhs : Expr) : Expr :=
  .binary 0 .land lhs rhs

namespace Expr

variable {lhs rhs : Expr}

theorem mem_beside {v : Variable} :
    v ∈ (lhs.beside rhs).occurrences ↔ v ∈ lhs.occurrences ∨ v ∈ rhs.occurrences := by
  rw [beside, occurrences_binary, List.mem_append]

theorem Compatible.beside (left : lhs.Compatible lhs) (right : rhs.Compatible rhs)
    (compatible : lhs.Compatible rhs) : (lhs.beside rhs).Compatible (lhs.beside rhs) := by
  intro v member v' member' named
  rcases mem_beside.mp member with inLeft | inRight
  · rcases mem_beside.mp member' with inLeft' | inRight'
    · exact left v inLeft v' inLeft' named
    · exact compatible v inLeft v' inRight' named
  · rcases mem_beside.mp member' with inLeft' | inRight'
    · exact (compatible v' inLeft' v inRight named.symm).symm
    · exact right v inRight v' inRight' named

theorem agree_of_refuted {l r : Term} (left : lhs.encode = .ok l) (right : rhs.encode = .ok r)
    (compatible : lhs.Compatible rhs) (refuted : (Term.not (.eq l r)).IsRefuted) (store : Store) :
    Meaning.holds (lhs.value store) = Meaning.holds (rhs.value store) := by
  have both : (lhs.beside rhs).Compatible (lhs.beside rhs) :=
    (compatible_of_encode left).beside (compatible_of_encode right) compatible
  have assigned := both.model_in_assigns store
  have occurrences : (Term.not (.eq l r)).occurrences
      = (lhs.beside rhs).occurrences.map fun v => (v.name, v.ty.sort) := by
    rw [Term.occurrences, Term.occurrences, occurrences_of_encode left,
      occurrences_of_encode right, beside, occurrences_binary, List.map_append]
  have evaluates := Term.eval_not (Term.eval_eq
    (eval_of_encode left fun v member => assigned v (mem_beside.mpr (.inl member)))
    (eval_of_encode right fun v member => assigned v (mem_beside.mpr (.inr member))))
  have indistinct := refuted _ (both.model_in_fits occurrences store)
  rw [evaluates] at indistinct
  simpa using indistinct

end Expr

namespace Oracle

/-- Over the enumeration, conditions that are proven to agree have the same truth value under
every store, provided that a name they share has the same sort in both. -/
theorem prove_equivalent_sound (exhaustive : Exhaustive) (oracle : Oracle Unit)
    (enumerates : oracle.solver = exhaustive.toSolver) (lhs rhs : Expr)
    (compatible : lhs.Compatible rhs) (proven : (proveEquivalent lhs rhs oracle).1 = true)
    (store : Store) : Meaning.holds (lhs.value store) = Meaning.holds (rhs.value store) := by
  obtain ⟨l, r, left, right, unsat⟩ := (prove_equivalent_run lhs rhs oracle).mp proven
  rw [enumerates] at unsat
  exact Expr.agree_of_refuted left right compatible
    (exhaustive.to_solver_is_sound _ _ _ unsat) store

theorem prove_equivalent_sound_negation :
    let oracle : Oracle Unit := { solver := ({} : Exhaustive).toSolver, memory := () }
    let x : Expr := .var 0 ⟨"x", .bool⟩
    let twice : Expr := .unary 2 .lnot (.unary 1 .lnot x)
    x.Compatible twice ∧ (proveEquivalent x twice oracle).1 = true ∧
      ∀ store, Meaning.holds (x.value store) = Meaning.holds (twice.value store) := by
  intro oracle x twice
  have compatible : x.Compatible twice := by
    simp [Expr.Compatible, x, twice]
  have proven : (proveEquivalent x twice oracle).1 = true := by rfl
  exact ⟨compatible, proven, prove_equivalent_sound {} oracle rfl x twice compatible proven⟩

/-- A byte that is not zero and a boolean that equals itself are proven to agree when both are
called `x`: the byte is tried on booleans, none of which is a zero byte. -/
theorem prove_equivalent_of_two_sorts :
    let oracle : Oracle Unit := { solver := ({} : Exhaustive).toSolver, memory := () }
    let byte : Expr := .var 0 ⟨"x", .int 8 false⟩
    let flag : Expr := .var 3 ⟨"x", .bool⟩
    let nonzero : Expr := .binary 2 .ne byte (.lit 1 ⟨0, .int 8 false⟩)
    let same : Expr := .binary 4 .eq flag flag
    (proveEquivalent nonzero same oracle).1 = true ∧
      ¬∀ store, Meaning.holds (nonzero.value store) = Meaning.holds (same.value store) := by
  intro oracle byte flag nonzero same
  refine ⟨by rfl, ?_⟩
  intro agree
  have zero : Meaning.holds (nonzero.value .zeros) = false := by decide
  have always : Meaning.holds (same.value .zeros) = true := by decide
  rw [agree, always] at zero
  cases zero

end Oracle

end Condense
