import Condense.Proofs.Totality

/-!
# Enumeration decides satisfiability

Terms need not come from conditions here. A sorted term in which every name has one sort is
tried on every model that gives its constants values of their sorts, and has a truth value on
each, so the search ends with one of its two answers and never with a fault. Constants of
zero bits take part; they have one value. The clock is asked only at the numbers that the
search can come to.
-/

namespace Condense

set_option autoImplicit false

def Term.IsSatisfiable (t : Term) : Prop :=
  ∃ model : Model, model.Types t ∧ t.eval model = .ok (.bool true)

theorem SmtSort.value_inhabits {sort : SmtSort} (narrow : sort.bits ≤ 64) (number : Nat) :
    (sort.value number).Inhabits sort := by
  cases sort with
  | bool => exact .bool _
  | bitVec width => exact .of_word _ narrow

theorem Value.Inhabits.exists_bits {value : Value} {sort : SmtSort}
    (inhabits : value.Inhabits sort) (narrow : sort.bits ≤ 64) :
    ∃ bits : BitVec sort.bits, value = sort.value bits.toNat := by
  cases inhabits with
  | bool truth => exact ⟨BitVec.ofBool truth, by cases truth <;> rfl⟩
  | @bitVec word width fits =>
      have whole : width ≤ 64 := narrow
      refine ⟨BitVec.ofNat width word.toNat, ?_⟩
      rw [Value.bit_vec_eq_of_bits whole fits]
      exact (SmtSort.value_bit_vec _ whole).symm

namespace Term

variable {t : Term}

theorem Narrow.bits_le {constant : String × SmtSort} (narrow : t.Narrow)
    (member : constant ∈ t.occurrences) : constant.2.bits ≤ 64 := by
  obtain ⟨name, sort⟩ := constant
  cases sort with
  | bool => exact Nat.le_of_ble_eq_true rfl
  | bitVec width => exact narrow _ (mem_occurrences.mp member) width rfl

theorem Narrow.types_fits {model : Model} (narrow : t.Narrow) (single : t.SingleSorted)
    (types : model.Types t) : model.Fits t := by
  intro constant member
  have occurs := (single.mem_constants constant).mp member
  obtain ⟨value, assigned, inhabits⟩ := types constant occurs
  obtain ⟨bits, rfl⟩ := inhabits.exists_bits (narrow.bits_le occurs)
  exact ⟨bits, assigned⟩

theorem Narrow.types_numbered (narrow : t.Narrow) (single : t.SingleSorted) (number : Nat) :
    Model.Types (t.constants.model number) t := by
  intro constant occurs
  obtain ⟨store, numbers⟩ := Constants.exists_store t.constants_ascending number
  exact ⟨_, numbers constant ((single.mem_constants constant).mpr occurs),
    SmtSort.value_inhabits (narrow.bits_le occurs) _⟩

theorem Narrow.satisfiable_iff (narrow : t.Narrow) (single : t.SingleSorted) :
    t.IsSatisfiable ↔
      ∃ number, number < t.constants.count ∧
        t.eval (t.constants.model number) = .ok (.bool true) := by
  constructor
  · intro satisfiable
    rcases satisfiable with ⟨model, types, holds⟩
    obtain ⟨number, small, same⟩ := (narrow.types_fits single types).exists_number
    exact ⟨number, small, same ▸ holds⟩
  · intro found
    rcases found with ⟨number, small, holds⟩
    exact ⟨_, narrow.types_numbered single number, holds⟩

end Term

theorem Constants.count_eq (constants : Constants) : constants.count = 2 ^ constants.bits := by
  induction constants with
  | nil => rfl
  | cons first rest ih =>
      rw [Constants.count, Constants.bits, ih, Nat.shiftLeft_eq, Nat.add_comm, Nat.pow_add]

namespace Exhaustive

section Search

variable {late : Nat → Bool} {t : Term} {constants : Constants}

theorem search_eq_sat {number left k : Nat}
    (punctual : ∀ j, number ≤ j → j < number + left → late j = false)
    (decided : ∀ j, number ≤ j → j < number + left →
      ∃ truth, t.eval (constants.model j) = .ok (.bool truth))
    (lower : number ≤ k) (upper : k < number + left)
    (holds : t.eval (constants.model k) = .ok (.bool true)) :
    search late t constants number left = .ok .sat := by
  induction left generalizing number with
  | zero => omega
  | succ left ih =>
      have inTime := punctual number (Nat.le_refl _) (by omega)
      obtain ⟨truth, evaluates⟩ := decided number (Nat.le_refl _) (by omega)
      rw [search, if_neg (by simp [inTime]), evaluates]
      cases truth with
      | true => rfl
      | false =>
          -- Refuted here, so the number that makes the term true is still ahead.
          have later : number ≠ k := by
            intro same
            rw [same, holds] at evaluates
            cases evaluates
          exact ih (fun j lower upper => punctual j (by omega) (by omega))
            (fun j lower upper => decided j (by omega) (by omega)) (by omega) (by omega)

end Search

/-- A term of sort `Bool` is decided when it is narrow enough and time does not run out, and
refused, before the clock is read, when it is not narrow enough. -/
theorem check_decides (solver : Exhaustive) (strategy : Strategy) (t : Term)
    (sorted : t.sort = .ok .bool) (single : t.SingleSorted) (narrow : t.Narrow) :
    (t.freeBits ≤ solver.maxBits ∧ t.freeBits < 64 →
      (∀ number < 2 ^ t.freeBits, solver.isLate strategy number = false) →
      (t.IsSatisfiable → solver.check t strategy = .ok .sat) ∧
      (¬t.IsSatisfiable → solver.check t strategy = .ok .unsat)) ∧
    (¬(t.freeBits ≤ solver.maxBits ∧ t.freeBits < 64) →
      solver.check t strategy = .error (.exhausted (toString t.freeBits
        ++ " free bits exceeds the limit of " ++ toString solver.maxBits))) := by
  have total : t.constants.count = 2 ^ t.freeBits := by
    rw [Constants.count_eq, single.bits_constants]
  have decided (k : Nat) : ∃ truth, t.eval (t.constants.model k) = .ok (.bool truth) := by
    obtain ⟨truth, settles⟩ := ((Term.sort_eq_ok.mp sorted).delivers
      ⟨narrow, narrow.types_numbered single k⟩).truth
    exact ⟨truth, settles.evaluates⟩
  unfold check
  dsimp only
  rw [single.bits_constants, narrow.satisfiable_iff single]
  constructor
  · intro small punctual
    have inTime : ∀ k, 0 ≤ k → k < 0 + t.constants.count →
        solver.isLate strategy k = false := by
      intro k _ upper
      exact punctual k (by omega)
    rw [if_neg (by omega)]
    constructor
    · intro satisfiable
      rcases satisfiable with ⟨k, upper, holds⟩
      exact search_eq_sat inTime (fun j _ _ => decided j) (Nat.zero_le k) (by omega) holds
    · intro refuted
      rw [search_eq_unsat inTime]
      intro k _ upper
      obtain ⟨truth, evaluates⟩ := decided k
      cases truth with
      | true => exact absurd ⟨k, by omega, evaluates⟩ refuted
      | false => exact evaluates
  · intro wide
    rw [if_pos (by omega)]

/-- A boolean, a constant of no bits and one of three bits are four bits together. Three bits may
be negative and are never below zero unsigned. -/
theorem check_decides_mixed :
    let solver (maxBits : Nat) : Exhaustive := { maxBits }
    let x : Term := .const "x" (.bitVec 3)
    let none : Term := .const "e" (.bitVec 0)
    let negative : Term :=
      .and (.const "b" .bool) (.and (.eq none none) (.bvCompare .slt x (.bitVec 0 3)))
    let below : Term := .bvCompare .ult x (.bitVec 0 3)
    (solver 4).check negative .standard = .ok .sat ∧
      (solver 4).check below .standard = .ok .unsat ∧
      (solver 3).check negative .standard
        = .error (.exhausted "4 free bits exceeds the limit of 3") := by
  intro solver x none negative below
  have punctual (number : Nat) : (solver 4).isLate .standard number = false := by
    have clock : (solver 4).isLate .standard number
        = (number % 1024 == 0 && (1000 : UInt64) == 0) := rfl
    rw [clock, Bool.and_eq_false_iff]
    exact .inr (by decide)
  have decidesNegative (maxBits : Nat) := check_decides (solver maxBits) .standard negative rfl
    (by decide) (by decide)
  have decidesBelow := check_decides (solver 4) .standard below rfl (by decide) (by decide)
  refine ⟨?_, ?_, ?_⟩
  · apply ((decidesNegative 4).1 (by decide) fun number _ => punctual number).1
    refine ⟨fun name => if name = "b" then some (.bool true)
      else if name = "e" then some (.bitVec 0 0) else some (.bitVec 4 3), ?_, by decide⟩
    intro constant member
    have found : constant = ("b", .bool) ∨ constant = ("e", .bitVec 0)
        ∨ constant = ("x", .bitVec 3) := by
      simpa [negative, none, x, Term.occurrences] using member
    rcases found with rfl | rfl | rfl
    · exact ⟨.bool true, rfl, .bool true⟩
    · exact ⟨.bitVec 0 0, rfl, .bitVec (by decide)⟩
    · exact ⟨.bitVec 4 3, rfl, .bitVec (by decide)⟩
  · apply (decidesBelow.1 (by decide) fun number _ => punctual number).2
    intro satisfiable
    rcases satisfiable with ⟨model, types, holds⟩
    obtain ⟨value, assigned, inhabits⟩ := types ("x", .bitVec 3) (by decide)
    cases inhabits with
    | @bitVec word width fits =>
        have known : x.eval model = .ok (.bitVec word 3) := by rw [Term.eval, assigned]
        rw [Term.eval_compare_word model .ult known rfl] at holds
        injection holds with truth
        injection truth with less
        have impossible : word < 0 := of_decide_eq_true less
        exact UInt64.not_lt_zero impossible
  · exact ((decidesNegative 3).2 (by decide)).trans (by decide)

end Exhaustive

end Condense
