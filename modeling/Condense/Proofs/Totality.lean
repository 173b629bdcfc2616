import Condense.Proofs.Enumeration
import Condense.Proofs.Guards
import Condense.Proofs.Sorts

/-!
# Sorted terms evaluate

A term that has a sort, and no bit-vector wider than a word, evaluates to a value of its
sort under every model whose constants have the sorts that the term gives them. A machine
that may stop at a shift, a difference or a division comes to the same value, and nothing but
the free constants decides it. Widths of zero bits are covered. Where a term uses one name
at two sorts, no model has the sorts that the term gives.
-/

namespace Condense

set_option autoImplicit false

/-- The value is one of the sort and has no bits above its width. -/
inductive Value.Inhabits : Value → SmtSort → Prop where
  | bool (truth : Bool) : Inhabits (.bool truth) .bool
  | bitVec {word : UInt64} {width : Nat} (fits : word.toNat < 2 ^ width) :
      Inhabits (.bitVec word width) (.bitVec width)

def Model.Types (model : Model) (t : Term) : Prop :=
  ∀ constant ∈ t.occurrences, ∃ value, model constant.1 = some value ∧ value.Inhabits constant.2

def Term.Narrow (t : Term) : Prop :=
  ∀ s ∈ t.subterms, ∀ width, s.sort = .ok (.bitVec width) → width ≤ 64

instance (t : Term) : Decidable t.Narrow :=
  decidable_of_iff (∀ s ∈ t.subterms, ∀ sort ∈ s.sort.toOption, sort.bits ≤ 64) (by
    apply forall₂_congr
    intro s member
    cases s.sort with
    | error fault => simp [Except.toOption]
    | ok sort => cases sort <;> simp [Except.toOption, SmtSort.bits])

namespace Value.Inhabits

theorem of_word (word : UInt64) {width : Nat} (narrow : width ≤ 64) :
    (Value.ofWord word width).Inhabits (.bitVec width) := by
  apply Inhabits.bitVec
  rw [Word.truncate_to_nat word width narrow]
  exact Nat.mod_lt _ (Nat.two_pow_pos width)

end Value.Inhabits

theorem Term.Sorted.width_le {t : Term} {width : Nat} (derivation : t.Sorted (.bitVec width))
    (narrow : t.Narrow) : width ≤ 64 :=
  narrow t t.self_mem_subterms width derivation.sort_eq

structure Suits (model : Model) (t : Term) : Prop where
  narrow : t.Narrow
  types : model.Types t

theorem Suits.inside {model : Model} {s t : Term} (suits : Suits model t)
    (within : ∀ u ∈ s.subterms, u ∈ t.subterms) : Suits model s := by
  constructor
  · intro u member
    exact suits.narrow u (within u member)
  · intro constant member
    apply suits.types constant
    exact Term.mem_occurrences.mpr (within _ (Term.mem_occurrences.mp member))

/-- The term has the value, and a machine that may stop does not stop on the way to it. -/
structure Settles (model : Model) (t : Term) (value : Value) : Prop where
  evaluates : t.eval model = .ok value
  proceeds : Guarded.eval model t = some (.ok value)

def Delivers (model : Model) (t : Term) (sort : SmtSort) : Prop :=
  ∃ value : Value, value.Inhabits sort ∧ Settles model t value

namespace Delivers

variable {model : Model} {t : Term}

theorem of_truth {truth : Bool} (settles : Settles model t (.bool truth)) :
    Delivers model t .bool :=
  ⟨_, .bool truth, settles⟩

theorem of_word {word : UInt64} {width : Nat} (narrow : width ≤ 64)
    (settles : Settles model t (.ofWord word width)) : Delivers model t (.bitVec width) :=
  ⟨_, .of_word word narrow, settles⟩

theorem truth (delivers : Delivers model t .bool) : ∃ truth, Settles model t (.bool truth) := by
  obtain ⟨value, inhabits, settles⟩ := delivers
  cases inhabits with
  | bool truth => exact ⟨truth, settles⟩

theorem word {width : Nat} (delivers : Delivers model t (.bitVec width)) :
    ∃ word, Settles model t (.bitVec word width) := by
  obtain ⟨value, inhabits, settles⟩ := delivers
  cases inhabits with
  | bitVec fits => exact ⟨_, settles⟩

theorem const {name : String} {sort : SmtSort} (suits : Suits model (.const name sort)) :
    Delivers model (.const name sort) sort := by
  obtain ⟨value, assigned, inhabits⟩ := suits.types (name, sort) (by simp [Term.occurrences])
  refine ⟨value, inhabits, ?_, ?_⟩
  · rw [Term.eval, assigned]
  · rw [Guarded.eval, assigned]
    rfl

theorem bitVec {word : UInt64} {width : Nat} (narrow : width ≤ 64) :
    Delivers model (.bitVec word width) (.bitVec width) := by
  apply of_word narrow
  exact ⟨rfl, Guarded.lift_of_some (Guarded.of_word_eq word width)⟩

theorem ite {c yes no : Term} {sort : SmtSort} (condition : Delivers model c .bool)
    (positive : Delivers model yes sort) (negative : Delivers model no sort) :
    Delivers model (.ite c yes no) sort := by
  obtain ⟨truth, decides⟩ := condition.truth
  obtain ⟨x, inhabitsYes, first⟩ := positive
  obtain ⟨y, inhabitsNo, second⟩ := negative
  have evaluates : (Term.ite c yes no).eval model = _ := Term.eval_ite decides.evaluates
  have proceeds : Guarded.eval model (.ite c yes no) = _ := Guarded.eval_ite decides.proceeds
  cases truth with
  | true =>
      exact ⟨x, inhabitsYes, evaluates.trans first.evaluates, proceeds.trans first.proceeds⟩
  | false =>
      exact ⟨y, inhabitsNo, evaluates.trans second.evaluates, proceeds.trans second.proceeds⟩

end Delivers

/-- A truth value or a word comes of each operand, by its sort, and the operator does the
rest. That the term is narrow matters where a width is made: at the leaves, at the bounds of
a part and at extensions. -/
theorem Term.Sorted.delivers {model : Model} {t : Term} {sort : SmtSort}
    (derivation : t.Sorted sort) (suits : Suits model t) : Delivers model t sort := by
  induction derivation with
  | bool => exact .of_truth ⟨rfl, rfl⟩
  | bitVec => exact .bitVec (Term.Sorted.bitVec.width_le suits.narrow)
  | const => exact .const suits
  | not operand ih =>
      obtain ⟨truth, settles⟩ := (ih (suits.inside (by simp +contextual [subterms]))).truth
      exact .of_truth ⟨eval_not settles.evaluates, Guarded.eval_not settles.proceeds⟩
  | and left right ihLeft ihRight =>
      obtain ⟨lhs, first⟩ := (ihLeft (suits.inside (by simp +contextual [subterms]))).truth
      obtain ⟨rhs, second⟩ := (ihRight (suits.inside (by simp +contextual [subterms]))).truth
      exact .of_truth ⟨eval_and first.evaluates second.evaluates,
        Guarded.eval_and first.proceeds second.proceeds⟩
  | or left right ihLeft ihRight =>
      obtain ⟨lhs, first⟩ := (ihLeft (suits.inside (by simp +contextual [subterms]))).truth
      obtain ⟨rhs, second⟩ := (ihRight (suits.inside (by simp +contextual [subterms]))).truth
      exact .of_truth ⟨eval_or first.evaluates second.evaluates,
        Guarded.eval_or first.proceeds second.proceeds⟩
  | xor left right ihLeft ihRight =>
      obtain ⟨lhs, first⟩ := (ihLeft (suits.inside (by simp +contextual [subterms]))).truth
      obtain ⟨rhs, second⟩ := (ihRight (suits.inside (by simp +contextual [subterms]))).truth
      exact .of_truth ⟨eval_xor first.evaluates second.evaluates,
        Guarded.eval_xor first.proceeds second.proceeds⟩
  | eq left right ihLeft ihRight =>
      obtain ⟨x, _, first⟩ := ihLeft (suits.inside (by simp +contextual [subterms]))
      obtain ⟨y, _, second⟩ := ihRight (suits.inside (by simp +contextual [subterms]))
      exact .of_truth ⟨eval_eq first.evaluates second.evaluates,
        Guarded.eval_eq first.proceeds second.proceeds⟩
  | ite condition positive negative ihCondition ihPositive ihNegative =>
      exact .ite (ihCondition (suits.inside (by simp +contextual [subterms])))
        (ihPositive (suits.inside (by simp +contextual [subterms])))
        (ihNegative (suits.inside (by simp +contextual [subterms])))
  | bvUnary operand ih =>
      obtain ⟨word, settles⟩ := (ih (suits.inside (by simp +contextual [subterms]))).word
      exact .of_word ((Term.Sorted.bvUnary operand).width_le suits.narrow)
        ⟨eval_unary_word model _ settles.evaluates, Guarded.eval_unary _ settles.proceeds⟩
  | bvBinary left right ihLeft ihRight =>
      obtain ⟨lhs, first⟩ := (ihLeft (suits.inside (by simp +contextual [subterms]))).word
      obtain ⟨rhs, second⟩ := (ihRight (suits.inside (by simp +contextual [subterms]))).word
      exact .of_word ((Term.Sorted.bvBinary left right).width_le suits.narrow)
        ⟨eval_binary_word model _ first.evaluates second.evaluates,
          Guarded.eval_binary _ first.proceeds second.proceeds⟩
  | bvCompare left right ihLeft ihRight =>
      obtain ⟨lhs, first⟩ := (ihLeft (suits.inside (by simp +contextual [subterms]))).word
      obtain ⟨rhs, second⟩ := (ihRight (suits.inside (by simp +contextual [subterms]))).word
      exact .of_truth ⟨eval_compare_word model _ first.evaluates second.evaluates,
        Guarded.eval_compare _ first.proceeds second.proceeds⟩
  | @extract high low bits t ordered inside operand ih =>
      have within : Suits model t := suits.inside (by simp +contextual [subterms])
      have narrow := operand.width_le within.narrow
      obtain ⟨word, settles⟩ := (ih within).word
      exact .of_word (by omega) ⟨eval_extract_word model high low settles.evaluates,
        Guarded.eval_extract ordered (by omega) settles.proceeds⟩
  | zeroExtend operand ih =>
      have narrow := (Term.Sorted.zeroExtend operand).width_le suits.narrow
      obtain ⟨word, settles⟩ := (ih (suits.inside (by simp +contextual [subterms]))).word
      exact .of_word narrow ⟨eval_zero_extend_word model _ settles.evaluates,
        Guarded.eval_zero_extend narrow settles.proceeds⟩
  | signExtend operand ih =>
      have narrow := (Term.Sorted.signExtend operand).width_le suits.narrow
      obtain ⟨word, settles⟩ := (ih (suits.inside (by simp +contextual [subterms]))).word
      exact .of_word narrow ⟨eval_sign_extend_word model _ settles.evaluates,
        Guarded.eval_sign_extend narrow settles.proceeds⟩

/-- A sorted term has a value of its sort, which a machine that may stop comes to as well, and
which only the values of the free constants decide. -/
theorem Term.eval_sorted (t : Term) (sort : SmtSort) (model : Model)
    (sorted : t.sort = .ok sort) (narrow : t.Narrow) (typed : model.Types t) :
    ∃ value : Value, t.eval model = .ok value ∧ value.Inhabits sort ∧
      Guarded.eval model t = some (.ok value) ∧
      ∀ other : Model, (∀ constant ∈ t.constants, other constant.1 = model constant.1) →
        t.eval other = .ok value := by
  obtain ⟨value, inhabits, settles⟩ := (sort_eq_ok.mp sorted).delivers ⟨narrow, typed⟩
  refine ⟨value, settles.evaluates, inhabits, settles.proceeds, ?_⟩
  intro other agrees
  rw [← settles.evaluates]
  apply eval_congr
  intro constant occurs
  obtain ⟨known, member⟩ := name_mem_constants occurs
  exact agrees (constant.1, known) member

/-- The upper byte of the least number, extended to a word and shifted by the size of a word, is
all sign; a constant that does not occur may have any value. -/
theorem Term.eval_sorted_sign :
    let byte : Term := .extract 15 8 (.const "x" (.bitVec 16))
    let t : Term := .bvBinary .ashr (.signExtend 56 byte) (.const "n" (.bitVec 64))
    let model : Model := fun name =>
      if name = "x" then some (.bitVec 0x8000 16)
      else if name = "n" then some (.bitVec 64 64) else none
    let other : Model := fun name => if name = "y" then some (.bool true) else model name
    Guarded.eval model t = some (.ok (.bitVec 0xffffffffffffffff 64)) ∧
      t.eval other = .ok (.bitVec 0xffffffffffffffff 64) := by
  intro byte t model other
  have typed : model.Types t := by
    intro constant member
    have found : constant = ("x", .bitVec 16) ∨ constant = ("n", .bitVec 64) := by
      simpa [t, byte, occurrences] using member
    rcases found with rfl | rfl
    · exact ⟨.bitVec 0x8000 16, rfl, .bitVec (by decide)⟩
    · exact ⟨.bitVec 64 64, rfl, .bitVec (by decide)⟩
  have agrees : ∀ constant ∈ t.constants, other constant.1 = model constant.1 := by decide
  have known : t.eval model = .ok (.bitVec 0xffffffffffffffff 64) := by decide
  obtain ⟨value, evaluates, inhabits, proceeds, decides⟩ :=
    Term.eval_sorted t (.bitVec 64) model rfl (by decide) typed
  rw [known] at evaluates
  cases evaluates
  exact ⟨proceeds, decides other agrees⟩

end Condense
