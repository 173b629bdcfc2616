import Condense.Term.Sorting

/-!
# Sorts by rules

`t.Sorted sort` says that `t` has the sort, by one rule for each kind of node, and
`Term.sort` finds a sort exactly where there is one by the rules. Proofs about sorted terms
go by induction on the rules and do not open `Term.sort` again.
-/

namespace Condense.Term

set_option autoImplicit false

inductive Sorted : Term → SmtSort → Prop where
  | bool {value : Bool} : Sorted (.bool value) .bool
  | bitVec {value : UInt64} {bits : Nat} : Sorted (.bitVec value bits) (.bitVec bits)
  | const {name : String} {sort : SmtSort} : Sorted (.const name sort) sort
  | not {t : Term} (operand : Sorted t .bool) : Sorted (.not t) .bool
  | and {l r : Term} (left : Sorted l .bool) (right : Sorted r .bool) : Sorted (.and l r) .bool
  | or {l r : Term} (left : Sorted l .bool) (right : Sorted r .bool) : Sorted (.or l r) .bool
  | xor {l r : Term} (left : Sorted l .bool) (right : Sorted r .bool) : Sorted (.xor l r) .bool
  | eq {l r : Term} {sort : SmtSort} (left : Sorted l sort) (right : Sorted r sort) :
      Sorted (.eq l r) .bool
  | ite {c yes no : Term} {sort : SmtSort} (condition : Sorted c .bool)
      (positive : Sorted yes sort) (negative : Sorted no sort) : Sorted (.ite c yes no) sort
  | bvUnary {op : BvUnary} {t : Term} {bits : Nat} (operand : Sorted t (.bitVec bits)) :
      Sorted (.bvUnary op t) (.bitVec bits)
  | bvBinary {op : BvBinary} {l r : Term} {bits : Nat} (left : Sorted l (.bitVec bits))
      (right : Sorted r (.bitVec bits)) : Sorted (.bvBinary op l r) (.bitVec bits)
  | bvCompare {op : BvCompare} {l r : Term} {bits : Nat} (left : Sorted l (.bitVec bits))
      (right : Sorted r (.bitVec bits)) : Sorted (.bvCompare op l r) .bool
  | extract {high low bits : Nat} {t : Term} (ordered : low ≤ high) (inside : high < bits)
      (operand : Sorted t (.bitVec bits)) :
      Sorted (.extract high low t) (.bitVec (high - low + 1))
  | zeroExtend {extra bits : Nat} {t : Term} (operand : Sorted t (.bitVec bits)) :
      Sorted (.zeroExtend extra t) (.bitVec (bits + extra))
  | signExtend {extra bits : Nat} {t : Term} (operand : Sorted t (.bitVec bits)) :
      Sorted (.signExtend extra t) (.bitVec (bits + extra))

section Demands

variable {α : Type} {t : Term} {b : α}

theorem sort_bind_eq_ok {next : SmtSort → Except Fault α} :
    (t.sort >>= next) = .ok b ↔ ∃ sort, t.sort = .ok sort ∧ next sort = .ok b := by
  cases t.sort with
  | error fault => simp [bind, Except.bind]
  | ok sort => simp [bind, Except.bind]

theorem demand_bind_eq_ok {wanted : SmtSort} {next : Except Fault α} :
    (t.sort >>= fun actual => t.demand wanted actual >>= fun _ => next) = .ok b ↔
      t.sort = .ok wanted ∧ next = .ok b := by
  rw [sort_bind_eq_ok]
  constructor
  · intro found
    rcases found with ⟨actual, sorted, rest⟩
    by_cases same : actual = wanted
    · rw [demand, if_pos same] at rest
      exact ⟨same ▸ sorted, rest⟩
    · rw [demand, if_neg same] at rest
      cases rest
  · intro found
    rcases found with ⟨sorted, rest⟩
    refine ⟨wanted, sorted, ?_⟩
    rw [demand, if_pos rfl]
    exact rest

theorem demand_bits_bind_eq_ok {next : Nat → Except Fault α} :
    (t.sort >>= fun actual => t.demandBits actual >>= next) = .ok b ↔
      ∃ bits, t.sort = .ok (.bitVec bits) ∧ next bits = .ok b := by
  rw [sort_bind_eq_ok]
  constructor
  · intro found
    rcases found with ⟨actual, sorted, rest⟩
    cases actual with
    | bool => cases rest
    | bitVec bits => exact ⟨bits, sorted, rest⟩
  · intro found
    rcases found with ⟨bits, sorted, rest⟩
    exact ⟨.bitVec bits, sorted, rest⟩

end Demands

theorem sorted_of_sort {t : Term} {sort : SmtSort} (success : t.sort = .ok sort) :
    t.Sorted sort := by
  induction t generalizing sort with
  | bool value =>
      cases success
      exact .bool
  | bitVec value bits =>
      cases success
      exact .bitVec
  | const name declared =>
      cases success
      exact .const
  | not t ih =>
      obtain ⟨operand, result⟩ := demand_bind_eq_ok.mp success
      cases result
      exact .not (ih operand)
  | and l r ihLeft ihRight =>
      obtain ⟨left, success⟩ := demand_bind_eq_ok.mp success
      obtain ⟨right, result⟩ := demand_bind_eq_ok.mp success
      cases result
      exact .and (ihLeft left) (ihRight right)
  | or l r ihLeft ihRight =>
      obtain ⟨left, success⟩ := demand_bind_eq_ok.mp success
      obtain ⟨right, result⟩ := demand_bind_eq_ok.mp success
      cases result
      exact .or (ihLeft left) (ihRight right)
  | xor l r ihLeft ihRight =>
      obtain ⟨left, success⟩ := demand_bind_eq_ok.mp success
      obtain ⟨right, result⟩ := demand_bind_eq_ok.mp success
      cases result
      exact .xor (ihLeft left) (ihRight right)
  | eq l r ihLeft ihRight =>
      obtain ⟨wanted, left, success⟩ := sort_bind_eq_ok.mp success
      obtain ⟨right, result⟩ := demand_bind_eq_ok.mp success
      cases result
      exact .eq (ihLeft left) (ihRight right)
  | ite c yes no ihCondition ihPositive ihNegative =>
      obtain ⟨condition, success⟩ := demand_bind_eq_ok.mp success
      obtain ⟨wanted, positive, success⟩ := sort_bind_eq_ok.mp success
      obtain ⟨negative, result⟩ := demand_bind_eq_ok.mp success
      cases result
      exact .ite (ihCondition condition) (ihPositive positive) (ihNegative negative)
  | bvUnary op t ih =>
      obtain ⟨bits, operand, result⟩ := demand_bits_bind_eq_ok.mp success
      cases result
      exact .bvUnary (ih operand)
  | bvBinary op l r ihLeft ihRight =>
      obtain ⟨bits, left, success⟩ := demand_bits_bind_eq_ok.mp success
      obtain ⟨right, result⟩ := demand_bind_eq_ok.mp success
      cases result
      exact .bvBinary (ihLeft left) (ihRight right)
  | bvCompare op l r ihLeft ihRight =>
      obtain ⟨bits, left, success⟩ := demand_bits_bind_eq_ok.mp success
      obtain ⟨right, result⟩ := demand_bind_eq_ok.mp success
      cases result
      exact .bvCompare (ihLeft left) (ihRight right)
  | extract high low t ih =>
      obtain ⟨bits, operand, result⟩ := demand_bits_bind_eq_ok.mp success
      split at result
      · next bounds =>
          cases result
          exact .extract bounds.1 bounds.2 (ih operand)
      · cases result
  | zeroExtend extra t ih =>
      obtain ⟨bits, operand, result⟩ := demand_bits_bind_eq_ok.mp success
      cases result
      exact .zeroExtend (ih operand)
  | signExtend extra t ih =>
      obtain ⟨bits, operand, result⟩ := demand_bits_bind_eq_ok.mp success
      cases result
      exact .signExtend (ih operand)

theorem Sorted.sort_eq {t : Term} {sort : SmtSort} (derivation : t.Sorted sort) :
    t.sort = .ok sort := by
  induction derivation with
  | bool => rfl
  | bitVec => rfl
  | const => rfl
  | not operand ih => exact demand_bind_eq_ok.mpr ⟨ih, rfl⟩
  | and left right ihLeft ihRight =>
      exact demand_bind_eq_ok.mpr ⟨ihLeft, demand_bind_eq_ok.mpr ⟨ihRight, rfl⟩⟩
  | or left right ihLeft ihRight =>
      exact demand_bind_eq_ok.mpr ⟨ihLeft, demand_bind_eq_ok.mpr ⟨ihRight, rfl⟩⟩
  | xor left right ihLeft ihRight =>
      exact demand_bind_eq_ok.mpr ⟨ihLeft, demand_bind_eq_ok.mpr ⟨ihRight, rfl⟩⟩
  | eq left right ihLeft ihRight =>
      exact sort_bind_eq_ok.mpr ⟨_, ihLeft, demand_bind_eq_ok.mpr ⟨ihRight, rfl⟩⟩
  | ite condition positive negative ihCondition ihPositive ihNegative =>
      exact demand_bind_eq_ok.mpr ⟨ihCondition, sort_bind_eq_ok.mpr
        ⟨_, ihPositive, demand_bind_eq_ok.mpr ⟨ihNegative, rfl⟩⟩⟩
  | bvUnary operand ih => exact demand_bits_bind_eq_ok.mpr ⟨_, ih, rfl⟩
  | bvBinary left right ihLeft ihRight =>
      exact demand_bits_bind_eq_ok.mpr ⟨_, ihLeft, demand_bind_eq_ok.mpr ⟨ihRight, rfl⟩⟩
  | bvCompare left right ihLeft ihRight =>
      exact demand_bits_bind_eq_ok.mpr ⟨_, ihLeft, demand_bind_eq_ok.mpr ⟨ihRight, rfl⟩⟩
  | extract ordered inside operand ih =>
      exact demand_bits_bind_eq_ok.mpr ⟨_, ih, if_pos ⟨ordered, inside⟩⟩
  | zeroExtend operand ih => exact demand_bits_bind_eq_ok.mpr ⟨_, ih, rfl⟩
  | signExtend operand ih => exact demand_bits_bind_eq_ok.mpr ⟨_, ih, rfl⟩

theorem sort_eq_ok {t : Term} {sort : SmtSort} : t.sort = .ok sort ↔ t.Sorted sort :=
  ⟨sorted_of_sort, Sorted.sort_eq⟩

theorem Sorted.unique {t : Term} {first second : SmtSort} (left : t.Sorted first)
    (right : t.Sorted second) : first = second := by
  have same := left.sort_eq
  rw [right.sort_eq] at same
  exact (Except.ok.inj same).symm

end Condense.Term
