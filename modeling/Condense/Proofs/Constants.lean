import Condense.Proofs.Answers
import Mathlib.Data.List.Dedup

/-!
# Free constants of encoded conditions

`Term.constants` keeps one entry for each name, in the order of the names. For the term of
a condition the entries are the variables of the condition, each name once, so the free
bits of the term are the widths of the condition's variables added up.
-/

namespace Condense

set_option autoImplicit false

namespace Constants

def Ascending (constants : Constants) : Prop :=
  constants.Pairwise fun first second => first.1 < second.1

theorem Ascending.name_ne {first constant : String × SmtSort} {rest : Constants}
    (ascending : Constants.Ascending (first :: rest)) (member : constant ∈ rest) :
    constant.1 ≠ first.1 := by
  intro same
  have above := (List.pairwise_cons.mp ascending).1 constant member
  rw [same] at above
  exact String.lt_irrefl _ above

theorem mem_set {constants : Constants} (name : String) (sort : SmtSort)
    (ascending : constants.Ascending) (constant : String × SmtSort) :
    constant ∈ constants.set name sort ↔
      constant = (name, sort) ∨ constant.1 ≠ name ∧ constant ∈ constants := by
  induction constants with
  | nil => simp [Constants.set]
  | cons first rest ih =>
      obtain ⟨other, existing⟩ := first
      obtain ⟨above, tail⟩ := List.pairwise_cons.mp ascending
      rw [Constants.set]
      by_cases same : name = other
      · rw [if_pos same, List.mem_cons, List.mem_cons]
        constructor
        · intro found
          rcases found with rfl | member
          · exact .inl rfl
          · exact .inr ⟨same ▸ ascending.name_ne member, .inr member⟩
        · intro found
          rcases found with rfl | ⟨different, rfl | member⟩
          · exact .inl rfl
          · exact absurd same.symm different
          · exact .inr member
      rw [if_neg same]
      by_cases before : name < other
      · rw [if_pos before, List.mem_cons]
        constructor
        · intro found
          rcases found with rfl | member
          · exact .inl rfl
          · refine .inr ⟨?_, member⟩
            intro same
            subst same
            rcases List.mem_cons.mp member with rfl | member
            · exact same rfl
            · exact String.lt_irrefl _ (String.lt_trans before (above _ member))
        · intro found
          rcases found with rfl | ⟨different, member⟩
          · exact .inl rfl
          · exact .inr member
      · rw [if_neg before, List.mem_cons, ih tail, List.mem_cons]
        constructor
        · intro found
          rcases found with rfl | rfl | ⟨different, member⟩
          · exact .inr ⟨fun equal => same equal.symm, .inl rfl⟩
          · exact .inl rfl
          · exact .inr ⟨different, .inr member⟩
        · intro found
          rcases found with rfl | ⟨different, rfl | member⟩
          · exact .inr (.inl rfl)
          · exact .inl rfl
          · exact .inr (.inr ⟨different, member⟩)

theorem ascending_set {constants : Constants} (name : String) (sort : SmtSort)
    (ascending : constants.Ascending) : (constants.set name sort).Ascending := by
  induction constants with
  | nil => exact List.pairwise_singleton _ _
  | cons first rest ih =>
      obtain ⟨other, existing⟩ := first
      obtain ⟨above, tail⟩ := List.pairwise_cons.mp ascending
      rw [Constants.set]
      by_cases same : name = other
      · rw [if_pos same, same]
        exact List.pairwise_cons.mpr ⟨above, tail⟩
      rw [if_neg same]
      by_cases before : name < other
      · rw [if_pos before]
        refine List.pairwise_cons.mpr ⟨?_, ascending⟩
        intro c member
        rcases List.mem_cons.mp member with rfl | member
        · exact before
        · exact String.lt_trans before (above c member)
      · rw [if_neg before]
        have after : other < name := by
          rcases Decidable.em (other < name) with less | notLess
          · exact less
          · exact absurd (String.le_antisymm (String.not_lt.mp notLess) (String.not_lt.mp before))
              same
        refine List.pairwise_cons.mpr ⟨?_, ih tail⟩
        intro c member
        rcases (mem_set name sort tail c).mp member with rfl | ⟨_, member⟩
        · exact after
        · exact above c member

theorem Ascending.nodup {constants : Constants} (ascending : constants.Ascending) :
    constants.Nodup := by
  apply ascending.imp
  intro first second before same
  subst same
  exact String.lt_irrefl _ before

theorem bits_eq_sum (constants : Constants) :
    constants.bits = (constants.map fun constant => constant.2.bits).sum := by
  induction constants with
  | nil => rfl
  | cons first rest ih => rw [Constants.bits, ih, List.map_cons, List.sum_cons]

end Constants

namespace Term

def occurrences : Term → List (String × SmtSort)
  | bool _ | bitVec _ _ => []
  | const name sort => [(name, sort)]
  | not t | bvUnary _ t | extract _ _ t | zeroExtend _ t | signExtend _ t => t.occurrences
  | and l r | or l r | xor l r | eq l r | bvBinary _ l r | bvCompare _ l r =>
      l.occurrences ++ r.occurrences
  | ite c yes no => c.occurrences ++ (yes.occurrences ++ no.occurrences)

def subterms : Term → List Term
  | bool value => [bool value]
  | bitVec value bits => [bitVec value bits]
  | const name sort => [const name sort]
  | not t => not t :: t.subterms
  | and l r => and l r :: (l.subterms ++ r.subterms)
  | or l r => or l r :: (l.subterms ++ r.subterms)
  | xor l r => xor l r :: (l.subterms ++ r.subterms)
  | eq l r => eq l r :: (l.subterms ++ r.subterms)
  | ite c yes no => ite c yes no :: (c.subterms ++ (yes.subterms ++ no.subterms))
  | bvUnary op t => bvUnary op t :: t.subterms
  | bvBinary op l r => bvBinary op l r :: (l.subterms ++ r.subterms)
  | bvCompare op l r => bvCompare op l r :: (l.subterms ++ r.subterms)
  | extract high low t => extract high low t :: t.subterms
  | zeroExtend extra t => zeroExtend extra t :: t.subterms
  | signExtend extra t => signExtend extra t :: t.subterms

theorem mem_occurrences {t : Term} {name : String} {sort : SmtSort} :
    (name, sort) ∈ t.occurrences ↔ const name sort ∈ t.subterms := by
  induction t <;> simp_all [occurrences, subterms]

theorem self_mem_subterms (t : Term) : t ∈ t.subterms := by
  cases t <;> exact List.mem_cons_self

theorem collect_eq_foldl (t : Term) (found : Constants) :
    t.collect found
      = t.occurrences.foldl (fun known constant => known.set constant.1 constant.2) found := by
  induction t generalizing found with
  | bool value => rfl
  | bitVec value bits => rfl
  | const name sort => rfl
  | not t ih => exact ih found
  | bvUnary op t ih => exact ih found
  | extract high low t ih => exact ih found
  | zeroExtend extra t ih => exact ih found
  | signExtend extra t ih => exact ih found
  | and l r left right => rw [collect, occurrences, List.foldl_append, left, right]
  | or l r left right => rw [collect, occurrences, List.foldl_append, left, right]
  | xor l r left right => rw [collect, occurrences, List.foldl_append, left, right]
  | eq l r left right => rw [collect, occurrences, List.foldl_append, left, right]
  | bvBinary op l r left right => rw [collect, occurrences, List.foldl_append, left, right]
  | bvCompare op l r left right => rw [collect, occurrences, List.foldl_append, left, right]
  | ite c yes no condition positive negative =>
      rw [collect, occurrences, List.foldl_append, List.foldl_append, condition, positive,
        negative]

theorem ascending_foldl {found : Constants} (ascending : found.Ascending)
    (occurrences : List (String × SmtSort)) :
    (occurrences.foldl (fun known c => known.set c.1 c.2) found).Ascending := by
  induction occurrences generalizing found with
  | nil => exact ascending
  | cons first rest ih => exact ih (Constants.ascending_set first.1 first.2 ascending)

theorem constants_ascending (t : Term) : t.constants.Ascending := by
  rw [constants, collect_eq_foldl]
  exact ascending_foldl List.Pairwise.nil _

/-- No name is lost; its sort may be that of a later occurrence. -/
theorem name_mem_foldl {occurrences : List (String × SmtSort)} {found : Constants}
    {name : String} (ascending : found.Ascending)
    (member : ∃ sort, (name, sort) ∈ found ++ occurrences) :
    ∃ sort, (name, sort) ∈ occurrences.foldl (fun known c => known.set c.1 c.2) found := by
  induction occurrences generalizing found with
  | nil => simpa using member
  | cons first rest ih =>
      apply ih (Constants.ascending_set first.1 first.2 ascending)
      obtain ⟨sort, member⟩ := member
      by_cases same : name = first.1
      · refine ⟨first.2, List.mem_append_left _ ?_⟩
        rw [Constants.mem_set _ _ ascending, same]
        exact .inl rfl
      · refine ⟨sort, ?_⟩
        rcases List.mem_append.mp member with inFound | inRest
        · apply List.mem_append_left _
          rw [Constants.mem_set _ _ ascending]
          exact .inr ⟨same, inFound⟩
        · rcases List.mem_cons.mp inRest with rfl | inRest
          · exact absurd rfl same
          · exact List.mem_append_right _ inRest

theorem name_mem_constants {t : Term} {constant : String × SmtSort}
    (member : constant ∈ t.occurrences) : ∃ sort, (constant.1, sort) ∈ t.constants := by
  rw [constants, collect_eq_foldl]
  exact name_mem_foldl List.Pairwise.nil ⟨constant.2, member⟩

/-- What collecting keeps, one occurrence at a time. Where every name occurs at one sort
only, a later occurrence never replaces an earlier one. -/
theorem mem_foldl_set {occurrences : List (String × SmtSort)} {found : Constants}
    (ascending : found.Ascending)
    (sorted : ∀ a ∈ found ++ occurrences, ∀ b ∈ found ++ occurrences, a.1 = b.1 → a = b)
    (c : String × SmtSort) :
    c ∈ occurrences.foldl (fun known c => known.set c.1 c.2) found ↔
      c ∈ found ∨ c ∈ occurrences := by
  induction occurrences generalizing found with
  | nil => simp
  | cons first rest ih =>
      have members (c : String × SmtSort) :
          c ∈ found.set first.1 first.2 ↔ c = first ∨ c ∈ found := by
        rw [Constants.mem_set _ _ ascending]
        constructor
        · intro kept
          rcases kept with same | ⟨_, member⟩
          · exact .inl same
          · exact .inr member
        · intro kept
          rcases kept with same | member
          · exact .inl same
          · by_cases named : c.1 = first.1
            · exact .inl (sorted c (by simp [member]) first (by simp) named)
            · exact .inr ⟨named, member⟩
      have within (c : String × SmtSort) (member : c ∈ found.set first.1 first.2 ++ rest) :
          c ∈ found ++ first :: rest := by
        rcases List.mem_append.mp member with inSet | inRest
        · rcases (members c).mp inSet with rfl | inFound
          · simp
          · simp [inFound]
        · simp [inRest]
      rw [List.foldl_cons, ih (Constants.ascending_set first.1 first.2 ascending)
        fun a inA b inB => sorted a (within a inA) b (within b inB), members, List.mem_cons,
        or_assoc, or_left_comm]

def SingleSorted (t : Term) : Prop :=
  ∀ a ∈ t.occurrences, ∀ b ∈ t.occurrences, a.1 = b.1 → a.2 = b.2

instance (t : Term) : Decidable t.SingleSorted :=
  inferInstanceAs (Decidable (∀ a ∈ t.occurrences, ∀ b ∈ t.occurrences, a.1 = b.1 → a.2 = b.2))

/-- The widths of the distinct free constants added up; a boolean counts as one bit. -/
def freeBits (t : Term) : Nat :=
  (t.occurrences.dedup.map fun constant => constant.2.bits).sum

theorem SingleSorted.mem_constants {t : Term} (single : t.SingleSorted)
    (constant : String × SmtSort) : constant ∈ t.constants ↔ constant ∈ t.occurrences := by
  have sorted : ∀ a ∈ [] ++ t.occurrences, ∀ b ∈ [] ++ t.occurrences, a.1 = b.1 → a = b := by
    intro a inA b inB named
    exact Prod.ext named (single a inA b inB named)
  rw [constants, collect_eq_foldl, mem_foldl_set List.Pairwise.nil sorted]
  simp

theorem SingleSorted.bits_constants {t : Term} (single : t.SingleSorted) :
    t.constants.bits = t.freeBits := by
  have same : t.constants.Perm t.occurrences.dedup := by
    apply (List.perm_ext_iff_of_nodup t.constants_ascending.nodup (List.nodup_dedup _)).mpr
    intro constant
    rw [single.mem_constants, List.mem_dedup]
  rw [Constants.bits_eq_sum, freeBits]
  exact (same.map _).sum_nat

end Term

namespace Expr

def freeVariables (e : Expr) : Constants :=
  (e.occurrences.map fun v => (v.name, v.ty.sort)).dedup

def freeBits (e : Expr) : Nat :=
  (e.freeVariables.map fun constant => constant.2.bits).sum

end Expr

namespace Encode

theorem occurrences_truth (ty : Ty) (t : Term) : (truth ty t).occurrences = t.occurrences := by
  cases ty with
  | bool => rfl
  | int bits signed => exact List.append_nil _

theorem occurrences_convert (source : Ty) (width : Nat) (t : Term) :
    (convert source width t).occurrences = t.occurrences := by
  cases source with
  | bool => exact List.append_nil _
  | int bits signed =>
      unfold convert
      dsimp only
      split
      · rfl
      split
      · rfl
      split <;> rfl

theorem occurrences_cast_to (source target : Ty) (t : Term) :
    (castTo source target t).occurrences = t.occurrences := by
  cases target with
  | bool => exact occurrences_truth source t
  | int bits signed => exact occurrences_convert source _ t

theorem occurrences_bit (t : Term) : (bit t).occurrences = t.occurrences :=
  List.append_nil _

theorem occurrences_comparison (op : BinaryOp) (ty : Ty) (l r : Term) :
    (comparison op ty l r).occurrences = l.occurrences ++ r.occurrences := by
  unfold comparison
  split
  · split
    · rw [Term.occurrences, occurrences_bit, occurrences_bit]
    · rfl
  · split <;> rfl

theorem Joined.occurrences {lty rty : Ty} {l r t : Term} {op : BinaryOp}
    (joined : Joined lty rty l r op t) : t.occurrences = l.occurrences ++ r.occurrences := by
  cases joined with
  | land => rw [Term.occurrences, occurrences_truth, occurrences_truth]
  | lor => rw [Term.occurrences, occurrences_truth, occurrences_truth]
  | comparison compares same => exact occurrences_comparison op lty l r
  | connective boolean connects =>
      have right := occurrences_truth rty r
      cases op <;> cases connects <;> rw [Term.occurrences, right]
  | shift integer shifts => rw [Term.occurrences, occurrences_convert]
  | arithmetic integer plain computes strict same => rfl

theorem Encoded.occurrences {scope scope' : Scope} {e : Expr} {t : Term}
    (derivation : Encoded scope e t scope') :
    t.occurrences = e.occurrences.map fun v => (v.name, v.ty.sort) := by
  induction derivation with
  | known valid met => rfl
  | declared valid unmet => rfl
  | @lit scope id c valid =>
      obtain ⟨value, ty⟩ := c
      cases ty <;> rfl
  | lnot operand ih => rw [Term.occurrences, occurrences_truth, ih, Expr.occurrences_unary]
  | unary computes integer operand ih => exact ih
  | binary left right joined first second =>
      rw [joined.occurrences, first, second, Expr.occurrences_binary, List.map_append]
  | ternary condition positive negative same first second third =>
      rw [Term.occurrences, occurrences_truth, first, second, third, Expr.occurrences_ternary,
        List.map_append, List.map_append]
  | paren inner ih => exact ih
  | cast valid operand ih => rw [occurrences_cast_to, ih, Expr.occurrences_cast]

end Encode

theorem Expr.occurrences_of_encode {e : Expr} {t : Term} (accepted : e.encode = .ok t) :
    t.occurrences = e.occurrences.map fun v => (v.name, v.ty.sort) := by
  obtain ⟨t', scope, derivation, rfl⟩ := Expr.encode_eq_ok.mp accepted
  rw [Encode.occurrences_truth, derivation.occurrences]

theorem Expr.Compatible.single_sorted {e : Expr} {t : Term} (compatible : e.Compatible e)
    (occurrences : t.occurrences = e.occurrences.map fun v => (v.name, v.ty.sort)) :
    t.SingleSorted := by
  intro a inA b inB named
  rw [occurrences] at inA inB
  obtain ⟨v, member, rfl⟩ := List.mem_map.mp inA
  obtain ⟨v', member', rfl⟩ := List.mem_map.mp inB
  exact compatible v member v' member' named

theorem Expr.Compatible.mem_constants {e : Expr} {t : Term} (compatible : e.Compatible e)
    (occurrences : t.occurrences = e.occurrences.map fun v => (v.name, v.ty.sort))
    (constant : String × SmtSort) :
    constant ∈ t.constants ↔ ∃ v ∈ e.occurrences, constant = (v.name, v.ty.sort) := by
  rw [(compatible.single_sorted occurrences).mem_constants, occurrences, List.mem_map]
  simp [eq_comm]

/-- The free constants of a condition's term are the variables of the condition. -/
theorem Expr.mem_constants_of_encode {e : Expr} {t : Term} (accepted : e.encode = .ok t)
    (constant : String × SmtSort) :
    constant ∈ t.constants ↔ ∃ v ∈ e.occurrences, constant = (v.name, v.ty.sort) :=
  (Expr.compatible_of_encode accepted).mem_constants (Expr.occurrences_of_encode accepted)
    constant

theorem Expr.Compatible.model_in_fits {e : Expr} {t : Term} (compatible : e.Compatible e)
    (occurrences : t.occurrences = e.occurrences.map fun v => (v.name, v.ty.sort))
    (store : Store) : (e.modelIn store).Fits t := by
  intro constant member
  obtain ⟨v, occurs, rfl⟩ := (compatible.mem_constants occurrences constant).mp member
  exact ⟨store v.name v.ty.sort, compatible.model_in_assigns store v occurs⟩

theorem Expr.single_sorted_of_encode {e : Expr} {t : Term} (accepted : e.encode = .ok t) :
    t.SingleSorted :=
  (Expr.compatible_of_encode accepted).single_sorted (Expr.occurrences_of_encode accepted)

theorem Expr.bits_of_encode {e : Expr} {t : Term} (accepted : e.encode = .ok t) :
    t.constants.bits = e.freeBits := by
  rw [(Expr.single_sorted_of_encode accepted).bits_constants, Term.freeBits,
    Expr.occurrences_of_encode accepted, Expr.freeBits, Expr.freeVariables]

end Condense
