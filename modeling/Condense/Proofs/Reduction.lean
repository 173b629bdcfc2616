import Condense.Proofs.Arithmetic
import Condense.Proofs.Outcomes
import Condense.Proofs.Refinement
import Condense.Proofs.Traversal

/-!
# The identities are sound

Each identity gives an expression that refines the node it replaces: same type, same
pattern and same store, wherever the node has a result. Calls are dropped only where they
would not have been made. Integer literals must be masked, since one in boolean position
is folded by its word and evaluated by its pattern.
-/

namespace Condense

set_option autoImplicit false

namespace Expr

theorem simplifies_all {args args' : List Expr} (operands : List.Forall₂ Simplifies args args')
    (masked : ∀ arg ∈ args, arg.IsMasked) :
    (∀ arg ∈ args', arg.IsMasked) ∧ List.Forall₂ Refines args args' := by
  induction operands with
  | nil => exact ⟨by simp, .nil⟩
  | cons head tail ih =>
      obtain ⟨firstMasked, refines⟩ := head (masked _ (by simp))
      obtain ⟨restMasked, each⟩ := ih fun arg member => masked arg (by simp [member])
      exact ⟨List.forall_mem_cons.mpr ⟨firstMasked, restMasked⟩, .cons refines each⟩

theorem Simplifies.congruence : Congruence Simplifies where
  trans := Simplifies.trans
  unary := by
    intro id id' op a b operand masked
    obtain ⟨masked, refines⟩ := operand (is_masked_unary.mp masked)
    exact ⟨is_masked_unary.mpr masked, refines.unary⟩
  binary := by
    intro id id' op l l' r r' left right masked
    obtain ⟨leftMasked, rightMasked⟩ := is_masked_binary.mp masked
    obtain ⟨leftMasked, first⟩ := left leftMasked
    obtain ⟨rightMasked, second⟩ := right rightMasked
    exact ⟨is_masked_binary.mpr ⟨leftMasked, rightMasked⟩, first.binary second⟩
  ternary := by
    intro id id' c c' yes yes' no no' condition positive negative masked
    obtain ⟨conditionMasked, yesMasked, noMasked⟩ := is_masked_ternary.mp masked
    obtain ⟨conditionMasked, first⟩ := condition conditionMasked
    obtain ⟨yesMasked, second⟩ := positive yesMasked
    obtain ⟨noMasked, third⟩ := negative noMasked
    exact ⟨is_masked_ternary.mpr ⟨conditionMasked, yesMasked, noMasked⟩,
      first.ternary second third⟩
  paren := by
    intro id id' a b inner masked
    obtain ⟨masked, refines⟩ := inner (is_masked_paren.mp masked)
    exact ⟨is_masked_paren.mpr masked, refines.paren⟩
  cast := by
    intro id id' ty a b operand masked
    obtain ⟨masked, refines⟩ := operand (is_masked_cast.mp masked)
    exact ⟨is_masked_cast.mpr masked, refines.cast⟩
  call := by
    intro id id' name ty args args' operands masked
    obtain ⟨masked, each⟩ := simplifies_all operands (is_masked_call.mp masked)
    exact ⟨is_masked_call.mpr masked, .call each⟩

theorem ty_of_as_bool {e : Expr} {value : Bool} (literal : e.asBool = some value) :
    e.ty = .bool := by
  cases e with
  | lit id c =>
      obtain ⟨word, ty⟩ := c
      cases ty with
      | bool => rfl
      | int bits signed => cases literal
  | _ => cases literal

theorem run_of_as_bool {e : Expr} {value : Bool} (literal : e.asBool = some value)
    (calls : Calls) (store : Store) : e.run calls store = some (value.toNat, store) := by
  cases e with
  | lit id c =>
      obtain ⟨word, ty⟩ := c
      cases ty with
      | bool =>
          have known : (word != 0) = value := Option.some.inj literal
          rw [← known]
          rfl
      | int bits signed => cases literal
  | _ => cases literal

theorem run_unparen (e : Expr) (calls : Calls) (store : Store) :
    e.unparen.run calls store = e.run calls store := by
  induction e with
  | paren id a ih => exact ih
  | _ => rfl

theorem unparen_is_masked {e : Expr} (masked : e.IsMasked) : e.unparen.IsMasked := by
  induction e with
  | paren id a ih => exact ih (is_masked_paren.mp masked)
  | _ => exact masked

theorem of_bool_is_masked (id : NodeId) (value : Bool) :
    (lit id (.ofBool value)).IsMasked :=
  is_masked_lit.mpr (Literal.of_word_is_masked _ _)

theorem refines_of_paren {id : NodeId} {e : Expr} : Refines (.paren id e) e :=
  ⟨rfl, fun known => known⟩

theorem cast_self {ty : Ty} {pattern : Nat} (fits : pattern < 2 ^ ty.width) :
    Meaning.cast ty ty pattern = pattern := by
  cases ty with
  | bool => exact Meaning.to_nat_holds fits
  | int bits signed => exact Ty.wrap_reading _ fits

/-- A cast to the operand's own type changes nothing. -/
theorem refines_of_cast {id : NodeId} {e : Expr} : Refines (.cast id e.ty e) e := by
  refine ⟨rfl, ?_⟩
  intro calls store pattern after known
  obtain ⟨operand, first, rfl⟩ := run_cast.mp known
  rw [cast_self (run_lt first)]
  exact first

theorem to_nat_holds_of_run {e : Expr} {calls : Calls} {store after : Store} {pattern : Nat}
    (boolean : e.ty.isBool = true) (known : e.run calls store = some (pattern, after)) :
    (Meaning.holds pattern).toNat = pattern := by
  have fits := run_lt known
  rw [Ty.eq_bool boolean] at fits
  exact Meaning.to_nat_holds fits

/-- `!!e` of a boolean is the boolean itself. -/
theorem refines_of_double_negation {id : NodeId} {e inner : Expr} {id' : NodeId}
    (negated : e.unparen = .unary id' .lnot inner) (boolean : inner.ty.isBool = true) :
    Refines (.unary id .lnot e) inner := by
  refine ⟨Ty.eq_bool boolean, ?_⟩
  intro calls store pattern after known
  obtain ⟨outer, first, _, rfl⟩ := run_unary.mp known
  rw [← run_unparen, negated] at first
  obtain ⟨value, second, _, rfl⟩ := run_unary.mp first
  have same : Meaning.unary .lnot e.ty (Meaning.unary .lnot inner.ty value) = value := by
    rw [Meaning.unary, Meaning.unary, Meaning.holds_to_nat, Bool.not_not,
      to_nat_holds_of_run boolean second]
  rw [same]
  exact second

/-- `!!e` of an integer compares it with zero. -/
theorem refines_of_integer_negation {id id' comparison nothing : NodeId} {e inner : Expr}
    (negated : e.unparen = .unary id' .lnot inner) (integer : inner.ty.isBool = false) :
    Refines (.unary id .lnot e)
      (.binary comparison .ne inner (.lit nothing (.ofWord 0 inner.ty))) := by
  refine ⟨rfl, ?_⟩
  intro calls store pattern after known
  obtain ⟨outer, first, _, rfl⟩ := run_unary.mp known
  rw [← run_unparen, negated] at first
  obtain ⟨value, second, _, rfl⟩ := run_unary.mp first
  have zero : (Literal.ofWord 0 inner.ty).pattern = 0 := by
    have cut : (Literal.ofWord 0 inner.ty).value = 0 := UInt64.zero_and
    rw [Literal.pattern_of_masked integer (Literal.of_word_is_masked _ _), cut]
    rfl
  refine run_binary.mpr ⟨value, after, second, .inr ⟨rfl, 0, ?_, ?_, ?_⟩⟩
  · rw [run, zero]
  · exact decide_eq_true rfl
  · rw [Meaning.unary, Meaning.unary, Meaning.holds_to_nat, Bool.not_not]
    rfl

end Expr

namespace Nodes

variable {property : Expr → Prop}

theorem fresh_gives : logic.gives fresh fun _ => True :=
  fun _ => trivial

theorem inherit_gives {target source : NodeId} :
    logic.gives (inherit target source) fun _ => True :=
  fun _ => trivial

theorem renew_gives (id : NodeId) (changed : Bool) : logic.gives (renew id changed) fun _ => True :=
  fun _ => trivial

theorem replace_gives {e : Expr} {id : NodeId} (holds : property e) :
    logic.gives (replace e id) property :=
  fun _ => holds

theorem literal_gives {value : Bool} {id : NodeId}
    (holds : ∀ id', property (.lit id' (.ofBool value))) :
    logic.gives (literal value id) property :=
  fun nodes => holds nodes.next

end Nodes

namespace Identities

open Condense.Expr

theorem collapse_condenses (e : Expr) :
    Nodes.logic.gives (collapse e) fun result => Condenses e result.1 := by
  intro nodes
  cases e with
  | lit id c =>
      rw [collapse]
      split
      · exact .refl _
      · intro masked
        refine ⟨of_bool_is_masked _ _, ?_⟩
        intro calls store pattern after known
        cases known
        refine ⟨_, rfl, ?_⟩
        rw [Literal.pattern_of_bool, Meaning.holds_to_nat,
          Literal.holds_pattern (is_masked_lit.mp masked)]
  | _ => exact .refl _

theorem simplifies_of_literal_negation {id id' : NodeId} {e : Expr} {value : Bool}
    (literal : e.asBool = some value) :
    Simplifies (.unary id .lnot e) (.lit id' (.ofBool !value)) := by
  intro masked
  refine ⟨of_bool_is_masked _ _, rfl, ?_⟩
  intro calls store pattern after known
  obtain ⟨operand, first, _, rfl⟩ := run_unary.mp known
  rw [run_of_as_bool literal calls store] at first
  cases first
  rw [Meaning.unary, Meaning.holds_to_nat, run, Literal.pattern_of_bool]

theorem negation_simplifies (id : NodeId) (e : Expr) :
    Nodes.logic.gives (negation id e) (Simplifies (.unary id .lnot e)) := by
  unfold negation
  cases literal : e.asBool with
  | some value =>
      refine Nodes.logic.bind (Nodes.literal_gives fun id' => ?_) fun _ known =>
        Nodes.replace_gives known
      exact simplifies_of_literal_negation literal
  | none =>
      dsimp only
      split
      · next id' inner negated =>
          have innerMasked (masked : IsMasked (.unary id .lnot e)) : inner.IsMasked := by
            have bare := unparen_is_masked (is_masked_unary.mp masked)
            rw [negated] at bare
            exact is_masked_unary.mp bare
          refine Nodes.logic.bind Nodes.inherit_gives fun _ _ => ?_
          cases kind : inner.ty.isBool with
          | true =>
              rw [if_pos rfl]
              apply Nodes.replace_gives
              intro masked
              exact ⟨innerMasked masked, refines_of_double_negation negated kind⟩
          | false =>
              rw [if_neg (by decide)]
              refine Nodes.logic.bind Nodes.fresh_gives fun id'' _ => ?_
              refine Nodes.logic.bind Nodes.fresh_gives fun id''' _ => ?_
              refine Nodes.logic.bind (Nodes.replace_gives ?_) fun _ known =>
                Nodes.replace_gives known
              intro masked
              refine ⟨is_masked_binary.mpr ⟨innerMasked masked, ?_⟩,
                refines_of_integer_negation negated kind⟩
              exact is_masked_lit.mpr (Literal.of_word_is_masked _ _)
      · exact Nodes.logic.pure (.refl _)

/-- A junction has the absorbing value if the left operand does, and otherwise the truth
value of the right one. -/
theorem Absorbs.run {op : BinaryOp} {absorbing : Bool} (absorbs : Absorbs op absorbing)
    {id : NodeId} {l r : Expr} {calls : Calls} {store after : Store} {pattern : Nat}
    (known : (Expr.binary id op l r).run calls store = some (pattern, after)) :
    ∃ lhs middle, l.run calls store = some (lhs, middle) ∧
      (Meaning.holds lhs = absorbing ∧ pattern = absorbing.toNat ∧ after = middle ∨
        Meaning.holds lhs = !absorbing ∧ ∃ rhs, r.run calls middle = some (rhs, after) ∧
          pattern = (Meaning.holds rhs).toNat) := by
  obtain ⟨lhs, middle, first, rest⟩ := run_binary.mp known
  refine ⟨lhs, middle, first, ?_⟩
  rcases rest with ⟨settled, rfl, rfl⟩ | ⟨pending, rhs, second, _, rfl⟩
  · refine .inl ?_
    rcases absorbs with ⟨rfl, rfl⟩ | ⟨rfl, rfl⟩
    · have fails : Meaning.holds lhs = false := by simpa [BinaryOp.settles] using settled
      rw [fails]
      exact ⟨rfl, rfl, rfl⟩
    · have holds : Meaning.holds lhs = true := settled
      rw [holds]
      exact ⟨rfl, rfl, rfl⟩
  · refine .inr ?_
    rcases absorbs with ⟨rfl, rfl⟩ | ⟨rfl, rfl⟩
    · have holds : Meaning.holds lhs = true := by simpa [BinaryOp.settles] using pending
      refine ⟨holds, rhs, second, ?_⟩
      rw [Meaning.binary, holds, Bool.true_and]
    · have fails : Meaning.holds lhs = false := pending
      refine ⟨fails, rhs, second, ?_⟩
      rw [Meaning.binary, fails, Bool.false_or]

section Junction

variable {op : BinaryOp} {absorbing : Bool} {id : NodeId} {l r : Expr}

theorem junction_ty (absorbs : Absorbs op absorbing) : (Expr.binary id op l r).ty = .bool := by
  rw [Expr.ty, absorbs.logical, Bool.or_true, if_pos rfl]

theorem refines_of_absorbing_left (absorbs : Absorbs op absorbing)
    (literal : l.asBool = some absorbing) : Refines (.binary id op l r) l := by
  refine ⟨(ty_of_as_bool literal).trans (junction_ty absorbs).symm, ?_⟩
  intro calls store pattern after known
  have left := run_of_as_bool literal calls store
  obtain ⟨lhs, middle, first, rest⟩ := absorbs.run known
  rw [left] at first
  cases first
  rcases rest with ⟨_, rfl, rfl⟩ | ⟨other, _⟩
  · exact left
  · rw [Meaning.holds_to_nat] at other
    simp at other

/-- The left operand is evaluated and lost, so it must not hold a call. -/
theorem refines_of_absorbing_right (absorbs : Absorbs op absorbing)
    (literal : r.asBool = some absorbing) (free : l.hasCall = false) :
    Refines (.binary id op l r) r := by
  refine ⟨(ty_of_as_bool literal).trans (junction_ty absorbs).symm, ?_⟩
  intro calls store pattern after known
  obtain ⟨lhs, middle, first, rest⟩ := absorbs.run known
  obtain ⟨_, rfl⟩ := run_call_free free first
  have right := run_of_as_bool literal calls middle
  rcases rest with ⟨_, rfl, rfl⟩ | ⟨_, rhs, second, rfl⟩
  · exact right
  · rw [right] at second
    cases second
    rw [Meaning.holds_to_nat]
    exact right

theorem refines_of_neutral_left (absorbs : Absorbs op absorbing)
    (literal : l.asBool = some !absorbing) (boolean : r.ty.isBool = true) :
    Refines (.binary id op l r) r := by
  refine ⟨(Ty.eq_bool boolean).trans (junction_ty absorbs).symm, ?_⟩
  intro calls store pattern after known
  obtain ⟨lhs, middle, first, rest⟩ := absorbs.run known
  rw [run_of_as_bool literal calls store] at first
  cases first
  rcases rest with ⟨other, _⟩ | ⟨_, rhs, second, rfl⟩
  · rw [Meaning.holds_to_nat] at other
    simp at other
  · rw [to_nat_holds_of_run boolean second]
    exact second

theorem refines_of_neutral_right (absorbs : Absorbs op absorbing)
    (literal : r.asBool = some !absorbing) (boolean : l.ty.isBool = true) :
    Refines (.binary id op l r) l := by
  refine ⟨(Ty.eq_bool boolean).trans (junction_ty absorbs).symm, ?_⟩
  intro calls store pattern after known
  obtain ⟨lhs, middle, first, rest⟩ := absorbs.run known
  have whole := to_nat_holds_of_run boolean first
  rcases rest with ⟨holds, rfl, rfl⟩ | ⟨holds, rhs, second, rfl⟩
  · rw [← holds, whole]
    exact first
  · rw [run_of_as_bool literal calls middle] at second
    cases second
    rw [Meaning.holds_to_nat, ← holds, whole]
    exact first

/-- The operands come out of `collapse` with their truth values; after that each case of
the identity is one of the four above. -/
theorem junction_simplifies (absorbs : Absorbs op absorbing) :
    Nodes.logic.gives (junction id op absorbing l r) (Simplifies (.binary id op l r)) := by
  unfold junction
  refine Nodes.logic.bind (collapse_condenses l) ?_
  intro lhs left
  rcases lhs with ⟨l', lc⟩
  refine Nodes.logic.bind (collapse_condenses r) ?_
  intro rhs right
  rcases rhs with ⟨r', rc⟩
  have collapsed : Simplifies (.binary id op l r) (.binary id op l' r') := by
    intro masked
    obtain ⟨leftMasked, rightMasked⟩ := is_masked_binary.mp masked
    obtain ⟨leftMasked, first⟩ := left leftMasked
    obtain ⟨rightMasked, second⟩ := right rightMasked
    exact ⟨is_masked_binary.mpr ⟨leftMasked, rightMasked⟩, first.logical absorbs.logical second⟩
  have keepLeft (refines : Refines (.binary id op l' r') l') :
      Simplifies (.binary id op l r) l' := collapsed.trans fun masked =>
    ⟨(is_masked_binary.mp masked).1, refines⟩
  have keepRight (refines : Refines (.binary id op l' r') r') :
      Simplifies (.binary id op l r) r' := collapsed.trans fun masked =>
    ⟨(is_masked_binary.mp masked).2, refines⟩
  dsimp only
  split
  · next literal => exact Nodes.replace_gives (keepLeft (refines_of_absorbing_left absorbs literal))
  split
  · next literal =>
      have free : l'.hasCall = false := by simpa using literal.2
      exact Nodes.replace_gives (keepRight (refines_of_absorbing_right absorbs literal.1 free))
  split
  · next literal =>
      exact Nodes.replace_gives
        (keepRight (refines_of_neutral_left absorbs literal.1 literal.2))
  split
  · next literal =>
      exact Nodes.replace_gives
        (keepLeft (refines_of_neutral_right absorbs literal.1 literal.2))
  · refine Nodes.logic.bind (Nodes.renew_gives _ _) fun id' _ => Nodes.logic.pure ?_
    exact collapsed.trans (Simplifies.congruence.binary (.refl l') (.refl r'))

end Junction

theorem at_node_simplifies (e : Expr) : Nodes.logic.gives (atNode e) (Simplifies e) := by
  cases e with
  | paren id a =>
      rw [atNode]
      split
      · exact Nodes.replace_gives fun masked => ⟨is_masked_paren.mp masked, refines_of_paren⟩
      · exact Nodes.logic.pure (.refl _)
  | cast id ty a =>
      rw [atNode]
      split
      · next same =>
          subst same
          exact Nodes.replace_gives fun masked => ⟨is_masked_cast.mp masked, refines_of_cast⟩
      · exact Nodes.logic.pure (.refl _)
  | unary id op a =>
      cases op with
      | lnot =>
          rw [atNode]
          refine Nodes.logic.bind (collapse_condenses a) ?_
          intro found operand
          rcases found with ⟨a', changed⟩
          refine Nodes.logic.weaken (negation_simplifies id a') fun _ done => ?_
          refine Simplifies.trans ?_ done
          intro masked
          obtain ⟨masked, agrees⟩ := operand (is_masked_unary.mp masked)
          exact ⟨is_masked_unary.mpr masked, agrees.lnot⟩
      | _ => exact Nodes.logic.pure (.refl _)
  | binary id op l r =>
      cases op with
      | land => exact junction_simplifies (.inl ⟨rfl, rfl⟩)
      | lor => exact junction_simplifies (.inr ⟨rfl, rfl⟩)
      | _ => exact Nodes.logic.pure (.refl _)
  | _ => exact Nodes.logic.pure (.refl _)

end Identities

namespace Expr

theorem reduce_simplifies (e : Expr) : Nodes.logic.gives e.reduce (Simplifies e) :=
  e.bottom_up_gives Nodes.logic Simplifies.congruence Nodes.renew_gives
    Identities.at_node_simplifies

theorem unwrap_simplifies (e : Expr) : Nodes.logic.gives e.unwrap (Simplifies e) := by
  induction e with
  | paren id a ih =>
      rw [unwrap]
      refine Nodes.logic.bind Nodes.inherit_gives fun _ _ => ?_
      refine Nodes.logic.weaken ih fun _ done => ?_
      refine Simplifies.trans ?_ done
      exact fun masked => ⟨is_masked_paren.mp masked, refines_of_paren⟩
  | _ => exact Nodes.logic.pure (.refl _)

end Expr

end Condense
