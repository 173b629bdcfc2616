import Condense.Proofs.Execution
import Condense.Proofs.Words
import Mathlib.Data.List.Forall2

/-!
# Refinement of expressions

An expression refines another when it has the same type and gives the same pattern and
the same store wherever the other has a result. It agrees with the other when at least the
truth value and the store are the same, which is enough in boolean position. Nodes keep
both relations that their operands have.
-/

namespace Condense

set_option autoImplicit false

namespace Expr

structure Refines (a b : Expr) : Prop where
  typed : b.ty = a.ty
  runs : ∀ {calls store pattern after}, a.run calls store = some (pattern, after) →
    b.run calls store = some (pattern, after)

/-- `b` has the truth value of `a` and does to the store what `a` does, wherever `a` has a
result. -/
def Agrees (a b : Expr) : Prop :=
  ∀ calls store pattern after, a.run calls store = some (pattern, after) →
    ∃ pattern', b.run calls store = some (pattern', after) ∧
      Meaning.holds pattern' = Meaning.holds pattern

theorem Agrees.refl (e : Expr) : Agrees e e := by
  intro calls store pattern after known
  exact ⟨pattern, known, rfl⟩

theorem Agrees.trans {a b c : Expr} (first : Agrees a b) (second : Agrees b c) :
    Agrees a c := by
  intro calls store pattern after known
  obtain ⟨middle, known', same⟩ := first calls store pattern after known
  obtain ⟨last, known'', same'⟩ := second calls store middle after known'
  exact ⟨last, known'', same'.trans same⟩

namespace Refines

theorem refl (e : Expr) : Refines e e :=
  ⟨rfl, fun known => known⟩

theorem trans {a b c : Expr} (first : Refines a b) (second : Refines b c) : Refines a c :=
  ⟨second.typed.trans first.typed, fun known => second.runs (first.runs known)⟩

theorem agrees {a b : Expr} (refines : Refines a b) : Agrees a b := by
  intro calls store pattern after known
  exact ⟨pattern, refines.runs known, rfl⟩

section Nodes

variable {id id' : NodeId}

theorem unary {op : UnaryOp} {a b : Expr} (operand : Refines a b) :
    Refines (.unary id op a) (.unary id' op b) := by
  refine ⟨by rw [Expr.ty, Expr.ty, operand.typed], ?_⟩
  intro calls store pattern after known
  obtain ⟨value, first, accepted, rfl⟩ := run_unary.mp known
  refine run_unary.mpr ⟨value, operand.runs first, ?_, ?_⟩
  · rw [operand.typed]
    exact accepted
  · rw [operand.typed]

theorem binary {op : BinaryOp} {l l' r r' : Expr} (left : Refines l l') (right : Refines r r') :
    Refines (.binary id op l r) (.binary id' op l' r') := by
  refine ⟨by rw [Expr.ty, Expr.ty, left.typed], ?_⟩
  intro calls store pattern after known
  obtain ⟨lhs, middle, first, rest⟩ := run_binary.mp known
  refine run_binary.mpr ⟨lhs, middle, left.runs first, ?_⟩
  rcases rest with settled | ⟨pending, rhs, second, accepted, rfl⟩
  · exact .inl settled
  · refine .inr ⟨pending, rhs, right.runs second, ?_, ?_⟩
    · rw [left.typed, right.typed]
      exact accepted
    · rw [left.typed, right.typed]

theorem ternary {c c' yes yes' no no' : Expr} (condition : Refines c c')
    (positive : Refines yes yes') (negative : Refines no no') :
    Refines (.ternary id c yes no) (.ternary id' c' yes' no') := by
  refine ⟨positive.typed, ?_⟩
  intro calls store pattern after known
  obtain ⟨truth, middle, first, same, result⟩ := run_ternary.mp known
  refine run_ternary.mpr ⟨truth, middle, condition.runs first, ?_, ?_⟩
  · rw [positive.typed, negative.typed]
    exact same
  · split at result
    · next holds =>
        rw [if_pos holds]
        exact positive.runs result
    · next fails =>
        rw [if_neg fails]
        exact negative.runs result

theorem paren {a b : Expr} (inner : Refines a b) : Refines (.paren id a) (.paren id' b) :=
  ⟨inner.typed, inner.runs⟩

theorem cast {ty : Ty} {a b : Expr} (operand : Refines a b) :
    Refines (.cast id ty a) (.cast id' ty b) := by
  refine ⟨rfl, ?_⟩
  intro calls store pattern after known
  obtain ⟨value, first, rfl⟩ := run_cast.mp known
  refine run_cast.mpr ⟨value, operand.runs first, ?_⟩
  rw [operand.typed]

theorem run_all {args args' : List Expr} (each : List.Forall₂ Refines args args')
    {calls : Calls} {store after : Store} {operands : List (Ty × Nat)}
    (known : runAll calls args store = some (operands, after)) :
    runAll calls args' store = some (operands, after) := by
  induction each generalizing store operands with
  | nil => exact known
  | cons head tail ih =>
      obtain ⟨operand, middle, others, first, later, rfl⟩ := run_all_cons.mp known
      refine run_all_cons.mpr ⟨operand, middle, others, head.runs first, ih later, ?_⟩
      rw [head.typed]

theorem call {name : String} {ty : Ty} {args args' : List Expr}
    (each : List.Forall₂ Refines args args') :
    Refines (.call id name ty args) (.call id' name ty args') := by
  refine ⟨rfl, ?_⟩
  intro calls store pattern after known
  obtain ⟨operands, middle, first, rfl, rfl⟩ := run_call.mp known
  exact run_call.mpr ⟨operands, middle, run_all each first, rfl, rfl⟩

end Nodes

end Refines

namespace Agrees

variable {id id' : NodeId}

theorem lnot {a b : Expr} (operand : Agrees a b) :
    Refines (.unary id .lnot a) (.unary id' .lnot b) := by
  refine ⟨rfl, ?_⟩
  intro calls store pattern after known
  obtain ⟨value, first, accepted, rfl⟩ := run_unary.mp known
  obtain ⟨value', first', same⟩ := operand calls store value after first
  refine run_unary.mpr ⟨value', first', rfl, ?_⟩
  rw [Meaning.unary, Meaning.unary, same]

/-- The operands of `&&` and `||` count as truth values only. -/
theorem logical {op : BinaryOp} {l l' r r' : Expr} (junction : op.isLogical = true)
    (left : Agrees l l') (right : Agrees r r') :
    Refines (.binary id op l r) (.binary id' op l' r') := by
  refine ⟨by rw [Expr.ty, Expr.ty, junction, Bool.or_true, if_pos rfl, if_pos rfl], ?_⟩
  intro calls store pattern after known
  obtain ⟨lhs, middle, first, rest⟩ := run_binary.mp known
  obtain ⟨lhs', first', same⟩ := left calls store lhs middle first
  have settles : op.settles lhs' = op.settles lhs := by
    rcases BinaryOp.logical_cases junction with rfl | rfl <;>
      simp only [BinaryOp.settles, same]
  refine run_binary.mpr ⟨lhs', middle, first', ?_⟩
  rw [settles, same]
  rcases rest with settled | ⟨pending, rhs, second, accepted, rfl⟩
  · exact .inl settled
  · obtain ⟨rhs', second', same'⟩ := right calls middle rhs after second
    refine .inr ⟨pending, rhs', second', ?_, ?_⟩
    · rw [BinaryOp.accepts, junction, if_pos rfl]
    · rcases BinaryOp.logical_cases junction with rfl | rfl <;>
        simp only [Meaning.binary, same, same']

end Agrees

end Expr

namespace Literal

def IsMasked (c : Literal) : Prop :=
  c.ty.isBool = false → Word.truncate c.value c.ty.width = c.value

theorem of_word_is_masked (value : UInt64) (ty : Ty) : (ofWord value ty).IsMasked := by
  intro integer
  show (value &&& Word.mask ty.width) &&& Word.mask ty.width = value &&& Word.mask ty.width
  rw [UInt64.and_assoc, UInt64.and_self]

theorem pattern_of_masked {c : Literal} (integer : c.ty.isBool = false) (masked : c.IsMasked) :
    c.pattern = c.value.toNat := by
  obtain ⟨value, ty⟩ := c
  cases ty with
  | bool => cases integer
  | int bits signed =>
      have whole : Word.truncate value bits.toNat = value := masked rfl
      show value.toNat % 2 ^ bits.toNat = value.toNat
      by_cases narrow : bits.toNat ≤ 64
      · rw [← Word.truncate_to_nat value bits.toNat narrow, whole]
      · have wide : 2 ^ 64 ≤ 2 ^ bits.toNat := Nat.pow_le_pow_right (by decide) (by omega)
        exact Nat.mod_eq_of_lt (Nat.lt_of_lt_of_le value.toNat_lt wide)

theorem holds_pattern {c : Literal} (masked : c.IsMasked) :
    Meaning.holds c.pattern = c.isNonzero := by
  cases kind : c.ty.isBool with
  | true =>
      have boolean : c.pattern = c.isNonzero.toNat := by
        rw [pattern, Ty.eq_bool kind]
      rw [boolean, Meaning.holds_to_nat]
  | false =>
      rw [pattern_of_masked kind masked, Bool.eq_iff_iff]
      simp [Meaning.holds, isNonzero, ← UInt64.toNat_inj]

theorem pattern_of_bool (value : Bool) : (ofBool value).pattern = value.toNat := by
  cases value <;> rfl

end Literal

namespace Expr

/-- Every integer literal in the expression is masked to its type. -/
def IsMasked (e : Expr) : Prop :=
  ∀ id c, lit id c ∈ e.nodes → c.IsMasked

section Masked

variable {id : NodeId}

theorem is_masked_lit {c : Literal} : (lit id c).IsMasked ↔ c.IsMasked := by
  constructor
  · intro masked
    exact masked id c (by simp [nodes])
  · intro masked id' c' member
    simp only [nodes, List.mem_singleton, lit.injEq] at member
    rw [member.2]
    exact masked

theorem is_masked_unary {op : UnaryOp} {e : Expr} : (unary id op e).IsMasked ↔ e.IsMasked := by
  simp [IsMasked, nodes]

theorem is_masked_binary {op : BinaryOp} {l r : Expr} :
    (binary id op l r).IsMasked ↔ l.IsMasked ∧ r.IsMasked := by
  simp [IsMasked, nodes, or_imp, forall_and]

theorem is_masked_ternary {c yes no : Expr} :
    (ternary id c yes no).IsMasked ↔ c.IsMasked ∧ yes.IsMasked ∧ no.IsMasked := by
  simp [IsMasked, nodes, or_imp, forall_and]

theorem is_masked_paren {e : Expr} : (paren id e).IsMasked ↔ e.IsMasked := by
  simp [IsMasked, nodes]

theorem is_masked_cast {ty : Ty} {e : Expr} : (cast id ty e).IsMasked ↔ e.IsMasked := by
  simp [IsMasked, nodes]

theorem is_masked_call {name : String} {ty : Ty} {args : List Expr} :
    (call id name ty args).IsMasked ↔ ∀ arg ∈ args, arg.IsMasked := by
  constructor
  · intro masked arg member id' c inside
    apply masked id' c
    rw [nodes, List.mem_cons]
    exact .inr (mem_nodes_of.mpr ⟨arg, member, inside⟩)
  · intro each id' c member
    rw [nodes, List.mem_cons] at member
    rcases member with impossible | inside
    · cases impossible
    · obtain ⟨arg, member, inside⟩ := mem_nodes_of.mp inside
      exact each arg member id' c inside

end Masked

/-- What a step of the pass does to a subexpression: it keeps literals masked and, where
they are, refines. -/
def Simplifies (a b : Expr) : Prop :=
  a.IsMasked → b.IsMasked ∧ Refines a b

def Condenses (a b : Expr) : Prop :=
  a.IsMasked → b.IsMasked ∧ Agrees a b

theorem Simplifies.refl (e : Expr) : Simplifies e e :=
  fun masked => ⟨masked, .refl e⟩

theorem Simplifies.trans {a b c : Expr} (first : Simplifies a b) (second : Simplifies b c) :
    Simplifies a c := by
  intro masked
  obtain ⟨masked, refines⟩ := first masked
  obtain ⟨masked, refines'⟩ := second masked
  exact ⟨masked, refines.trans refines'⟩

theorem Simplifies.condenses {a b : Expr} (simplifies : Simplifies a b) : Condenses a b := by
  intro masked
  obtain ⟨masked, refines⟩ := simplifies masked
  exact ⟨masked, refines.agrees⟩

theorem Condenses.refl (e : Expr) : Condenses e e :=
  fun masked => ⟨masked, .refl e⟩

theorem Condenses.trans {a b c : Expr} (first : Condenses a b) (second : Condenses b c) :
    Condenses a c := by
  intro masked
  obtain ⟨masked, agrees⟩ := first masked
  obtain ⟨masked, agrees'⟩ := second masked
  exact ⟨masked, agrees.trans agrees'⟩

end Expr

end Condense
