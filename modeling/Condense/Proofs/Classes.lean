import Condense.Proofs.Canonical
import Condense.Proofs.Operands
import Condense.Proofs.Traversal

/-!
# Classes of equivalent expressions

A canonical expression has no parentheses and no cast to an operand's own type at any depth,
and no id but zero. Every class of equivalent expressions has exactly one canonical member,
which is the canonical form of all the others. So equivalence is an equivalence relation, and
nodes inherit it from their operands whatever their ids are.
-/

namespace Condense.Expr

set_option autoImplicit false

/-- No wrapper at any depth, and no id but zero. -/
def IsCanonical (e : Expr) : Prop :=
  ∀ node ∈ e.nodes, node.id = 0 ∧ node.IsBare

variable {e : Expr}

theorem is_canonical_iff :
    e.IsCanonical ↔ e.id = 0 ∧ e.IsBare ∧ ∀ child ∈ e.children, child.IsCanonical := by
  rw [IsCanonical, nodes_eq, List.forall_mem_cons, and_assoc]
  simp only [mem_nodes_of, IsCanonical]
  constructor
  · intro canonical
    obtain ⟨zero, bare, below⟩ := canonical
    exact ⟨zero, bare, fun child member node inside => below node ⟨child, member, inside⟩⟩
  · intro canonical
    obtain ⟨zero, bare, below⟩ := canonical
    refine ⟨zero, bare, ?_⟩
    intro node found
    obtain ⟨child, member, inside⟩ := found
    exact below child member node inside

theorem canon_all_eq_map (args : List Expr) : canonAll args = args.map canon := by
  induction args with
  | nil => rfl
  | cons first rest ih => rw [canonAll, ih, List.map_cons]

theorem canon_is_canonical (e : Expr) : e.canon.IsCanonical := by
  induction e with
  | var id v => exact is_canonical_iff.mpr ⟨rfl, trivial, by simp [canon, children]⟩
  | lit id c => exact is_canonical_iff.mpr ⟨rfl, trivial, by simp [canon, children]⟩
  | unary id op a ih => exact is_canonical_iff.mpr ⟨rfl, trivial, by simpa [canon, children]⟩
  | binary id op l r left right =>
      exact is_canonical_iff.mpr ⟨rfl, trivial, by simp [canon, children, left, right]⟩
  | ternary id c yes no condition positive negative =>
      exact is_canonical_iff.mpr
        ⟨rfl, trivial, by simp [canon, children, condition, positive, negative]⟩
  | paren id a ih => exact ih
  | cast id target a ih =>
      rw [canon]
      by_cases same : a.ty = target
      · rw [if_pos same]
        exact ih
      · rw [if_neg same]
        refine is_canonical_iff.mpr ⟨rfl, ?_, by simpa [children]⟩
        rw [IsBare, ty_canon]
        exact same
  | call id name result args each =>
      rw [canon, canon_all_eq_map]
      exact is_canonical_iff.mpr ⟨rfl, trivial, by simpa [children]⟩

theorem canon_of_canonical (canonical : e.IsCanonical) : e.canon = e := by
  induction e with
  | var id v =>
      obtain ⟨rfl, _⟩ := is_canonical_iff.mp canonical
      rfl
  | lit id c =>
      obtain ⟨rfl, _⟩ := is_canonical_iff.mp canonical
      rfl
  | unary id op a ih =>
      obtain ⟨rfl, _, operands⟩ := is_canonical_iff.mp canonical
      rw [canon, ih (operands a (by simp [children]))]
  | binary id op l r left right =>
      obtain ⟨rfl, _, operands⟩ := is_canonical_iff.mp canonical
      rw [canon, left (operands l (by simp [children])), right (operands r (by simp [children]))]
  | ternary id c yes no condition positive negative =>
      obtain ⟨rfl, _, operands⟩ := is_canonical_iff.mp canonical
      rw [canon, condition (operands c (by simp [children])),
        positive (operands yes (by simp [children])), negative (operands no (by simp [children]))]
  | paren id a ih =>
      obtain ⟨_, impossible, _⟩ := is_canonical_iff.mp canonical
      cases impossible
  | cast id target a ih =>
      obtain ⟨rfl, changes, operands⟩ := is_canonical_iff.mp canonical
      rw [canon_cast_of_ne _ changes, ih (operands a (by simp [children]))]
  | call id name result args each =>
      obtain ⟨rfl, _, operands⟩ := is_canonical_iff.mp canonical
      have kept : args.map canon = args := calc
        args.map canon = args.map fun arg => arg :=
          List.map_congr_left fun arg member => each arg member (operands arg member)
        _ = args := List.map_id' args
      rw [canon, canon_all_eq_map, kept]

theorem canon_all_eq_of_equiv {args others : List Expr}
    (equivalent : List.Forall₂ (fun a b : Expr => a.isEquiv b = true) args others) :
    canonAll args = canonAll others := by
  induction equivalent with
  | nil => rfl
  | cons head tail ih => rw [canonAll, canonAll, (is_equiv_iff_canon _ _).mp head, ih]

theorem is_equiv_equivalence : Equivalence fun a b : Expr => a.isEquiv b = true where
  refl := is_equiv_refl
  symm := by
    intro a b equivalent
    rw [is_equiv_comm]
    exact equivalent
  trans := is_equiv_trans

theorem is_equiv_congruence : Congruence fun a b : Expr => a.isEquiv b = true where
  trans := is_equiv_trans
  unary := by
    intro id id' op a b operand
    rw [is_equiv_iff_canon] at operand ⊢
    rw [canon, canon, operand]
  binary := by
    intro id id' op l l' r r' left right
    rw [is_equiv_iff_canon] at left right ⊢
    rw [canon, canon, left, right]
  ternary := by
    intro id id' c c' yes yes' no no' condition positive negative
    rw [is_equiv_iff_canon] at condition positive negative ⊢
    rw [canon, canon, condition, positive, negative]
  paren := by
    intro id id' a b inner
    rw [is_equiv_iff_canon] at inner ⊢
    rw [canon, canon, inner]
  cast := by
    intro id id' ty a b operand
    rw [is_equiv_iff_canon] at operand ⊢
    rw [canon, canon, operand, ty_eq_of_canon operand]
  call := by
    intro id id' name ty args others operands
    rw [is_equiv_iff_canon, canon, canon, canon_all_eq_of_equiv operands]

/-- Expressions are equivalent exactly when they have one canonical form, which is the only
canonical expression of their class. -/
theorem is_equiv_decides_canon :
    (∀ a b : Expr, a.isEquiv b = true ↔ a.canon = b.canon) ∧
      Equivalence (fun a b : Expr => a.isEquiv b = true) ∧
      Congruence (fun a b : Expr => a.isEquiv b = true) ∧
      (∀ id id' v, (var id v).isEquiv (var id' v) = true) ∧
      (∀ id id' c, (lit id c).isEquiv (lit id' c) = true) ∧
      ∀ e : Expr, e.canon.IsCanonical ∧
        ∀ c : Expr, c.IsCanonical → (e.isEquiv c = true ↔ c = e.canon) := by
  refine ⟨is_equiv_iff_canon, is_equiv_equivalence, is_equiv_congruence, ?_, ?_, ?_⟩
  · intro id id' v
    rw [is_equiv_iff_canon, canon, canon]
  · intro id id' c
    rw [is_equiv_iff_canon, canon, canon]
  intro e
  refine ⟨canon_is_canonical e, ?_⟩
  intro c canonical
  rw [is_equiv_iff_canon, canon_of_canonical canonical, eq_comm]

end Condense.Expr
