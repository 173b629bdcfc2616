import Condense.Pass.Nodes
import Condense.Proofs.Trees
import Mathlib.Data.List.Basic

/-!
# Nodes and their operands

A node is an id, a kind and a list of operands. What holds of a node because it holds of
its operands then takes one case and not one for each kind of node, and a traversal is one
equation: the operands from left to right, a new id if the id of one of them changed, and
a step at the node. `Through` is what a relation between one expression and the next comes
to for a list of operands that are taken one after the other.
-/

namespace Condense

set_option autoImplicit false

namespace Expr

def rebuild (e : Expr) (id : NodeId) (operands : List Expr) : Expr :=
  match e, operands with
  | var _ v, [] => var id v
  | lit _ c, [] => lit id c
  | unary _ op _, [a] => unary id op a
  | binary _ op _ _, [l, r] => binary id op l r
  | ternary _ _ _ _, [c, yes, no] => ternary id c yes no
  | paren _ _, [a] => paren id a
  | cast _ ty _, [a] => cast id ty a
  | call _ name ty _, args => call id name ty args
  | e, _ => e

theorem rebuild_self (e : Expr) : e.rebuild e.id e.children = e := by
  cases e <;> rfl

section Rebuild

variable {e : Expr} {operands : List Expr} (id : NodeId)

theorem rebuild_cases (same : operands.length = e.children.length) :
    (e.rebuild id operands).id = id ∧ (e.rebuild id operands).children = operands := by
  cases e with
  | var _ v =>
      obtain rfl := List.length_eq_zero_iff.mp same
      exact ⟨rfl, rfl⟩
  | lit _ c =>
      obtain rfl := List.length_eq_zero_iff.mp same
      exact ⟨rfl, rfl⟩
  | unary _ op a =>
      obtain ⟨a', rfl⟩ := List.length_eq_one_iff.mp same
      exact ⟨rfl, rfl⟩
  | binary _ op l r =>
      obtain ⟨l', r', rfl⟩ := List.length_eq_two.mp same
      exact ⟨rfl, rfl⟩
  | ternary _ c yes no =>
      obtain ⟨c', yes', no', rfl⟩ := List.length_eq_three.mp same
      exact ⟨rfl, rfl⟩
  | paren _ a =>
      obtain ⟨a', rfl⟩ := List.length_eq_one_iff.mp same
      exact ⟨rfl, rfl⟩
  | cast _ ty a =>
      obtain ⟨a', rfl⟩ := List.length_eq_one_iff.mp same
      exact ⟨rfl, rfl⟩
  | call _ name ty args => exact ⟨rfl, rfl⟩

end Rebuild

theorem nodes_eq (e : Expr) : e.nodes = e :: nodesOf e.children := by
  cases e <;> simp [nodes, children, nodesOf]

theorem forall_nodes_iff {property : Expr → Prop} {e : Expr} :
    (∀ node ∈ e.nodes, property node) ↔
      property e ∧ ∀ child ∈ e.children, ∀ node ∈ child.nodes, property node := by
  rw [e.nodes_eq, List.forall_mem_cons]
  refine and_congr_right fun _ => ?_
  constructor
  · intro below child member node inside
    exact below node (mem_nodes_of.mpr ⟨child, member, inside⟩)
  · intro below node deeper
    rcases mem_nodes_of.mp deeper with ⟨child, member, inside⟩
    exact below child member node inside

theorem children_induction {motive : Expr → Prop}
    (node : ∀ e, (∀ child ∈ e.children, motive child) → motive e) (e : Expr) : motive e := by
  induction e with
  | call id name ty args each => exact node _ each
  | _ => apply node; simp_all [children]

section Traversal

variable {m : Type → Type} [Monad m] [LawfulMonad m] {renew : NodeId → Bool → m NodeId}
  {step : Expr → m Expr}

theorem bottom_up_eq (keeps : ∀ id, renew id false = pure id) (e : Expr) :
    e.bottomUp renew step = (do
      let operands ← bottomUpAll renew step e.children
      let id ← renew e.id (operands.map Expr.id != e.children.map Expr.id)
      step (e.rebuild id operands)) := by
  cases e <;> simp [bottomUp, bottomUpAll, children, rebuild, keeps, bne, Bool.or_assoc] <;> rfl

end Traversal

end Expr

/-- Operands taken one after the other, each from the state that the one before has left. -/
inductive Through {S : Type} (related : S → Expr → S → Expr → Prop) :
    S → List Expr → S → List Expr → Prop where
  | nil (s : S) : Through related s [] s []
  | cons {s u t : S} {a a' : Expr} {as as' : List Expr} (head : related s a u a')
      (tail : Through related u as t as') : Through related s (a :: as) t (a' :: as')

namespace Through

variable {S T : Type} {s t : S} {as bs : List Expr}

theorem length_eq {related : S → Expr → S → Expr → Prop} (through : Through related s as t bs) :
    bs.length = as.length := by
  induction through with
  | nil => rfl
  | cons head tail ih => rw [List.length_cons, List.length_cons, ih]

theorem map {related : S → Expr → S → Expr → Prop} {related' : T → Expr → T → Expr → Prop}
    (view : S → T)
    (each : ∀ {s e t r}, related s e t r → related' (view s) e (view t) r)
    (through : Through related s as t bs) : Through related' (view s) as (view t) bs := by
  induction through with
  | nil s => exact .nil _
  | cons head tail ih => exact .cons (each head) ih

theorem keeps {related : S → Expr → S → Expr → Prop} (holds : S → Prop)
    (each : ∀ {s e t r}, related s e t r → holds s → holds t)
    (through : Through related s as t bs) (kept : holds s) : holds t := by
  induction through with
  | nil s => exact kept
  | cons head tail ih => exact ih (each head kept)

theorem unchanged {related : S → Expr → S → Expr → Prop} (view : S → T)
    (each : ∀ {s e t r}, related s e t r → view t = view s)
    (through : Through related s as t bs) : view t = view s := by
  induction through with
  | nil s => rfl
  | cons head tail ih => exact ih.trans (each head)

end Through

end Condense
