import Condense.Proofs.Operands
import Mathlib.Algebra.Order.BigOperators.Group.List
import Mathlib.Algebra.Order.Ring.Nat

/-!
# The weight of an expression

The measure by which the pass makes progress. Each node has a weight of one or two, so that
an expression weighs at most twice its number of nodes, and more than anything inside it.
Only a boolean literal and a call without operands weigh one.
-/

namespace Condense

set_option autoImplicit false

namespace Expr

theorem nodes_sublist_of_mem {args : List Expr} {arg : Expr} (member : arg ∈ args) :
    arg.nodes.Sublist (nodesOf args) := by
  induction args with
  | nil => cases member
  | cons first rest ih =>
      rw [nodesOf]
      rcases List.mem_cons.mp member with rfl | later
      · exact List.sublist_append_left _ _
      · exact (ih later).trans (List.sublist_append_right _ _)

theorem nodes_sublist {e node : Expr} (inside : node ∈ e.nodes) :
    node.nodes.Sublist e.nodes := by
  induction e using children_induction with
  | node e ih =>
      rw [e.nodes_eq] at inside ⊢
      rcases List.mem_cons.mp inside with rfl | deeper
      · rw [node.nodes_eq]
      · obtain ⟨child, member, inside⟩ := mem_nodes_of.mp deeper
        exact ((ih child member inside).trans (nodes_sublist_of_mem member)).cons e

def ownWeight : Expr → Nat
  | var .. => 2
  | lit _ c => if c.ty.isBool then 1 else 2
  | unary _ op _ => if op = .lnot then 2 else 1
  | _ => 1

/-- Variables, integer literals and negations count twice, all other nodes once. -/
def weight (e : Expr) : Nat :=
  (e.nodes.map ownWeight).sum

def weights (es : List Expr) : Nat :=
  ((nodesOf es).map ownWeight).sum

theorem own_weight_pos (e : Expr) : 1 ≤ e.ownWeight := by
  unfold ownWeight
  split
  all_goals (try split)
  all_goals decide

theorem own_weight_le (e : Expr) : e.ownWeight ≤ 2 := by
  unfold ownWeight
  split
  all_goals (try split)
  all_goals decide

theorem weight_eq (e : Expr) : e.weight = e.ownWeight + weights e.children := by
  rw [weight, nodes_eq, List.map_cons, List.sum_cons, weights]

theorem own_weight_rebuild (e : Expr) (id : NodeId) (operands : List Expr) :
    (e.rebuild id operands).ownWeight = e.ownWeight := by
  unfold rebuild
  split <;> rfl

@[simp] theorem weights_nil : weights [] = 0 := rfl

@[simp] theorem weights_cons (e : Expr) (rest : List Expr) :
    weights (e :: rest) = e.weight + weights rest := by
  rw [weights, nodesOf, List.map_append, List.sum_append, weight, weights]

theorem weight_pos (e : Expr) : 1 ≤ e.weight := by
  have own := e.own_weight_pos
  rw [weight_eq]
  omega

theorem weight_le (e : Expr) : e.weight ≤ 2 * e.nodeCount := by
  unfold weight nodeCount
  induction e.nodes with
  | nil => exact Nat.le_refl _
  | cons node rest ih =>
      have own := node.own_weight_le
      rw [List.map_cons, List.sum_cons, List.length_cons]
      omega

theorem node_count_eq (e : Expr) : e.nodeCount = (nodesOf e.children).length + 1 := by
  rw [nodeCount, nodes_eq, List.length_cons]

theorem weight_le_of_inside {args : List Expr} {node : Expr} (inside : node ∈ nodesOf args) :
    node.weight ≤ weights args := by
  obtain ⟨arg, member, inside⟩ := mem_nodes_of.mp inside
  have part := ((nodes_sublist inside).trans (nodes_sublist_of_mem member)).map ownWeight
  exact part.sum_le_sum fun _ _ => Nat.zero_le _

theorem node_count_lt_of_inside {e node : Expr} (inside : node ∈ nodesOf e.children) :
    node.nodeCount < e.nodeCount := by
  obtain ⟨arg, member, inside⟩ := mem_nodes_of.mp inside
  have part := ((nodes_sublist inside).trans (nodes_sublist_of_mem member)).length_le
  rw [node_count_eq e]
  exact Nat.lt_succ_of_le part

theorem one_lt_weight_of_child {e child : Expr} (member : child ∈ e.children) :
    1 < e.weight := by
  have own := e.own_weight_pos
  have least := child.weight_pos
  have below := weight_le_of_inside (mem_nodes_of.mpr ⟨child, member, child.self_mem_nodes⟩)
  rw [weight_eq]
  omega

/-- Only a boolean literal and a call without operands have the least weight. -/
theorem one_lt_weight {e : Expr} (undecided : e.asBool = none) (free : e.hasCall = false) :
    1 < e.weight := by
  cases e with
  | var id v => exact Nat.lt_succ_self 1
  | lit id c =>
      have integer : c.ty.isBool = false := by
        simpa [asBool, Literal.asBool] using undecided
      simp [weight_eq, ownWeight, integer, children]
  | unary id op a => exact one_lt_weight_of_child (List.mem_singleton_self a)
  | binary id op l r => exact one_lt_weight_of_child (List.mem_cons_self)
  | ternary id c yes no => exact one_lt_weight_of_child (List.mem_cons_self)
  | paren id a => exact one_lt_weight_of_child (List.mem_singleton_self a)
  | cast id ty a => exact one_lt_weight_of_child (List.mem_singleton_self a)
  | call id name ty args => cases free

end Expr

end Condense
