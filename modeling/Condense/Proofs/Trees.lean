import Condense.Expr.Basic

/-!
# Trees of expressions

The induction principle of expressions, with the operands of a call as a list, and what
the variables and calls of a node are in terms of those of its operands.
-/

namespace Condense.Expr

set_option autoImplicit false

/-- A property of every node whose operands have it is a property of every expression. -/
@[elab_as_elim, induction_eliminator]
theorem induction {motive : Expr → Prop}
    (var : ∀ id v, motive (.var id v))
    (lit : ∀ id literal, motive (.lit id literal))
    (unary : ∀ id op operand, motive operand → motive (.unary id op operand))
    (binary : ∀ id op lhs rhs, motive lhs → motive rhs → motive (.binary id op lhs rhs))
    (ternary : ∀ id condition yes no, motive condition → motive yes → motive no →
      motive (.ternary id condition yes no))
    (paren : ∀ id inner, motive inner → motive (.paren id inner))
    (cast : ∀ id ty operand, motive operand → motive (.cast id ty operand))
    (call : ∀ id name ty args, (∀ arg ∈ args, motive arg) → motive (.call id name ty args))
    (e : Expr) : motive e := by
  -- The second motive is that of the list of a call's operands.
  refine @Expr.rec motive (fun args => ∀ arg ∈ args, motive arg) var lit unary binary ternary
    paren cast call ?_ ?_ e
  · intro arg member
    cases member
  · intro first rest head tail arg member
    rcases List.mem_cons.mp member with same | later
    · rw [same]
      exact head
    · exact tail arg later

theorem mem_nodes_of {args : List Expr} {node : Expr} :
    node ∈ nodesOf args ↔ ∃ arg ∈ args, node ∈ arg.nodes := by
  induction args with
  | nil => simp [nodesOf]
  | cons first rest ih => simp [nodesOf, ih]

theorem self_mem_nodes (e : Expr) : e ∈ e.nodes := by
  cases e <;> simp [nodes]

section Variables

variable (id : NodeId)

@[simp] theorem occurrences_var (v : Variable) : (var id v).occurrences = [v] := rfl

@[simp] theorem occurrences_lit (c : Literal) : (lit id c).occurrences = [] := rfl

@[simp] theorem occurrences_unary (op : UnaryOp) (e : Expr) :
    (unary id op e).occurrences = e.occurrences := rfl

@[simp] theorem occurrences_binary (op : BinaryOp) (l r : Expr) :
    (binary id op l r).occurrences = l.occurrences ++ r.occurrences :=
  List.filterMap_append

@[simp] theorem occurrences_ternary (c yes no : Expr) :
    (ternary id c yes no).occurrences
      = c.occurrences ++ (yes.occurrences ++ no.occurrences) := by
  show (c.nodes ++ (yes.nodes ++ no.nodes)).filterMap asVariable = _
  rw [List.filterMap_append, List.filterMap_append]
  rfl

@[simp] theorem occurrences_paren (e : Expr) : (paren id e).occurrences = e.occurrences := rfl

@[simp] theorem occurrences_cast (ty : Ty) (e : Expr) :
    (cast id ty e).occurrences = e.occurrences := rfl

end Variables

section Calls

variable (id : NodeId)

@[simp] theorem has_call_var (v : Variable) : (var id v).hasCall = false := rfl

@[simp] theorem has_call_lit (c : Literal) : (lit id c).hasCall = false := rfl

@[simp] theorem has_call_unary (op : UnaryOp) (e : Expr) :
    (unary id op e).hasCall = e.hasCall := rfl

@[simp] theorem has_call_binary (op : BinaryOp) (l r : Expr) :
    (binary id op l r).hasCall = (l.hasCall || r.hasCall) :=
  List.any_append

@[simp] theorem has_call_ternary (c yes no : Expr) :
    (ternary id c yes no).hasCall = (c.hasCall || (yes.hasCall || no.hasCall)) := by
  show (c.nodes ++ (yes.nodes ++ no.nodes)).any isCall = _
  rw [List.any_append, List.any_append]
  rfl

@[simp] theorem has_call_paren (e : Expr) : (paren id e).hasCall = e.hasCall := rfl

@[simp] theorem has_call_cast (ty : Ty) (e : Expr) : (cast id ty e).hasCall = e.hasCall := rfl

@[simp] theorem has_call_call (name : String) (ty : Ty) (args : List Expr) :
    (call id name ty args).hasCall = true := rfl

end Calls

end Condense.Expr
