import Condense.Numbering
import Condense.Proofs.Identity

/-!
# Numbering anew

Numbering gives every node of a tree an id of its own, from the least unused id on, and
leaves everything else as it is. What a tree is without its ids is its `anonymous` form.
-/

namespace Condense

set_option autoImplicit false

/-- Nodes whose ids are the ones handed out from `next` to `after`, no two of them the same. -/
structure Takes (next after : NodeId) (nodes : List Expr) : Prop where
  later : next ≤ after
  within : ∀ node ∈ nodes, next ≤ node.id ∧ node.id < after
  distinct : (nodes.map Expr.id).Nodup

namespace Takes

variable {next middle after : NodeId} {nodes others : List Expr}

theorem nil (next : NodeId) : Takes next next [] where
  later := Nat.le_refl next
  within := by simp
  distinct := List.nodup_nil

theorem append (first : Takes next middle nodes) (second : Takes middle after others) :
    Takes next after (nodes ++ others) where
  later := Nat.le_trans first.later second.later
  within := by
    intro node member
    rcases List.mem_append.mp member with early | late
    · rcases first.within node early with ⟨above, below⟩
      exact ⟨above, Nat.lt_of_lt_of_le below second.later⟩
    · rcases second.within node late with ⟨above, below⟩
      exact ⟨Nat.le_trans first.later above, below⟩
  distinct := by
    rw [List.map_append, List.nodup_append]
    refine ⟨first.distinct, second.distinct, ?_⟩
    intro i early j late same
    rcases List.mem_map.mp early with ⟨node, member, rfl⟩
    rcases List.mem_map.mp late with ⟨node', member', rfl⟩
    have below := (first.within node member).2
    have above := (second.within node' member').1
    rw [same] at below
    exact Nat.not_lt_of_le above below

theorem node {e : Expr} (operands : Takes next after nodes) (last : e.id = after) :
    Takes next (after + 1) (e :: nodes) where
  later := Nat.le_succ_of_le operands.later
  within := by
    intro node member
    rcases List.mem_cons.mp member with rfl | inside
    · rw [last]
      exact ⟨operands.later, Nat.lt_succ_self after⟩
    · rcases operands.within node inside with ⟨above, below⟩
      exact ⟨above, Nat.lt_succ_of_lt below⟩
  distinct := by
    rw [List.map_cons, List.nodup_cons]
    refine ⟨?_, operands.distinct⟩
    intro taken
    rcases List.mem_map.mp taken with ⟨node, member, same⟩
    have below := (operands.within node member).2
    rw [same, last] at below
    exact Nat.lt_irrefl after below

end Takes

namespace Expr

theorem anonymous_anonymous (e : Expr) : e.anonymous.anonymous = e.anonymous := by
  induction e with
  | var id v => rfl
  | lit id c => rfl
  | unary id op e ih => rw [anonymous, anonymous, ih]
  | binary id op l r left right => rw [anonymous, anonymous, left, right]
  | ternary id c yes no condition positive negative =>
      rw [anonymous, anonymous, condition, positive, negative]
  | paren id e ih => rw [anonymous, anonymous, ih]
  | cast id ty e ih => rw [anonymous, anonymous, ih]
  | call id name ty args each =>
      have all : (args.map anonymous).map anonymous = args.map anonymous := by
        rw [List.map_map]
        exact List.map_congr_left each
      rw [anonymous, anonymous, anonymous_all_eq_map, anonymous_all_eq_map, all]

theorem lit_mem_of_anonymous_eq {a b : Expr} (same : a.anonymous = b.anonymous) {id : NodeId}
    {c : Literal} (member : lit id c ∈ a.nodes) : ∃ id', lit id' c ∈ b.nodes := by
  have erased : lit 0 c ∈ b.nodes.map anonymous := by
    rw [← nodes_anonymous, ← same, nodes_anonymous]
    exact List.mem_map_of_mem member
  obtain ⟨node, inside, form⟩ := List.mem_map.mp erased
  cases node with
  | lit id' c' =>
      cases form
      exact ⟨id', inside⟩
  | _ => cases form

theorem numbered_all_spec {args : List Expr}
    (each : ∀ arg ∈ args, ∀ next, (arg.numbered next).1.anonymous = arg.anonymous ∧
      Takes next (arg.numbered next).2 (arg.numbered next).1.nodes) (next : NodeId) :
    anonymousAll (numberedAll args next).1 = anonymousAll args ∧
      Takes next (numberedAll args next).2 (nodesOf (numberedAll args next).1) := by
  induction args generalizing next with
  | nil => exact ⟨rfl, .nil next⟩
  | cons first rest ih =>
      rcases each first (by simp) next with ⟨content, taken⟩
      rcases ih (fun arg member => each arg (by simp [member])) (first.numbered next).2 with
        ⟨contents, takes⟩
      exact ⟨congrArg₂ List.cons content contents, taken.append takes⟩

theorem numbered_spec (e : Expr) (next : NodeId) :
    (e.numbered next).1.anonymous = e.anonymous ∧
      Takes next (e.numbered next).2 (e.numbered next).1.nodes := by
  induction e generalizing next with
  | var id v => exact ⟨rfl, (Takes.nil next).node rfl⟩
  | lit id c => exact ⟨rfl, (Takes.nil next).node rfl⟩
  | unary id op e ih =>
      rcases ih next with ⟨content, taken⟩
      exact ⟨congrArg (unary 0 op) content, taken.node rfl⟩
  | binary id op l r left right =>
      rcases left next with ⟨first, taken⟩
      rcases right (l.numbered next).2 with ⟨second, taken'⟩
      exact ⟨congrArg₂ (binary 0 op) first second, (taken.append taken').node rfl⟩
  | ternary id c yes no condition positive negative =>
      rcases condition next with ⟨first, taken⟩
      rcases positive (c.numbered next).2 with ⟨second, taken'⟩
      rcases negative (yes.numbered (c.numbered next).2).2 with ⟨third, taken''⟩
      refine ⟨?_, (taken.append (taken'.append taken'')).node rfl⟩
      show ternary 0 (c.numbered next).1.anonymous _ _ = _
      rw [first, second, third, anonymous]
  | paren id e ih =>
      rcases ih next with ⟨content, taken⟩
      exact ⟨congrArg (paren 0) content, taken.node rfl⟩
  | cast id ty e ih =>
      rcases ih next with ⟨content, taken⟩
      exact ⟨congrArg (cast 0 ty) content, taken.node rfl⟩
  | call id name ty args each =>
      rcases numbered_all_spec each next with ⟨contents, taken⟩
      exact ⟨congrArg (call 0 name ty) contents, taken.node rfl⟩

end Expr

namespace Statement

mutual

def anonymous : Statement → Statement
  | block body => block (anonymousAll body)
  | ifThen c yes => ifThen c.anonymous yes.anonymous
  | ifElse c yes no => ifElse c.anonymous yes.anonymous no.anonymous
  | whileDo c body => whileDo c.anonymous body.anonymous
  | doWhile body c => doWhile body.anonymous c.anonymous
  | eval e => eval e.anonymous
  | ret e => ret (e.map Expr.anonymous)
  | breakLoop => breakLoop
  | continueLoop => continueLoop

def anonymousAll : List Statement → List Statement
  | [] => []
  | s :: rest => s.anonymous :: anonymousAll rest

end

def nodes (s : Statement) : List Expr :=
  Expr.nodesOf s.expressions

mutual

theorem anonymous_anonymous : (s : Statement) → s.anonymous.anonymous = s.anonymous
  | block body => congrArg block (anonymous_all_anonymous body)
  | ifThen c yes => congrArg₂ ifThen c.anonymous_anonymous (anonymous_anonymous yes)
  | ifElse c yes no => by
      rw [anonymous, anonymous, c.anonymous_anonymous, anonymous_anonymous yes,
        anonymous_anonymous no]
  | whileDo c body => congrArg₂ whileDo c.anonymous_anonymous (anonymous_anonymous body)
  | doWhile body c => congrArg₂ doWhile (anonymous_anonymous body) c.anonymous_anonymous
  | eval e => congrArg eval e.anonymous_anonymous
  | ret none => rfl
  | ret (some e) => congrArg (fun e => ret (some e)) e.anonymous_anonymous
  | breakLoop => rfl
  | continueLoop => rfl

theorem anonymous_all_anonymous :
    (body : List Statement) → anonymousAll (anonymousAll body) = anonymousAll body
  | [] => rfl
  | s :: rest => congrArg₂ List.cons (anonymous_anonymous s) (anonymous_all_anonymous rest)

end

mutual

theorem numbered_spec : (s : Statement) → (next : NodeId) →
    (s.numbered next).1.anonymous = s.anonymous ∧
      Takes next (s.numbered next).2 (s.numbered next).1.nodes
  | block body, next => by
      rcases numbered_all_spec body next with ⟨contents, taken⟩
      exact ⟨congrArg block contents, taken⟩
  | ifThen c yes, next => by
      rcases c.numbered_spec next with ⟨first, taken⟩
      rcases numbered_spec yes (c.numbered next).2 with ⟨second, taken'⟩
      exact ⟨congrArg₂ ifThen first second, taken.append taken'⟩
  | ifElse c yes no, next => by
      rcases c.numbered_spec next with ⟨first, taken⟩
      rcases numbered_spec yes (c.numbered next).2 with ⟨second, taken'⟩
      rcases numbered_spec no (yes.numbered (c.numbered next).2).2 with ⟨third, taken''⟩
      constructor
      · show ifElse (c.numbered next).1.anonymous _ _ = _
        rw [first, second, third, anonymous]
      · have parts := taken.append (taken'.append taken'')
        unfold nodes at parts ⊢
        rw [← Expr.nodes_of_append] at parts
        exact parts
  | whileDo c body, next => by
      rcases c.numbered_spec next with ⟨first, taken⟩
      rcases numbered_spec body (c.numbered next).2 with ⟨second, taken'⟩
      exact ⟨congrArg₂ whileDo first second, taken.append taken'⟩
  | doWhile body c, next => by
      rcases numbered_spec body next with ⟨first, taken⟩
      rcases c.numbered_spec (body.numbered next).2 with ⟨second, taken'⟩
      refine ⟨congrArg₂ doWhile first second, ?_⟩
      have parts := taken.append taken'
      unfold nodes at parts ⊢
      rw [← Expr.nodes_of_singleton, ← Expr.nodes_of_append] at parts
      exact parts
  | eval e, next => by
      rcases e.numbered_spec next with ⟨content, taken⟩
      refine ⟨congrArg eval content, ?_⟩
      rw [← Expr.nodes_of_singleton] at taken
      exact taken
  | ret none, next => ⟨rfl, .nil next⟩
  | ret (some e), next => by
      rcases e.numbered_spec next with ⟨content, taken⟩
      refine ⟨congrArg (fun e => ret (some e)) content, ?_⟩
      rw [← Expr.nodes_of_singleton] at taken
      exact taken
  | breakLoop, next => ⟨rfl, .nil next⟩
  | continueLoop, next => ⟨rfl, .nil next⟩

theorem numbered_all_spec : (body : List Statement) → (next : NodeId) →
    anonymousAll (numberedAll body next).1 = anonymousAll body ∧
      Takes next (numberedAll body next).2
        (Expr.nodesOf (expressionsOf (numberedAll body next).1))
  | [], next => ⟨rfl, .nil next⟩
  | s :: rest, next => by
      rcases numbered_spec s next with ⟨content, taken⟩
      rcases numbered_all_spec rest (s.numbered next).2 with ⟨contents, takes⟩
      refine ⟨congrArg₂ List.cons content contents, ?_⟩
      have parts := taken.append takes
      unfold nodes at parts
      rw [← Expr.nodes_of_append] at parts
      exact parts

end

end Statement

def Routine.anonymous (r : Routine) : Routine :=
  { r with body := r.body.anonymous }

namespace Program

def anonymous (p : Program) : Program :=
  ⟨p.routines.map Routine.anonymous⟩

def nodes (p : Program) : List Expr :=
  p.routines.flatMap fun r => r.body.nodes

theorem anonymous_anonymous (p : Program) : p.anonymous.anonymous = p.anonymous := by
  have routine (r : Routine) : r.anonymous.anonymous = r.anonymous :=
    congrArg (fun body => { r with body := body }) r.body.anonymous_anonymous
  simp [anonymous, routine]

theorem numbered_spec (p : Program) (next : NodeId) :
    (p.numbered next).1.anonymous = p.anonymous ∧
      Takes next (p.numbered next).2 (p.numbered next).1.nodes := by
  have all (routines : List Routine) (next : NodeId) :
      (routines.mapM Routine.numbered next).1.map Routine.anonymous
          = routines.map Routine.anonymous ∧
        Takes next (routines.mapM Routine.numbered next).2
          ((routines.mapM Routine.numbered next).1.flatMap fun r => r.body.nodes) := by
    induction routines generalizing next with
    | nil => exact ⟨rfl, .nil next⟩
    | cons r rest ih =>
        rcases r.body.numbered_spec next with ⟨content, taken⟩
        rcases ih (r.numbered next).2 with ⟨contents, takes⟩
        rw [List.mapM_cons]
        refine ⟨congrArg₂ List.cons ?_ contents, taken.append takes⟩
        exact congrArg (fun body => { r with body := body }) content
  rcases all p.routines next with ⟨contents, taken⟩
  exact ⟨congrArg Program.mk contents, taken⟩

end Program

end Condense
