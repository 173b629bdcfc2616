import Condense.Pass.Simplify
import Condense.Proofs.Verdicts
import Condense.Proofs.Weight

/-!
# What the identities make of a node

The identities come to one of a few things at a node: they leave it, in whatever supply of
ids it is looked at; they put something in its place that is inside it; or they make a
literal, a comparison, or the node anew with a literal in the place of an integer. What
holds of each of these holds of the identities, and no later proof takes them apart again.
-/

namespace Condense

set_option autoImplicit false

namespace Expr

theorem unparen_mem_nodes (e : Expr) : e.unparen ∈ e.nodes := by
  induction e with
  | paren id a ih =>
      rw [nodes]
      exact List.mem_cons_of_mem _ ih
  | _ => exact self_mem_nodes _

theorem mem_nodes_of_unparen {a inner : Expr} {id : NodeId} {op : UnaryOp}
    (bare : a.unparen = .unary id op inner) : inner ∈ a.nodes := by
  apply (nodes_sublist a.unparen_mem_nodes).subset
  rw [bare, nodes]
  exact List.mem_cons_of_mem _ inner.self_mem_nodes

theorem unwrap_run (e : Expr) (nodes : Nodes) :
    (e.unwrap nodes).1 = e.unparen ∧ (e.unwrap nodes).2.next = nodes.next := by
  induction e generalizing nodes with
  | paren id a ih => exact ih (Nodes.inherit a.id id nodes).2
  | _ => exact ⟨rfl, rfl⟩

def IsIdle (e : Expr) : Prop :=
  ∀ nodes, Identities.atNode e nodes = (e, nodes)

def IsInteger (e : Expr) : Prop :=
  ∃ id c, e = .lit id c ∧ c.ty.isBool = false

end Expr

namespace Identities

open Condense.Expr

def Absorbs (op : BinaryOp) (absorbing : Bool) : Prop :=
  op = .land ∧ absorbing = false ∨ op = .lor ∧ absorbing = true

theorem Absorbs.logical {op : BinaryOp} {absorbing : Bool} (absorbs : Absorbs op absorbing) :
    op.isLogical = true := by
  rcases absorbs with ⟨rfl, rfl⟩ | ⟨rfl, rfl⟩ <;> rfl

theorem Absorbs.unique {op : BinaryOp} {absorbing absorbing' : Bool}
    (absorbs : Absorbs op absorbing) (absorbs' : Absorbs op absorbing') :
    absorbing' = absorbing := by
  rcases absorbs with ⟨rfl, rfl⟩ | ⟨rfl, rfl⟩ <;> rcases absorbs' with ⟨⟨⟩, rfl⟩ | ⟨⟨⟩, rfl⟩ <;> rfl

/-- A node to which an identity applies: parentheses or a cast that say nothing, a negation
of a literal or of a negation, and `&&` or `||` beside an integer literal or a literal that
can go without losing a call. -/
inductive IsRedex : Expr → Prop where
  | paren {id : NodeId} {a : Expr} (atomic : a.isAtomic = true) : IsRedex (.paren id a)
  | cast {id : NodeId} {ty : Ty} {a : Expr} (same : a.ty = ty) : IsRedex (.cast id ty a)
  | literal {id id' : NodeId} {c : Literal} : IsRedex (.unary id .lnot (.lit id' c))
  | negation {id id' : NodeId} {a inner : Expr} (negated : a.unparen = .unary id' .lnot inner) :
      IsRedex (.unary id .lnot a)
  | integerLeft {id : NodeId} {op : BinaryOp} {absorbing : Bool} {l r : Expr}
      (absorbs : Absorbs op absorbing) (integer : l.IsInteger) : IsRedex (.binary id op l r)
  | integerRight {id : NodeId} {op : BinaryOp} {absorbing : Bool} {l r : Expr}
      (absorbs : Absorbs op absorbing) (integer : r.IsInteger) : IsRedex (.binary id op l r)
  | absorbingLeft {id : NodeId} {op : BinaryOp} {absorbing : Bool} {l r : Expr}
      (absorbs : Absorbs op absorbing) (literal : l.asBool = some absorbing) :
      IsRedex (.binary id op l r)
  | absorbingRight {id : NodeId} {op : BinaryOp} {absorbing : Bool} {l r : Expr}
      (absorbs : Absorbs op absorbing) (literal : r.asBool = some absorbing)
      (callFree : l.hasCall = false) : IsRedex (.binary id op l r)
  | neutralLeft {id : NodeId} {op : BinaryOp} {absorbing : Bool} {l r : Expr}
      (absorbs : Absorbs op absorbing) (literal : l.asBool = some (!absorbing))
      (boolean : r.ty.isBool = true) : IsRedex (.binary id op l r)
  | neutralRight {id : NodeId} {op : BinaryOp} {absorbing : Bool} {l r : Expr}
      (absorbs : Absorbs op absorbing) (literal : r.asBool = some (!absorbing))
      (boolean : l.ty.isBool = true) : IsRedex (.binary id op l r)

theorem IsRedex.logical {id : NodeId} {op : BinaryOp} {l r : Expr}
    (redex : IsRedex (.binary id op l r)) : op.isLogical = true := by
  cases redex <;> exact Absorbs.logical ‹_›

inductive Collapsed (next : NodeId) : Expr → Expr → NodeId → Prop where
  | kept (e : Expr) : Collapsed next e e next
  | literal {id : NodeId} {c : Literal} (integer : c.ty.isBool = false) (value : Bool) :
      Collapsed next (.lit id c) (.lit next (.ofBool value)) (next + 1)

theorem collapse_run (e : Expr) (nodes : Nodes) :
    Collapsed nodes.next e (collapse e nodes).1.1 (collapse e nodes).2.next ∧
      ((collapse e nodes).1.2 = true ∧ (collapse e nodes).1.1 ≠ e ∨
        ∀ other, collapse e other = ((e, false), other)) := by
  cases e with
  | lit id c =>
      cases kind : c.ty.isBool with
      | true =>
          have same (other : Nodes) : collapse (.lit id c) other = ((.lit id c, false), other) := by
            rw [collapse, if_pos kind]
            rfl
          rw [same]
          exact ⟨.kept _, .inr same⟩
      | false =>
          have made : collapse (.lit id c) nodes
              = (((Nodes.literal c.isNonzero id nodes).1, true),
                (Nodes.literal c.isNonzero id nodes).2) := by
            rw [collapse, if_neg (by simp [kind])]
            rfl
          rw [made]
          refine ⟨.literal kind c.isNonzero, .inl ⟨rfl, ?_⟩⟩
          intro same
          obtain ⟨_, boolean⟩ := Expr.lit.inj same
          rw [← boolean] at kind
          cases kind
  | _ => exact ⟨.kept _, .inr fun _ => rfl⟩

theorem not_integer_of_collapse {e : Expr}
    (same : ∀ nodes, collapse e nodes = ((e, false), nodes)) : ¬e.IsInteger := by
  rintro ⟨id, c, rfl, integer⟩
  have kept := same ⟨0, {}⟩
  rw [collapse, if_neg (by simp [integer])] at kept
  have noted : true = false := congrArg (fun result => result.1.2) kept
  cases noted

/-- What the identities make of a node: the node itself, an expression inside it, a literal,
a comparison with zero, or the node with literals in the place of integer operands. The
least unused ids before and after tell which ids are new. -/
inductive Outcome (e : Expr) (next : NodeId) : Expr → NodeId → Prop where
  | kept (idle : e.IsIdle) (irreducible : ¬IsRedex e) : Outcome e next e next
  | inner {r : Expr} {next' : NodeId} (inside : r ∈ nodesOf e.children) (later : next ≤ next') :
      Outcome e next r next'
  | literal {id next' : NodeId} (value : Bool) (heavier : 1 < e.weight) (unused : next ≤ id)
      (used : id < next') : Outcome e next (.lit id (.ofBool value)) next'
  | comparison {id id' : NodeId} {a inner : Expr} (whole : e = .unary id .lnot a)
      (negated : a.unparen = .unary id' .lnot inner) (integer : inner.ty.isBool = false) :
      Outcome e next (.binary (next + 1) .ne inner (.lit next (.ofWord 0 inner.ty))) (next + 2)
  | joined {id middle next' : NodeId} {op : BinaryOp} {l r l' r' : Expr}
      (whole : e = .binary id op l r) (left : Collapsed next l l' middle)
      (right : Collapsed middle r r' next') (changed : [l', r'] ≠ [l, r]) :
      Outcome e next (.binary next' op l' r') (next' + 1)

theorem Collapsed.outcome {e operand r : Expr} {next before after next' : NodeId}
    (collapsed : Collapsed before operand r after) (member : operand ∈ e.children)
    (earlier : next ≤ before) (later : after ≤ next') : Outcome e next r next' := by
  cases collapsed with
  | kept =>
      exact .inner (mem_nodes_of.mpr ⟨operand, member, operand.self_mem_nodes⟩)
        (earlier.trans later)
  | literal integer value => exact .literal value (one_lt_weight_of_child member) earlier later

theorem Collapsed.le {next next' : NodeId} {e r : Expr} (collapsed : Collapsed next e r next') :
    next ≤ next' := by
  cases collapsed with
  | kept => exact Nat.le_refl _
  | literal integer value => exact Nat.le_succ _

/-- Between operands of which neither is an integer literal nor a literal that can go, `&&` and
`||` stay. -/
theorem junction_idle {id : NodeId} {op : BinaryOp} {absorbing : Bool} {l r : Expr}
    (whole : atNode (.binary id op l r) = junction id op absorbing l r)
    (left : ∀ nodes, collapse l nodes = ((l, false), nodes))
    (right : ∀ nodes, collapse r nodes = ((r, false), nodes))
    (absorbed : l.asBool ≠ some absorbing)
    (absorbed' : ¬(r.asBool = some absorbing ∧ !l.hasCall))
    (neutral : ¬(l.asBool = some (!absorbing) ∧ r.ty.isBool))
    (neutral' : ¬(r.asBool = some (!absorbing) ∧ l.ty.isBool)) :
    (Expr.binary id op l r).IsIdle := by
  intro nodes
  rw [whole]
  unfold junction
  rw [StateM.bind_run, left nodes]
  dsimp only
  rw [StateM.bind_run, right nodes]
  dsimp only
  rw [if_neg absorbed, if_neg absorbed', if_neg neutral, if_neg neutral']
  rfl

theorem junction_outcome {id : NodeId} {op : BinaryOp} {absorbing : Bool} {l r : Expr}
    (whole : atNode (.binary id op l r) = junction id op absorbing l r)
    (absorbs : Absorbs op absorbing) (nodes : Nodes) :
    Outcome (.binary id op l r) nodes.next (junction id op absorbing l r nodes).1
      (junction id op absorbing l r nodes).2.next := by
  obtain ⟨left, changed⟩ := collapse_run l nodes
  obtain ⟨right, changed'⟩ := collapse_run r (collapse l nodes).2
  have later := right.le
  unfold junction
  rw [StateM.bind_run]
  rcases first : collapse l nodes with ⟨⟨l', lc⟩, middle⟩
  rw [first] at left changed right changed' later
  dsimp only at left changed right changed' later ⊢
  rw [StateM.bind_run]
  rcases second : collapse r middle with ⟨⟨r', rc⟩, after⟩
  rw [second] at right changed' later
  dsimp only at right changed' later ⊢
  have takesLeft : Outcome (.binary id op l r) nodes.next l' after.next :=
    left.outcome (by simp [children]) (Nat.le_refl _) later
  have takesRight : Outcome (.binary id op l r) nodes.next r' after.next :=
    right.outcome (by simp [children]) left.le (Nat.le_refl _)
  by_cases absorbed : l'.asBool = some absorbing
  · rw [if_pos absorbed]
    exact takesLeft
  by_cases absorbed' : r'.asBool = some absorbing ∧ !l'.hasCall
  · rw [if_neg absorbed, if_pos absorbed']
    exact takesRight
  by_cases neutral : l'.asBool = some (!absorbing) ∧ r'.ty.isBool
  · rw [if_neg absorbed, if_neg absorbed', if_pos neutral]
    exact takesRight
  by_cases neutral' : r'.asBool = some (!absorbing) ∧ l'.ty.isBool
  · rw [if_neg absorbed, if_neg absorbed', if_neg neutral, if_pos neutral']
    exact takesLeft
  rw [if_neg absorbed, if_neg absorbed', if_neg neutral, if_neg neutral']
  have renewed (noted : (lc || rc) = true) (differ : [l', r'] ≠ [l, r]) :
      Outcome (.binary id op l r) nodes.next
        ((do return .binary (← Nodes.renew id (lc || rc)) op l' r' : StateM Nodes Expr) after).1
        ((do return .binary (← Nodes.renew id (lc || rc)) op l' r' : StateM Nodes Expr)
          after).2.next := by
    rw [noted]
    exact .joined rfl left right differ
  rcases changed with ⟨rfl, differs⟩ | same
  · exact renewed rfl (by simp [differs])
  rcases changed' with ⟨rfl, differs⟩ | same'
  · exact renewed (Bool.or_true _) (by simp [differs])
  -- No operand is an integer literal, in whatever supply the node is looked at.
  rw [same nodes] at first
  cases first
  rw [same' nodes] at second
  cases second
  refine .kept (junction_idle whole same same' absorbed absorbed' neutral neutral') fun redex => ?_
  cases redex with
  | integerLeft _ integer => exact not_integer_of_collapse same integer
  | integerRight _ integer => exact not_integer_of_collapse same' integer
  | absorbingLeft absorbs' literal =>
      rw [absorbs.unique absorbs'] at literal
      exact absorbed literal
  | absorbingRight absorbs' literal callFree =>
      rw [absorbs.unique absorbs'] at literal
      exact absorbed' ⟨literal, by simp [callFree]⟩
  | neutralLeft absorbs' literal boolean =>
      rw [absorbs.unique absorbs'] at literal
      exact neutral ⟨literal, boolean⟩
  | neutralRight absorbs' literal boolean =>
      rw [absorbs.unique absorbs'] at literal
      exact neutral' ⟨literal, boolean⟩

/-- The negation of anything but a literal or a negation stays. -/
theorem negation_of_plain {a : Expr} (id : NodeId) (undecided : a.asBool = none)
    (plain : ∀ id' inner, a.unparen ≠ .unary id' .lnot inner) :
    negation id a = pure (.unary id .lnot a) := by
  unfold negation
  rw [undecided]
  dsimp only
  split
  · next id' inner negated => exact absurd negated (plain id' inner)
  · rfl

theorem negation_outcome {id : NodeId} {a : Expr}
    (same : ∀ nodes, collapse a nodes = ((a, false), nodes)) (nodes : Nodes) :
    Outcome (.unary id .lnot a) nodes.next (atNode (.unary id .lnot a) nodes).1
      (atNode (.unary id .lnot a) nodes).2.next := by
  have whole : atNode (.unary id .lnot a) = negation id a := by
    funext other
    rw [atNode, StateM.bind_run, same]
  rw [whole]
  have member : a ∈ (Expr.unary id .lnot a).children := List.mem_singleton_self a
  cases literal : a.asBool with
  | some value =>
      unfold negation
      rw [literal]
      exact .literal (!value) (one_lt_weight_of_child member) (Nat.le_refl _) (Nat.lt_succ_self _)
  | none =>
      by_cases negated : ∃ id' inner, a.unparen = .unary id' .lnot inner
      · obtain ⟨id', inner, negated⟩ := negated
        have inside : inner ∈ nodesOf (Expr.unary id .lnot a).children :=
          mem_nodes_of.mpr ⟨a, member, mem_nodes_of_unparen negated⟩
        unfold negation
        rw [literal, negated]
        dsimp only
        rw [StateM.bind_run]
        cases kind : inner.ty.isBool with
        | true => exact .inner inside (Nat.le_refl _)
        | false => exact .comparison rfl negated kind
      · have plain : negation id a = pure (.unary id .lnot a) :=
          negation_of_plain id literal fun id' inner same => negated ⟨id', inner, same⟩
        rw [plain] at whole ⊢
        refine .kept (fun other => congrFun whole other) fun redex => ?_
        cases redex with
        | @literal _ id' c =>
            apply not_integer_of_collapse same
            refine ⟨id', c, rfl, ?_⟩
            cases kind : c.ty.isBool with
            | false => rfl
            | true => simp [asBool, Literal.asBool, kind] at literal
        | negation again => exact negated ⟨_, _, again⟩

theorem at_node_outcome (e : Expr) (nodes : Nodes) :
    Outcome e nodes.next (atNode e nodes).1 (atNode e nodes).2.next := by
  have operand {e a : Expr} (member : a ∈ e.children) : Outcome e nodes.next a nodes.next :=
    .inner (mem_nodes_of.mpr ⟨a, member, a.self_mem_nodes⟩) (Nat.le_refl _)
  cases e with
  | paren id a =>
      cases atomic : a.isAtomic with
      | true =>
          rw [atNode, if_pos atomic]
          exact operand (List.mem_singleton_self a)
      | false =>
          have idle (other : Nodes) : atNode (.paren id a) other = (.paren id a, other) := by
            rw [atNode, if_neg (by simp [atomic])]
            rfl
          rw [idle]
          refine .kept idle fun redex => ?_
          cases redex with
          | paren redundant =>
              rw [atomic] at redundant
              cases redundant
  | cast id ty a =>
      by_cases same : a.ty = ty
      · rw [atNode, if_pos same]
        exact operand (List.mem_singleton_self a)
      · have idle (other : Nodes) : atNode (.cast id ty a) other = (.cast id ty a, other) := by
          rw [atNode, if_neg same]
          rfl
        rw [idle]
        refine .kept idle fun redex => ?_
        cases redex with
        | cast redundant => exact same redundant
  | unary id op a =>
      cases op with
      | lnot =>
          obtain ⟨collapsed, changed⟩ := collapse_run a nodes
          rcases changed with ⟨_, differs⟩ | same
          · rw [atNode, StateM.bind_run]
            rcases run : collapse a nodes with ⟨⟨a', noted⟩, middle⟩
            rw [run] at collapsed differs
            dsimp only at collapsed differs ⊢
            have later := collapsed.le
            generalize middle.next = next at collapsed
            cases collapsed with
            | kept => exact absurd rfl differs
            | literal integer value =>
                have literal : (Expr.lit nodes.next (.ofBool value)).asBool = some value := by
                  cases value <;> rfl
                unfold negation
                rw [literal]
                exact .literal (!value) (one_lt_weight_of_child (List.mem_singleton_self _)) later
                  (Nat.lt_succ_self _)
          · exact negation_outcome same nodes
      | _ =>
          refine .kept (fun _ => rfl) fun redex => ?_
          cases redex
  | binary id op l r =>
      cases op with
      | land => exact junction_outcome rfl (.inl ⟨rfl, rfl⟩) nodes
      | lor => exact junction_outcome rfl (.inr ⟨rfl, rfl⟩) nodes
      | _ =>
          refine .kept (fun _ => rfl) fun redex => ?_
          cases redex.logical
  | _ =>
      refine .kept (fun _ => rfl) fun redex => ?_
      cases redex

end Identities

end Condense
