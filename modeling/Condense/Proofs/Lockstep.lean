import Condense.Proofs.Canonical
import Condense.Proofs.Traversal

/-!
# Two runs in lockstep

The same work, started with two supplies of ids, makes the same expressions up to the ids
of the nodes it makes. Ids correspond when they are the same id from before both runs, or
were handed out at the same point of the two runs; this is one to one, so the two runs see
the same nodes change. Lockstep is reasoned about as in `Condense.Proofs.Traversal`, with
relations between two results in place of properties of one.
-/

namespace Condense

set_option autoImplicit false

/-- Ids of two runs that started with `first` and `second` as their least unused ids. -/
def Corresponds (first second i j : Nat) : Prop :=
  i = j ∧ i < first ∧ i < second ∨ ∃ made, i = first + made ∧ j = second + made

theorem Corresponds.eq_iff {first second i i' j j' : Nat}
    (before : Corresponds first second i j) (after : Corresponds first second i' j') :
    i' = i ↔ j' = j := by
  rcases before with ⟨rfl, _, _⟩ | ⟨made, rfl, rfl⟩ <;>
    rcases after with ⟨rfl, _, _⟩ | ⟨made', rfl, rfl⟩ <;> omega

theorem Corresponds.bne_eq {first second i i' j j' : Nat}
    (before : Corresponds first second i j) (after : Corresponds first second i' j') :
    (i' != i) = (j' != j) := by
  rw [Bool.eq_iff_iff, bne_iff_ne, bne_iff_ne, ne_eq, ne_eq, before.eq_iff after]

inductive Alike (first second : NodeId) : Expr → Expr → Prop where
  | var {i j : NodeId} {v : Variable} (same : Corresponds first second i j) :
      Alike first second (.var i v) (.var j v)
  | lit {i j : NodeId} {c : Literal} (same : Corresponds first second i j) :
      Alike first second (.lit i c) (.lit j c)
  | unary {i j : NodeId} {op : UnaryOp} {a b : Expr} (same : Corresponds first second i j)
      (operand : Alike first second a b) :
      Alike first second (.unary i op a) (.unary j op b)
  | binary {i j : NodeId} {op : BinaryOp} {l l' r r' : Expr}
      (same : Corresponds first second i j) (left : Alike first second l l')
      (right : Alike first second r r') :
      Alike first second (.binary i op l r) (.binary j op l' r')
  | ternary {i j : NodeId} {c c' yes yes' no no' : Expr}
      (same : Corresponds first second i j) (condition : Alike first second c c')
      (positive : Alike first second yes yes') (negative : Alike first second no no') :
      Alike first second (.ternary i c yes no) (.ternary j c' yes' no')
  | paren {i j : NodeId} {a b : Expr} (same : Corresponds first second i j)
      (inner : Alike first second a b) : Alike first second (.paren i a) (.paren j b)
  | cast {i j : NodeId} {ty : Ty} {a b : Expr} (same : Corresponds first second i j)
      (operand : Alike first second a b) : Alike first second (.cast i ty a) (.cast j ty b)
  | call {i j : NodeId} {name : String} {ty : Ty} {args args' : List Expr}
      (same : Corresponds first second i j)
      (operands : List.Forall₂ (Alike first second) args args') :
      Alike first second (.call i name ty args) (.call j name ty args')

namespace Alike

variable {first second : NodeId} {a b : Expr}

theorem id (alike : Alike first second a b) : Corresponds first second a.id b.id := by
  cases alike <;> assumption

theorem as_bool_eq (alike : Alike first second a b) : b.asBool = a.asBool := by
  cases alike <;> rfl

theorem is_atomic_eq (alike : Alike first second a b) : b.isAtomic = a.isAtomic := by
  cases alike <;> rfl

theorem canon_eq (alike : Alike first second a b) : b.canon = a.canon := by
  induction a generalizing b with
  | var id v => cases alike; rfl
  | lit id c => cases alike; rfl
  | unary id op a ih =>
      cases alike with
      | unary same operand => rw [Expr.canon, Expr.canon, ih operand]
  | binary id op l r left right =>
      cases alike with
      | binary same first second => rw [Expr.canon, Expr.canon, left first, right second]
  | ternary id c yes no condition positive negative =>
      cases alike with
      | ternary same first second third =>
          rw [Expr.canon, Expr.canon, condition first, positive second, negative third]
  | paren id a ih =>
      cases alike with
      | paren same inner => rw [Expr.canon, Expr.canon, ih inner]
  | cast id ty a ih =>
      cases alike with
      | cast same operand =>
          rw [Expr.canon, Expr.canon, ih operand, Expr.ty_eq_of_canon (ih operand)]
  | call id name ty args each =>
      cases alike with
      | call same operands =>
          rw [Expr.canon, Expr.canon]
          congr 1
          clear same
          induction operands with
          | nil => rfl
          | cons head tail ih =>
              rw [Expr.canonAll, Expr.canonAll, each _ (by simp) head,
                ih fun arg member => each arg (by simp [member])]

theorem ty_eq (alike : Alike first second a b) : b.ty = a.ty :=
  Expr.ty_eq_of_canon alike.canon_eq

theorem has_call_eq (alike : Alike first second a b) : b.hasCall = a.hasCall := by
  induction a generalizing b with
  | var id v => cases alike; rfl
  | lit id c => cases alike; rfl
  | unary id op a ih =>
      cases alike with
      | unary same operand => rw [Expr.has_call_unary, Expr.has_call_unary, ih operand]
  | binary id op l r left right =>
      cases alike with
      | binary same first second =>
          rw [Expr.has_call_binary, Expr.has_call_binary, left first, right second]
  | ternary id c yes no condition positive negative =>
      cases alike with
      | ternary same first second third =>
          rw [Expr.has_call_ternary, Expr.has_call_ternary, condition first, positive second,
            negative third]
  | paren id a ih =>
      cases alike with
      | paren same inner => rw [Expr.has_call_paren, Expr.has_call_paren, ih inner]
  | cast id ty a ih =>
      cases alike with
      | cast same operand => rw [Expr.has_call_cast, Expr.has_call_cast, ih operand]
  | call id name ty args _ =>
      cases alike with
      | call same operands => rw [Expr.has_call_call, Expr.has_call_call]

theorem unparen (alike : Alike first second a b) : Alike first second a.unparen b.unparen := by
  induction a generalizing b with
  | paren id a ih =>
      cases alike with
      | paren same inner =>
          rw [Expr.unparen, Expr.unparen]
          exact ih inner
  | _ =>
      have kept := alike
      cases alike
      exact kept

/-- An expression is like itself in two runs that start when it has been made. -/
theorem refl {e : Expr} (made : ∀ node ∈ e.nodes, node.id < first ∧ node.id < second) :
    Alike first second e e := by
  have root {e : Expr} (made : ∀ node ∈ e.nodes, node.id < first ∧ node.id < second) :
      Corresponds first second e.id e.id := .inl ⟨rfl, made e e.self_mem_nodes⟩
  induction e with
  | var id v => exact .var (root made)
  | lit id c => exact .lit (root made)
  | unary id op a ih =>
      exact .unary (root made) (ih fun node member => made node (by simp [Expr.nodes, member]))
  | binary id op l r left right =>
      exact .binary (root made)
        (left fun node member => made node (by simp [Expr.nodes, member]))
        (right fun node member => made node (by simp [Expr.nodes, member]))
  | ternary id c yes no condition positive negative =>
      exact .ternary (root made)
        (condition fun node member => made node (by simp [Expr.nodes, member]))
        (positive fun node member => made node (by simp [Expr.nodes, member]))
        (negative fun node member => made node (by simp [Expr.nodes, member]))
  | paren id a ih =>
      exact .paren (root made) (ih fun node member => made node (by simp [Expr.nodes, member]))
  | cast id ty a ih =>
      exact .cast (root made) (ih fun node member => made node (by simp [Expr.nodes, member]))
  | call id name ty args each =>
      refine .call (root made) (List.forall₂_same.mpr ?_)
      intro arg member
      refine each arg member fun node inside => made node ?_
      rw [Expr.nodes, List.mem_cons, Expr.mem_nodes_of]
      exact .inr ⟨arg, member, inside⟩

end Alike

mutual

def Expr.anonymous : Expr → Expr
  | .var _ v => .var 0 v
  | .lit _ c => .lit 0 c
  | .unary _ op e => .unary 0 op e.anonymous
  | .binary _ op l r => .binary 0 op l.anonymous r.anonymous
  | .ternary _ c yes no => .ternary 0 c.anonymous yes.anonymous no.anonymous
  | .paren _ e => .paren 0 e.anonymous
  | .cast _ ty e => .cast 0 ty e.anonymous
  | .call _ name ty args => .call 0 name ty (Expr.anonymousAll args)

def Expr.anonymousAll : List Expr → List Expr
  | [] => []
  | e :: rest => e.anonymous :: Expr.anonymousAll rest

end

theorem Alike.anonymous_eq {first second : NodeId} {a b : Expr} (alike : Alike first second a b) :
    b.anonymous = a.anonymous := by
  induction a generalizing b with
  | var id v => cases alike; rfl
  | lit id c => cases alike; rfl
  | unary id op a ih =>
      cases alike with
      | unary same operand => rw [Expr.anonymous, Expr.anonymous, ih operand]
  | binary id op l r left right =>
      cases alike with
      | binary same first second =>
          rw [Expr.anonymous, Expr.anonymous, left first, right second]
  | ternary id c yes no condition positive negative =>
      cases alike with
      | ternary same first second third =>
          rw [Expr.anonymous, Expr.anonymous, condition first, positive second, negative third]
  | paren id a ih =>
      cases alike with
      | paren same inner => rw [Expr.anonymous, Expr.anonymous, ih inner]
  | cast id ty a ih =>
      cases alike with
      | cast same operand => rw [Expr.anonymous, Expr.anonymous, ih operand]
  | call id name ty args each =>
      cases alike with
      | call same operands =>
          rw [Expr.anonymous, Expr.anonymous]
          congr 1
          clear same
          induction operands with
          | nil => rfl
          | cons head tail ih =>
              rw [Expr.anonymousAll, Expr.anonymousAll, each _ (by simp) head,
                ih fun arg member => each arg (by simp [member])]

/-- A way to say of two acts in `m` that they stay in step and give related things. -/
structure Lockstep (m : Type → Type) [Monad m] where
  agree : {α β : Type} → m α → m β → (α → β → Prop) → Prop
  pure : ∀ {α β : Type} {a : α} {b : β} {related : α → β → Prop}, related a b →
    agree (pure a) (pure b) related
  bind : ∀ {α β γ δ : Type} {left : m α} {right : m β} {next : α → m γ} {next' : β → m δ}
    {related : α → β → Prop} {wanted : γ → δ → Prop}, agree left right related →
      (∀ a b, related a b → agree (next a) (next' b) wanted) →
        agree (left >>= next) (right >>= next') wanted

namespace Nodes

def Paired (first second : NodeId) (left right : Nodes) : Prop :=
  ∃ made : Nat, left.next = first + made ∧ right.next = second + made

def lockstep (first second : NodeId) : Lockstep (StateM Nodes) where
  agree left right related := ∀ n n', Paired first second n n' →
    related (left n).1 (right n').1 ∧ Paired first second (left n).2 (right n').2
  pure := fun holds _ _ paired => ⟨holds, paired⟩
  bind := by
    intro α β γ δ left right next next' related wanted agreed rest n n' paired
    obtain ⟨holds, paired⟩ := agreed n n' paired
    exact rest _ _ holds _ _ paired

variable {first second : NodeId}

theorem fresh_agree : (lockstep first second).agree fresh fresh (Corresponds first second) := by
  intro n n' handed
  rcases handed with ⟨made, left, right⟩
  refine ⟨.inr ⟨made, left, right⟩, made + 1, ?_, ?_⟩
  · show n.next + 1 = first + (made + 1)
    rw [left, Nat.add_assoc]
  · show n'.next + 1 = second + (made + 1)
    rw [right, Nat.add_assoc]

theorem inherit_agree {target source target' source' : NodeId} :
    (lockstep first second).agree (inherit target source) (inherit target' source')
      fun _ _ => True :=
  fun _ _ paired => ⟨trivial, paired⟩

theorem renew_agree {i j : NodeId} (same : Corresponds first second i j) (changed : Bool) :
    (lockstep first second).agree (renew i changed) (renew j changed)
      (Corresponds first second) := by
  unfold renew
  cases changed with
  | false => exact (lockstep first second).pure same
  | true =>
      apply (lockstep first second).bind fresh_agree
      intro new new' made
      apply (lockstep first second).bind inherit_agree
      intro _ _ _
      exact (lockstep first second).pure made

theorem replace_agree {a b : Expr} {i j : NodeId} (alike : Alike first second a b) :
    (lockstep first second).agree (replace a i) (replace b j) (Alike first second) :=
  fun _ _ paired => ⟨alike, paired⟩

theorem literal_agree (value : Bool) {i j : NodeId} :
    (lockstep first second).agree (literal value i) (literal value j) (Alike first second) := by
  apply (lockstep first second).bind fresh_agree
  intro new new' made
  exact replace_agree (.lit made)

end Nodes

namespace Expr

section Traversal

variable {m : Type → Type} [Monad m] {renew : NodeId → Bool → m NodeId} {step : Expr → m Expr}
  {first second : NodeId}

theorem map_id_bne_eq {as as' bs bs' : List Expr}
    (before : List.Forall₂ (Alike first second) as bs)
    (after : List.Forall₂ (Alike first second) as' bs') :
    (as'.map Expr.id != as.map Expr.id) = (bs'.map Expr.id != bs.map Expr.id) := by
  rw [Bool.eq_iff_iff, bne_iff_ne, bne_iff_ne, ne_eq, ne_eq, not_iff_not]
  induction before generalizing as' bs' with
  | nil => cases after <;> simp
  | cons head tail ih =>
      cases after with
      | nil => simp
      | cons head' tail' =>
          rw [List.map_cons, List.map_cons, List.map_cons, List.map_cons, List.cons.injEq,
            List.cons.injEq, ih tail', head.id.eq_iff head'.id]

theorem bottom_up_all_agree (logic : Lockstep m) {args args' : List Expr}
    (operands : List.Forall₂ (Alike first second) args args')
    (each : ∀ arg ∈ args, ∀ arg', Alike first second arg arg' →
      logic.agree (arg.bottomUp renew step) (arg'.bottomUp renew step) (Alike first second)) :
    logic.agree (bottomUpAll renew step args) (bottomUpAll renew step args')
      (List.Forall₂ (Alike first second)) := by
  induction operands with
  | nil => exact logic.pure .nil
  | cons head tail ih =>
      rw [bottomUpAll, bottomUpAll]
      apply logic.bind (each _ (by simp) _ head)
      intro a b first
      apply logic.bind (ih fun arg member => each arg (by simp [member]))
      intro as bs rest
      exact logic.pure (.cons first rest)

theorem bottom_up_agree (logic : Lockstep m)
    (renews : ∀ i j changed, Corresponds first second i j →
      logic.agree (renew i changed) (renew j changed) (Corresponds first second))
    (steps : ∀ a b, Alike first second a b →
      logic.agree (step a) (step b) (Alike first second))
    {a b : Expr} (alike : Alike first second a b) :
    logic.agree (a.bottomUp renew step) (b.bottomUp renew step) (Alike first second) := by
  induction a generalizing b with
  | var id v =>
      have kept := alike
      cases alike
      exact steps _ _ kept
  | lit id c =>
      have kept := alike
      cases alike
      exact steps _ _ kept
  | unary id op a ih =>
      cases alike with
      | unary same operand =>
          rw [bottomUp, bottomUp]
          apply logic.bind (ih operand)
          intro a' b' done
          rw [operand.id.bne_eq done.id]
          apply logic.bind (renews _ _ _ same)
          intro i j same'
          exact steps _ _ (.unary same' done)
  | binary id op l r left right =>
      cases alike with
      | binary same first second =>
          rw [bottomUp, bottomUp]
          apply logic.bind (left first)
          intro l' m' doneLeft
          apply logic.bind (right second)
          intro r' s' doneRight
          rw [first.id.bne_eq doneLeft.id, second.id.bne_eq doneRight.id]
          apply logic.bind (renews _ _ _ same)
          intro i j same'
          exact steps _ _ (.binary same' doneLeft doneRight)
  | ternary id c yes no condition positive negative =>
      cases alike with
      | ternary same first second third =>
          rw [bottomUp, bottomUp]
          apply logic.bind (condition first)
          intro c' d' doneCondition
          apply logic.bind (positive second)
          intro y' z' doneYes
          apply logic.bind (negative third)
          intro n' o' doneNo
          rw [first.id.bne_eq doneCondition.id, second.id.bne_eq doneYes.id,
            third.id.bne_eq doneNo.id]
          apply logic.bind (renews _ _ _ same)
          intro i j same'
          exact steps _ _ (.ternary same' doneCondition doneYes doneNo)
  | paren id a ih =>
      cases alike with
      | paren same inner =>
          rw [bottomUp, bottomUp]
          apply logic.bind (ih inner)
          intro a' b' done
          rw [inner.id.bne_eq done.id]
          apply logic.bind (renews _ _ _ same)
          intro i j same'
          exact steps _ _ (.paren same' done)
  | cast id ty a ih =>
      cases alike with
      | cast same operand =>
          rw [bottomUp, bottomUp]
          apply logic.bind (ih operand)
          intro a' b' done
          rw [operand.id.bne_eq done.id]
          apply logic.bind (renews _ _ _ same)
          intro i j same'
          exact steps _ _ (.cast same' done)
  | call id name ty args each =>
      cases alike with
      | call same operands =>
          rw [bottomUp, bottomUp]
          refine logic.bind (bottom_up_all_agree logic operands fun arg member arg' alike =>
            each arg member alike) fun as bs done => ?_
          rw [map_id_bne_eq operands done]
          apply logic.bind (renews _ _ _ same)
          intro i j same'
          exact steps _ _ (.call same' done)

end Traversal

end Expr

end Condense
