import Condense.Pass.Session
import Condense.Proofs.Answers
import Condense.Proofs.Trees
import Mathlib.Data.List.Forall2

/-!
# Reasoning about traversals

A logic for a monad says of an act that what it gives has a property, and has a rule for
each way to put acts together. There is one for work on nodes and one for the pass, where
the act must also succeed and keep an invariant of the session. In any such logic, a
traversal relates an expression to its result as soon as each step does, when the relation
is one that nodes inherit from their operands.
-/

namespace Condense

set_option autoImplicit false

/-- A way to say of an act in `m` that it gives something with a property. -/
structure Logic (m : Type → Type) [Monad m] where
  gives : {α : Type} → m α → (α → Prop) → Prop
  weaken : ∀ {α : Type} {act : m α} {property wanted : α → Prop},
    gives act property → (∀ a, property a → wanted a) → gives act wanted
  pure : ∀ {α : Type} {a : α} {property : α → Prop}, property a → gives (pure a) property
  bind : ∀ {α β : Type} {act : m α} {next : α → m β} {property : α → Prop} {wanted : β → Prop},
    gives act property → (∀ a, property a → gives (next a) wanted) →
      gives (act >>= next) wanted

def Nodes.logic : Logic (StateM Nodes) where
  gives act property := ∀ nodes, property (act nodes).1
  weaken := fun given stronger nodes => stronger _ (given nodes)
  pure := fun holds _ => holds
  bind := fun first second nodes => second _ (first nodes) _

namespace Pass

variable {σ : Type}

/-- The act succeeds wherever the invariant holds, and keeps it. -/
def Gives (invariant : Session σ → Prop) {α : Type} (act : Pass σ α) (property : α → Prop) :
    Prop :=
  ∀ session, invariant session → ∃ a after, act session = (.ok a, after) ∧
    invariant after ∧ property a

theorem gives_bind {invariant : Session σ → Prop} {α β : Type} {act : Pass σ α}
    {next : α → Pass σ β} {property : α → Prop} {wanted : β → Prop}
    (first : Gives invariant act property)
    (second : ∀ a, property a → Gives invariant (next a) wanted) :
    Gives invariant (act >>= next) wanted := by
  intro session kept
  obtain ⟨a, middle, run, kept, holds⟩ := first session kept
  obtain ⟨b, after, run', kept, holds⟩ := second a holds middle kept
  refine ⟨b, after, ?_, kept, holds⟩
  have steps : (act >>= next) session = ExceptT.bindCont next (act session).1 (act session).2 :=
    rfl
  rw [steps, run]
  exact run'

def logic (invariant : Session σ → Prop) : Logic (Pass σ) where
  gives := Gives invariant
  weaken := by
    intro α act property wanted given stronger session kept
    obtain ⟨a, after, run, kept, holds⟩ := given session kept
    exact ⟨a, after, run, kept, stronger a holds⟩
  pure := by
    intro α a property holds session kept
    exact ⟨a, session, rfl, kept, holds⟩
  bind := gives_bind

def keeping (trusted : Prover σ → Prop) : Logic (Pass σ) :=
  logic fun session => trusted session.prover

variable {trusted : Prover σ → Prop} {α : Type}

theorem on_nodes_gives {act : StateM Nodes α} {property : α → Prop}
    (given : Nodes.logic.gives act property) :
    (keeping trusted).gives (onNodes act) property := by
  intro session kept
  exact ⟨(act session.nodes).1, { session with nodes := (act session.nodes).2 }, rfl, kept,
    given session.nodes⟩

theorem on_prover_gives {act : ExceptT Fault (StateM (Prover σ)) α} {property : α → Prop}
    (given : ∀ prover, trusted prover → ∃ a after, act prover = (.ok a, after) ∧
      trusted after ∧ property a) :
    (keeping trusted).gives (onProver act) property := by
  intro session kept
  obtain ⟨a, after, run, kept, holds⟩ := given session.prover kept
  refine ⟨a, { session with prover := after }, ?_, kept, holds⟩
  have steps : onProver act session
      = ((act session.prover).1, { session with prover := (act session.prover).2 }) := rfl
  rw [steps, run]

theorem modify_gives {change : Session σ → Session σ}
    (same : ∀ session, (change session).prover = session.prover) :
    (keeping trusted).gives (modify change) fun _ => True := by
  intro session kept
  refine ⟨(), change session, rfl, ?_, trivial⟩
  show trusted (change session).prover
  rw [same]
  exact kept

theorem get_gives : (keeping trusted).gives (get : Pass σ (Session σ)) fun _ => True := by
  intro session kept
  exact ⟨session, session, rfl, kept, trivial⟩

end Pass

/-- A relation that nodes inherit from their operands, whatever the ids. -/
structure Expr.Congruence (related : Expr → Expr → Prop) : Prop where
  trans : ∀ {a b c}, related a b → related b c → related a c
  unary : ∀ {id id' op a b}, related a b → related (.unary id op a) (.unary id' op b)
  binary : ∀ {id id' op l l' r r'}, related l l' → related r r' →
    related (.binary id op l r) (.binary id' op l' r')
  ternary : ∀ {id id' c c' yes yes' no no'}, related c c' → related yes yes' →
    related no no' → related (.ternary id c yes no) (.ternary id' c' yes' no')
  paren : ∀ {id id' a b}, related a b → related (.paren id a) (.paren id' b)
  cast : ∀ {id id' ty a b}, related a b → related (.cast id ty a) (.cast id' ty b)
  call : ∀ {id id' name ty args args'}, List.Forall₂ related args args' →
    related (.call id name ty args) (.call id' name ty args')

theorem Expr.Congruence.under {related : Expr → Expr → Prop} (congruence : Congruence related)
    {condition : Prop} : Congruence fun a b => condition → related a b where
  trans := fun first second given => congruence.trans (first given) (second given)
  unary := fun operand given => congruence.unary (operand given)
  binary := fun left right given => congruence.binary (left given) (right given)
  ternary := fun first second third given =>
    congruence.ternary (first given) (second given) (third given)
  paren := fun inner given => congruence.paren (inner given)
  cast := fun operand given => congruence.cast (operand given)
  call := fun operands given => congruence.call (operands.imp fun _ _ operand => operand given)

section Traversal

variable {m : Type → Type} [Monad m] {renew : NodeId → Bool → m NodeId} {step : Expr → m Expr}
  {related : Expr → Expr → Prop}

theorem Expr.bottom_up_all_gives (logic : Logic m) {args : List Expr}
    (each : ∀ arg ∈ args, logic.gives (arg.bottomUp renew step) (related arg)) :
    logic.gives (bottomUpAll renew step args) (List.Forall₂ related args) := by
  induction args with
  | nil => exact logic.pure .nil
  | cons first rest ih =>
      apply logic.bind (each first (by simp))
      intro first' head
      apply logic.bind (ih fun arg member => each arg (by simp [member]))
      intro rest' tail
      exact logic.pure (.cons head tail)

theorem Expr.bottom_up_gives (logic : Logic m) (congruence : Congruence related)
    (renews : ∀ id changed, logic.gives (renew id changed) fun _ => True)
    (steps : ∀ e, logic.gives (step e) (related e)) (e : Expr) :
    logic.gives (e.bottomUp renew step) (related e) := by
  -- A node whose operands are done has the relation to what it was, and then takes a step.
  have finish {e e' : Expr} (operands : related e e') : logic.gives (step e') (related e) :=
    logic.weaken (steps e') fun _ done => congruence.trans operands done
  induction e with
  | var id v => exact steps _
  | lit id c => exact steps _
  | unary id op a ih =>
      rw [bottomUp]
      apply logic.bind ih
      intro a' operand
      apply logic.bind (renews _ _)
      intro id' _
      exact finish (congruence.unary operand)
  | binary id op l r left right =>
      rw [bottomUp]
      apply logic.bind left
      intro l' first
      apply logic.bind right
      intro r' second
      apply logic.bind (renews _ _)
      intro id' _
      exact finish (congruence.binary first second)
  | ternary id c yes no condition positive negative =>
      rw [bottomUp]
      apply logic.bind condition
      intro c' first
      apply logic.bind positive
      intro yes' second
      apply logic.bind negative
      intro no' third
      apply logic.bind (renews _ _)
      intro id' _
      exact finish (congruence.ternary first second third)
  | paren id a ih =>
      rw [bottomUp]
      apply logic.bind ih
      intro a' inner
      apply logic.bind (renews _ _)
      intro id' _
      exact finish (congruence.paren inner)
  | cast id ty a ih =>
      rw [bottomUp]
      apply logic.bind ih
      intro a' operand
      apply logic.bind (renews _ _)
      intro id' _
      exact finish (congruence.cast operand)
  | call id name ty args each =>
      rw [bottomUp]
      apply logic.bind (bottom_up_all_gives logic each)
      intro args' operands
      apply logic.bind (renews _ _)
      intro id' _
      exact finish (congruence.call operands)

end Traversal

end Condense
