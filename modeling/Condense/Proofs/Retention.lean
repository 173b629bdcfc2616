import Condense.Proofs.Encoding.Typing
import Condense.Proofs.Reliability
import Condense.Proofs.Runs

/-!
# What rewriting retains

A node looks at the types of its operands: they decide how it is encoded, and whether it is
encoded at all. So an expression can take the place of another below any node if it has the same
type, is well shaped where the other is, and has no variable that the other does not have. The
identities and the proofs of operands put only such expressions in the place of others, whatever
the verdicts are. A verdict about a whole condition may change its type, but there no node looks
at it. An expression that has a term therefore still has one after each of them, over no other
constants.
-/

namespace Condense

set_option autoImplicit false

open Condense.Identities

namespace Expr

variable {e r : Expr}

section Shape

theorem IsShaped.inside (shaped : e.IsShaped) (member : r ∈ e.nodes) : r.IsShaped := by
  have within : r.nodes ⊆ e.nodes := (nodes_sublist member).subset
  constructor
  · have callFree := shaped.callFree
    rw [hasCall, List.any_eq_false] at callFree ⊢
    exact fun node deeper => callFree node (within deeper)
  · exact fun node deeper => shaped.widths node (within deeper)
  · exact fun node deeper => shaped.operands node (within deeper)

theorem is_shaped_iff :
    e.IsShaped ↔ e.isCall = false ∧ (e.ty = .bool ∨ 1 ≤ e.ty.width ∧ e.ty.width ≤ 64) ∧
      e.Admissible ∧ ∀ child ∈ e.children, child.IsShaped := by
  constructor
  · intro shaped
    rcases forall_nodes_iff.mp (List.any_eq_false.mp shaped.callFree) with ⟨plain, callFree⟩
    rcases forall_nodes_iff.mp shaped.widths with ⟨width, widths⟩
    rcases forall_nodes_iff.mp shaped.operands with ⟨admissible, operands⟩
    refine ⟨by simpa using plain, width, admissible, fun child member => ?_⟩
    exact ⟨List.any_eq_false.mpr (callFree child member), widths child member,
      operands child member⟩
  · rintro ⟨plain, width, admissible, shaped⟩
    constructor
    · have below : ∀ child ∈ e.children, ∀ node ∈ child.nodes, ¬node.isCall = true :=
        fun child member => List.any_eq_false.mp (shaped child member).callFree
      exact List.any_eq_false.mpr (forall_nodes_iff.mpr ⟨by simp [plain], below⟩)
    · exact forall_nodes_iff.mpr ⟨width, fun child member => (shaped child member).widths⟩
    · exact forall_nodes_iff.mpr ⟨admissible, fun child member => (shaped child member).operands⟩

theorem IsShaped.child (shaped : e.IsShaped) (member : r ∈ e.children) : r.IsShaped :=
  (is_shaped_iff.mp shaped).2.2.2 r member

theorem occurrences_eq (e : Expr) :
    e.occurrences = e.asVariable.toList ++ e.children.flatMap occurrences := by
  have below (operands : List Expr) :
      (nodesOf operands).filterMap asVariable = operands.flatMap occurrences := by
    induction operands with
    | nil => rfl
    | cons first rest ih => rw [nodesOf, List.filterMap_append, ih]; rfl
  rw [occurrences, e.nodes_eq, List.filterMap_cons, below]
  cases e.asVariable <;> rfl

end Shape

/-- No variable is new or out of order, and the shape is as good as it was. -/
structure Thins (e r : Expr) : Prop where
  ordered : r.occurrences.Sublist e.occurrences
  shaped : e.IsShaped → r.IsShaped

structure Replaces (e r : Expr) : Prop extends Thins e r where
  ty : r.ty = e.ty

namespace Thins

theorem refl (e : Expr) : Thins e e :=
  ⟨List.Sublist.refl _, fun shaped => shaped⟩

theorem trans {e' : Expr} (first : Thins e e') (second : Thins e' r) : Thins e r :=
  ⟨second.ordered.trans first.ordered, fun shaped => second.shaped (first.shaped shaped)⟩

theorem inside (member : r ∈ e.nodes) : Thins e r :=
  ⟨(nodes_sublist member).filterMap _, fun shaped => shaped.inside member⟩

theorem literal (e : Expr) (id : NodeId) (value : Bool) : Thins e (.lit id (.ofBool value)) := by
  refine ⟨List.nil_sublist _, fun _ => ?_⟩
  exact is_shaped_iff.mpr ⟨rfl, .inl rfl, trivial, by simp [children]⟩

theorem collapsed {next next' : NodeId} (collapsed : Collapsed next e r next') : Thins e r := by
  cases collapsed with
  | kept => exact .refl e
  | literal integer value => exact .literal _ _ value

end Thins

theorem Replaces.refl (e : Expr) : Replaces e e :=
  ⟨.refl e, rfl⟩

theorem Replaces.trans {e' : Expr} (first : Replaces e e') (second : Replaces e' r) :
    Replaces e r :=
  ⟨first.toThins.trans second.toThins, second.ty.trans first.ty⟩

theorem Replaces.operands {as bs : List Expr} (operands : List.Forall₂ Replaces as bs) :
    (bs.flatMap occurrences).Sublist (as.flatMap occurrences) ∧
      ((∀ a ∈ as, a.IsShaped) → ∀ b ∈ bs, b.IsShaped) := by
  induction operands with
  | nil => exact ⟨List.Sublist.refl _, fun _ => by simp⟩
  | cons head tail ih =>
      refine ⟨head.ordered.append ih.1, fun shaped => ?_⟩
      rw [List.forall_mem_cons] at shaped ⊢
      exact ⟨head.shaped shaped.1, ih.2 shaped.2⟩

theorem Replaces.node (kind : r.isCall = e.isCall) (leaf : r.asVariable = e.asVariable)
    (ty : r.ty = e.ty) (admissible : e.Admissible → r.Admissible)
    (operands : List.Forall₂ Replaces e.children r.children) : Replaces e r := by
  rcases Replaces.operands operands with ⟨ordered, shapes⟩
  refine ⟨⟨?_, ?_⟩, ty⟩
  · rw [e.occurrences_eq, r.occurrences_eq, leaf]
    exact (List.Sublist.refl _).append ordered
  · intro shaped
    rcases is_shaped_iff.mp shaped with ⟨plain, width, admits, below⟩
    exact is_shaped_iff.mpr ⟨kind.trans plain, ty ▸ width, admissible admits, shapes below⟩

theorem Replaces.congruence : Congruence Replaces where
  trans := .trans
  unary := by
    intro id id' op a b operand
    refine .node rfl rfl ?_ ?_ (.cons operand .nil)
    · simp only [Expr.ty, operand.ty]
    · simp only [Admissible, operand.ty, imp_self]
  binary := by
    intro id id' op l l' r r' left right
    refine .node rfl rfl ?_ ?_ (.cons left (.cons right .nil))
    · simp only [Expr.ty, left.ty]
    · simp only [Admissible, left.ty, right.ty, imp_self]
  ternary := by
    intro id id' c c' yes yes' no no' condition positive negative
    refine .node rfl rfl positive.ty ?_ (.cons condition (.cons positive (.cons negative .nil)))
    simp only [Admissible, positive.ty, negative.ty, imp_self]
  paren := by
    intro id id' a b inner
    exact .node rfl rfl inner.ty (fun _ => trivial) (.cons inner .nil)
  cast := by
    intro id id' ty a b operand
    exact .node rfl rfl rfl (fun _ => trivial) (.cons operand .nil)
  call := by
    intro id id' name ty args args' operands
    exact .node rfl rfl rfl (fun _ => trivial) operands

end Expr

namespace Identities

open Condense.Expr

section Thinning

variable {l l' r r' : Expr}

theorem thins_of_junction {id id' : NodeId} {op : BinaryOp} (logical : op.isLogical = true)
    (left : Thins l l') (right : Thins r r') :
    Thins (.binary id op l r) (.binary id' op l' r') := by
  constructor
  · rw [occurrences_binary, occurrences_binary]
    exact left.ordered.append right.ordered
  · intro shaped
    have boolean : (Expr.binary id' op l' r').ty = .bool := by simp [Expr.ty, logical]
    refine is_shaped_iff.mpr ⟨rfl, .inl boolean, BinaryOp.admits_of_logical logical, ?_⟩
    simp only [children, List.forall_mem_cons]
    exact ⟨left.shaped (shaped.child (by simp [children])),
      right.shaped (shaped.child (by simp [children])), by simp⟩

/-- An integer has a width that its zero has as well. -/
theorem thins_of_comparison {id id' nothing : NodeId} {a inner : Expr}
    (within : inner ∈ a.nodes) :
    Thins (.unary id .lnot a) (.binary id' .ne inner (.lit nothing (.ofWord 0 inner.ty))) := by
  have inside : inner ∈ (Expr.unary id .lnot a).nodes := List.mem_cons_of_mem _ within
  have thins := Thins.inside inside
  constructor
  · rw [occurrences_binary, occurrences_lit, List.append_nil]
    exact thins.ordered
  · intro shaped
    have operand := thins.shaped shaped
    have zero : (Expr.lit nothing (.ofWord 0 inner.ty)).IsShaped :=
      is_shaped_iff.mpr ⟨rfl, operand.widths inner inner.self_mem_nodes, trivial,
        by simp [children]⟩
    have admits : BinaryOp.ne.Admits inner.ty (Literal.ofWord 0 inner.ty).ty :=
      BinaryOp.admits_of_comparison rfl rfl
    refine is_shaped_iff.mpr ⟨rfl, .inl rfl, admits, ?_⟩
    simp only [children, List.forall_mem_cons]
    exact ⟨operand, zero, by simp⟩

end Thinning

theorem at_node_thins (e : Expr) : Nodes.logic.gives (atNode e) (Thins e) := by
  intro nodes
  have outcome := at_node_outcome e nodes
  generalize (atNode e nodes).2.next = next at outcome
  generalize run : (atNode e nodes).1 = result at outcome ⊢
  cases outcome with
  | kept idle irreducible => exact .refl e
  | inner inside later =>
      apply Thins.inside
      rw [e.nodes_eq]
      exact List.mem_cons_of_mem _ inside
  | literal value heavier unused used => exact .literal e _ value
  | comparison whole negated integer =>
      subst whole
      exact thins_of_comparison (mem_nodes_of_unparen negated)
  | @joined id middle next' op l r l' r' whole left right changed =>
      subst whole
      cases logical : op.isLogical with
      | true => exact thins_of_junction logical (.collapsed left) (.collapsed right)
      | false =>
          -- No other operator has its operands collapsed.
          have same : (atNode (.binary id op l r) nodes).1 = .binary id op l r := by
            cases op <;> cases logical <;> rfl
          rw [← run, same]
          exact .refl _

theorem negation_ty (id : NodeId) (e : Expr) :
    Nodes.logic.gives (negation id e) fun result => result.ty = .bool := by
  unfold negation
  cases e.asBool with
  | some value => exact fun _ => rfl
  | none =>
      dsimp only
      split
      · next id' inner negated =>
          refine Nodes.logic.bind Nodes.inherit_gives fun _ _ => ?_
          cases kind : inner.ty.isBool with
          | true =>
              rw [if_pos rfl]
              exact Nodes.replace_gives (Ty.eq_bool kind)
          | false => exact fun _ => rfl
      · exact Nodes.logic.pure rfl

theorem junction_boolean {id : NodeId} {op : BinaryOp} {absorbing : Bool}
    (absorbs : Absorbs op absorbing) (l r : Expr) :
    Nodes.logic.gives (junction id op absorbing l r) fun result => result.ty = .bool := by
  unfold junction
  refine Nodes.logic.bind (collapse_condenses l) fun lhs _ => ?_
  refine Nodes.logic.bind (collapse_condenses r) fun rhs _ => ?_
  dsimp only
  split
  · next literal => exact Nodes.replace_gives (ty_of_as_bool literal)
  split
  · next literal => exact Nodes.replace_gives (ty_of_as_bool literal.1)
  split
  · next literal => exact Nodes.replace_gives (Ty.eq_bool literal.2)
  split
  · next literal => exact Nodes.replace_gives (Ty.eq_bool literal.2)
  · exact fun _ => junction_ty absorbs

theorem at_node_ty (e : Expr) :
    Nodes.logic.gives (atNode e) fun result => result.ty = e.ty := by
  cases e with
  | paren id a =>
      rw [atNode]
      split
      · exact Nodes.replace_gives rfl
      · exact Nodes.logic.pure rfl
  | cast id ty a =>
      rw [atNode]
      split
      · next same => exact Nodes.replace_gives same
      · exact Nodes.logic.pure rfl
  | unary id op a =>
      cases op with
      | lnot =>
          refine Nodes.logic.bind (collapse_condenses a) fun operand _ => ?_
          exact negation_ty id operand.1
      | _ => exact Nodes.logic.pure rfl
  | binary id op l r =>
      cases op with
      | land => exact junction_boolean (.inl ⟨rfl, rfl⟩) l r
      | lor => exact junction_boolean (.inr ⟨rfl, rfl⟩) l r
      | _ => exact Nodes.logic.pure rfl
  | _ => exact Nodes.logic.pure rfl

theorem at_node_replaces (e : Expr) : Nodes.logic.gives (atNode e) (Replaces e) :=
  fun nodes => ⟨at_node_thins e nodes, at_node_ty e nodes⟩

end Identities

theorem Expr.reduce_replaces (e : Expr) : Nodes.logic.gives e.reduce (Replaces e) :=
  e.bottom_up_gives Nodes.logic Replaces.congruence Nodes.renew_gives at_node_replaces

namespace Pass

open Condense.Expr

variable {σ : Type} {s t : Session σ} {e r : Expr}

def partially : Logic (Pass σ) where
  gives act property := ∀ s a t, act s = (.ok a, t) → property a
  weaken := fun given stronger s a t run => stronger a (given s a t run)
  pure := by
    intro α a property holds s b t run
    rcases pure_eq_ok run with ⟨rfl, _⟩
    exact holds
  bind := by
    intro α β act next property wanted first second s b t run
    rcases bind_eq_ok run with ⟨a, u, once, rest⟩
    exact second a (first s a u once) u b t rest

theorem partially_on_nodes {α : Type} {act : StateM Nodes α} {property : α → Prop}
    (given : Nodes.logic.gives act property) :
    (partially : Logic (Pass σ)).gives (onNodes act) property := by
  intro s a t run
  rcases on_nodes_eq_ok run with ⟨rfl, _⟩
  exact given s.nodes

/-- A verdict, right or wrong, leaves a literal. -/
theorem Tried.thins {fit : Prop} (tried : Tried fit s e t r) : Thins e r := by
  cases tried with
  | decided fits asked value => exact .literal e _ value
  | _ => exact .refl e

theorem Tried.replaces (tried : Tried e.IsProvable s e t r) : Replaces e r := by
  refine ⟨tried.thins, ?_⟩
  cases tried with
  | decided fits asked value => exact (Ty.eq_bool fits.1).symm
  | _ => rfl

theorem fold_node_replaces (e : Expr) :
    (partially : Logic (Pass σ)).gives (foldNode e) (Replaces e) := by
  intro s r t run
  cases fold_node_eq_ok run with
  | other plain => exact .refl e
  | unproven logical left right => exact .refl _
  | @proven u v t id op a b a' b' r logical left right changed reduced =>
      have proven : Replaces (.binary id op a b) (.binary v.nodes.next op a' b') :=
        Replaces.congruence.binary left.replaces right.replaces
      exact proven.trans (partially_on_nodes (at_node_replaces _) _ _ _ reduced)

theorem fold_replaces (e : Expr) : (partially : Logic (Pass σ)).gives (fold e) (Replaces e) :=
  e.bottom_up_gives partially Replaces.congruence
    (fun id changed => partially_on_nodes (Nodes.renew_gives id changed)) fold_node_replaces

theorem evaluate_thins (e : Expr) :
    (partially : Logic (Pass σ)).gives (evaluate e) (Thins e) := by
  intro s r t run
  have collapsed : Thins e (collapse e s.nodes).1.1 := .collapsed (collapse_run e s.nodes).1
  exact collapsed.trans (evaluate_eq_ok run).thins

theorem round_thins (condition : Expr) (stage : Stage) (e : Expr) :
    (partially : Logic (Pass σ)).gives (round condition stage e) (Thins e) := by
  intro s r t run
  rcases round_eq_ok run with
    ⟨reduced, bare, folded, u, v, w, x, journal, journal', first, second, third, fourth, _⟩
  have identities : Thins e reduced := (partially_on_nodes e.reduce_replaces _ _ _ first).toThins
  have unwrapped : Thins reduced bare := by
    rcases on_nodes_eq_ok second with ⟨rfl, _⟩
    rw [(reduced.unwrap_run u.nodes).1]
    exact .inside reduced.unparen_mem_nodes
  have proven : Thins bare folded := by
    rcases third with ⟨_, third⟩ | ⟨_, rfl, _⟩
    · exact (fold_replaces bare _ _ _ third).toThins
    · exact .refl _
  exact identities.trans (unwrapped.trans (proven.trans (evaluate_thins folded _ _ _ fourth)))

theorem rounds_thins (condition : Expr) (stage : Stage) (e : Expr) (limit : Nat) :
    (partially : Logic (Pass σ)).gives (rounds condition stage e limit)
      fun result => Thins e result.1 := by
  induction limit generalizing stage e with
  | zero => exact partially.pure (.refl e)
  | succ limit ih =>
      rw [rounds]
      refine partially.bind (round_thins condition stage e) fun e' once => ?_
      split
      · exact partially.pure once
      · exact partially.weaken (ih _ e') fun _ later => once.trans later

theorem simplify_thins (e : Expr) :
    (partially : Logic (Pass σ)).gives e.simplify (Thins e) := by
  intro s r t run
  rcases simplify_ends run with ⟨stage, u, journal, rounds, _⟩
  exact rounds_thins e _ e _ _ _ _ rounds

end Pass

namespace Expr

variable {e r : Expr}

/-- What a proof needs of an expression is there in another: no variable is new or out of order,
and where the one has a term the other has one, with no constant or sort of a constant that is
new. -/
structure Retains (e r : Expr) : Prop where
  ordered : r.occurrences.Sublist e.occurrences
  encodes : ∀ t, e.encode = .ok t → ∃ t', r.encode = .ok t' ∧ t'.constants ⊆ t.constants

theorem Thins.retains (thins : Thins e r) : Retains e r := by
  refine ⟨thins.ordered, ?_⟩
  intro t accepted
  have typed := typed_of_encode accepted
  have fewer : r.occurrences ⊆ e.occurrences := thins.ordered.subset
  have typed' : r.IsTyped :=
    ⟨thins.shaped typed.toIsShaped, fun v occurs v' occurs' =>
      typed.names v (fewer occurs) v' (fewer occurs')⟩
  rcases encode_of_typed typed' with ⟨t', accepted'⟩
  refine ⟨t', accepted', ?_⟩
  intro constant member
  rcases (mem_constants_of_encode accepted' constant).mp member with ⟨v, occurs, same⟩
  exact (mem_constants_of_encode accepted constant).mpr ⟨v, fewer occurs, same⟩

end Expr

/-- One pass of the identities keeps the type of every expression, whatever ids are unused and
whatever origins are recorded; and so does a proof of the operands, for any solver and whatever
answers are kept. Of each result, and of that of a simplification, the variables are some of those
of the expression, in the same order, and the result has a term if the expression has one, over no
other constants and no other sorts of them. In a session with any history there are such results. -/
theorem Expr.simplify_retains {σ : Type} (solver : Solver σ) (memory : σ) (nodes : Nodes)
    (options : Options) (operations : List Operation) (e : Expr) :
    let session := (Session.start solver memory nodes options).after operations
    (∀ supply, (e.reduce supply).1.ty = e.ty ∧ Retains e (e.reduce supply).1) ∧
    (∀ (s : Session σ) result t, Pass.fold e s = (.ok result, t) →
      result.ty = e.ty ∧ Retains e result) ∧
    (∀ (s : Session σ) result t, e.simplify s = (.ok result, t) → Retains e result) ∧
    (∃ result t, Pass.fold e session = (.ok result, t)) ∧
    ∃ result t, e.simplify session = (.ok result, t) := by
  intro session
  have sequenced := Session.after_sequenced solver memory nodes options operations
  refine ⟨?_, ?_, ?_, ?_, ?_⟩
  · intro supply
    have replaces := e.reduce_replaces supply
    exact ⟨replaces.ty, replaces.retains⟩
  · intro s result t run
    have replaces := Pass.fold_replaces e s result t run
    exact ⟨replaces.ty, replaces.retains⟩
  · intro s result t run
    exact (Pass.simplify_thins e s result t run).retains
  · have given : Guarantee.sequenced.logic.gives (Pass.fold e : Pass σ Expr) _ :=
      Pass.fold_gives e
    rcases given session sequenced with ⟨result, t, run, _⟩
    exact ⟨result, t, run⟩
  · rcases e.simplify_succeeds sequenced with ⟨result, t, run, _⟩
    exact ⟨result, t, run⟩

/-- A solver that refutes every term has both operands of `b && !!x` proven, wrongly. The term of
`b && !!x` is over a boolean and a byte, and nothing else comes into the terms of the results. -/
theorem Expr.simplify_retains_misjudged :
    let solver : Solver Unit := .stateless fun _ _ => ⟨.ok .unsat, []⟩
    let b : Variable := ⟨"b", .bool⟩
    let x : Variable := ⟨"x", .int 8 false⟩
    let condition : Expr :=
      .binary 4 .land (.var 0 b) (.unary 3 .lnot (.unary 2 .lnot (.var 1 x)))
    let constants : List (String × SmtSort) := [("b", .bool), ("x", .bitVec 8)]
    let session := (Session.start solver () ⟨5, {}⟩ {}).after [.condition (.var 0 b)]
    (∃ t, condition.encode = .ok t ∧ t.constants = constants) ∧
    (∃ result t, Pass.fold condition session = (.ok result, t) ∧ result.ty = .bool ∧
      result.occurrences.Sublist [b, x]) ∧
    ∃ result t, condition.simplify session = (.ok result, t) ∧
      ∃ t', result.encode = .ok t' ∧ t'.constants ⊆ constants := by
  intro solver b x condition constants session
  rcases Expr.simplify_retains solver () ⟨5, {}⟩ {} [.condition (.var 0 b)] condition with
    ⟨_, folds, simplifies, ⟨folded, t, fold⟩, ⟨simplified, t', simplify⟩⟩
  rcases folds session folded t fold with ⟨ty, retains⟩
  have accepted : ∃ t, condition.encode = .ok t ∧ t.constants = constants :=
    ⟨_, rfl, by decide +kernel⟩
  refine ⟨accepted, ⟨folded, t, fold, ty, retains.ordered⟩, simplified, t', simplify, ?_⟩
  rcases accepted with ⟨term, accepted, same⟩
  rw [← same]
  exact (simplifies session simplified t' simplify).encodes term accepted

end Condense
