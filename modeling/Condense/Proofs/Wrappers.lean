import Condense.Proofs.Identity
import Condense.Proofs.Origins
import Condense.Proofs.SinglePass

/-!
# Wrappers around a variable

Parentheses, casts to `bool` and negations around a boolean variable all go if the negations
are even in number. The origins of a wrapper that goes are handed to the node it leaves behind,
and from there to the variable, unless that node is passed over: a negation around a negation in
parentheses takes the variable out of both, and lets it inherit from the parentheses and from
itself, but not from the negation in between. What had been handed to that negation before stays
there, and so do its own origins. Every other origin arrives.
-/

namespace Condense

set_option autoImplicit false

inductive Wrapping where
  | paren
  | cast
  | negation
  deriving DecidableEq

/-- A node around a boolean expression that keeps or negates its truth. -/
structure Wrapper where
  kind : Wrapping
  id : NodeId
  deriving DecidableEq

namespace Wrapper

def around : Wrapper → Expr → Expr
  | ⟨.paren, id⟩, e => .paren id e
  | ⟨.cast, id⟩, e => .cast id .bool e
  | ⟨.negation, id⟩, e => .unary id .lnot e

def isNegation (w : Wrapper) : Bool :=
  w.kind == .negation

def negates : List Wrapper → Bool
  | [] => false
  | ⟨.negation, _⟩ :: inner => !negates inner
  | _ :: inner => negates inner

def sheath : List Wrapper → List Wrapper
  | ⟨.negation, id⟩ :: _ => [⟨.negation, id⟩]
  | ⟨.cast, id⟩ :: inner => if sheath inner = [] then [] else ⟨.cast, id⟩ :: sheath inner
  | _ => []

/-- The wrappers whose origins do not arrive: where parentheses come next to a negation that
another one outside them is to cancel, that negation and the casts between. -/
def lost : List Wrapper → List Wrapper
  | [] => []
  | ⟨.paren, _⟩ :: inner => (if negates inner then sheath inner else []) ++ lost inner
  | _ :: inner => lost inner

def kept (chain : List Wrapper) : List Wrapper :=
  chain.filter (· ∉ lost chain)

theorem negates_eq_false (chain : List Wrapper) :
    negates chain = false ↔ Even (chain.countP isNegation) := by
  induction chain with
  | nil => simp [negates]
  | cons w inner ih =>
      rcases w with ⟨kind, id⟩
      cases kind with
      | negation =>
          have counted : List.countP isNegation (⟨.negation, id⟩ :: inner)
              = inner.countP isNegation + 1 :=
            List.countP_cons_of_pos rfl
          rw [counted, Nat.even_add_one, ← ih, negates, Bool.not_eq_false, Bool.not_eq_false']
      | _ =>
          rw [List.countP_cons_of_neg (by simp [isNegation]), ← ih]
          rfl

theorem sheath_sublist (chain : List Wrapper) : (sheath chain).Sublist chain := by
  fun_induction sheath chain with
  | case1 id inner => simp
  | case2 id inner none => exact List.nil_sublist _
  | case3 id inner some ih => exact ih.cons_cons _
  | case4 chain => exact List.nil_sublist _

/-- The outermost wrapper is never lost. -/
theorem lost_subset_inner {inner : List Wrapper} (deeper : lost inner ⊆ inner) (w : Wrapper) :
    lost (w :: inner) ⊆ inner := by
  rcases w with ⟨kind, id⟩
  cases kind with
  | paren =>
      apply List.append_subset.mpr
      refine ⟨?_, deeper⟩
      split
      · exact (sheath_sublist inner).subset
      · exact List.nil_subset _
  | _ => exact deeper

theorem lost_subset (chain : List Wrapper) : lost chain ⊆ chain := by
  induction chain with
  | nil => exact List.Subset.refl _
  | cons w inner ih => exact List.subset_cons_of_subset _ (lost_subset_inner ih w)

end Wrapper

def Expr.wrapped : List Wrapper → Expr → Expr
  | [], e => e
  | w :: inner, e => w.around (wrapped inner e)

namespace Provenance

variable {p q known : Provenance} {id target source : NodeId} {sources others : List NodeId}

/-- The node has the origins known of some nodes, and no other ones. -/
def Gathers (p known : Provenance) (id : NodeId) (sources : List NodeId) : Prop :=
  ∀ origin, p.Records id origin ↔ ∃ source ∈ sources, known.Records source origin

namespace Gathers

theorem self (known : Provenance) (id : NodeId) : known.Gathers known id [id] := by
  intro origin
  simp

theorem of_same (gathers : p.Gathers known id sources) (same : q.origins? id = p.origins? id) :
    q.Gathers known id sources := by
  intro origin
  rw [← gathers origin, Records, Records, same]

theorem congr (gathers : p.Gathers known id sources)
    (same : ∀ source, source ∈ sources ↔ source ∈ others) : p.Gathers known id others := by
  intro origin
  simp only [gathers origin, same]

theorem inherit (heir : p.Gathers known target sources) (owner : p.Gathers known source others) :
    (p.inherit target source).Gathers known target (others ++ sources) := by
  intro origin
  rw [records_inherit, heir origin, owner origin]
  simp only [true_and, List.mem_append, or_and_right, exists_or]
  exact or_comm

theorem elsewhere (gathers : p.Gathers known id sources) (other : id ≠ target) :
    (p.inherit target source).Gathers known id sources :=
  gathers.of_same (origins_inherit source other)

end Gathers

end Provenance

open Condense.Identities

/-- What is left of a wrapped variable, and where the origins of the chain and of the variable
are by then: with the variable, with the root of what is around it, or lost. -/
inductive Wrapper.Leaves (known : Provenance) (id : NodeId) (name : String) (p : Provenance)
    (chain : List Wrapper) : Expr → Prop where
  | bare {core : List NodeId} (even : negates chain = false)
      (gathered : p.Gathers known id core)
      (whole : (id :: chain.map Wrapper.id).Perm (core ++ (lost chain).map Wrapper.id)) :
      Leaves known id name p chain (.var id ⟨name, .bool⟩)
  | negated {core : List NodeId} {root : NodeId} (odd : negates chain = true)
      (next : sheath chain ≠ []) (apart : root ≠ id)
      (gathered : p.Gathers known id core)
      (outside : p.Gathers known root ((sheath chain).map Wrapper.id))
      (whole : (id :: chain.map Wrapper.id).Perm
        (core ++ ((sheath chain).map Wrapper.id ++ (lost chain).map Wrapper.id))) :
      Leaves known id name p chain (.unary root .lnot (.var id ⟨name, .bool⟩))
  | enclosed {core shell : List NodeId} {root inner : NodeId} (odd : negates chain = true)
      (plain : sheath chain = []) (apart : root ≠ id)
      (gathered : p.Gathers known id core) (outside : p.Gathers known root shell)
      (whole : (id :: chain.map Wrapper.id).Perm
        (core ++ (shell ++ (lost chain).map Wrapper.id))) :
      Leaves known id name p chain (.paren root (.unary inner .lnot (.var id ⟨name, .bool⟩)))

namespace Wrapper.Leaves

variable {known : Provenance} {id own new : NodeId} {name : String} {nodes : Nodes}
  {chain : List Wrapper} {e : Expr}

theorem mem_ids {p : Provenance} (leaves : Leaves known id name p chain e) :
    id ∈ e.nodes.map Expr.id := by
  cases leaves <;> simp [Expr.nodes, Expr.id]

theorem widen {ids parts : List NodeId} (own : NodeId) (whole : (id :: ids).Perm parts) :
    (id :: own :: ids).Perm (own :: parts) :=
  (List.Perm.swap own id ids).trans (whole.cons own)

/-- A negation gives the variable what the root around it has, and what it has itself. -/
theorem cancelled {p : Provenance} {core shell : List NodeId} {top : NodeId}
    (odd : negates chain = true) (gathered : p.Gathers known id core)
    (outside : p.Gathers known top shell) (root : p.Gathers known new [own]) (apart : new ≠ id)
    (whole : (id :: chain.map Wrapper.id).Perm
      (core ++ (shell ++ (lost chain).map Wrapper.id))) :
    Leaves known id name ((p.inherit id top).inherit id new) (⟨.negation, own⟩ :: chain)
      (.var id ⟨name, .bool⟩) := by
  refine .bare (congrArg not odd) ((gathered.inherit outside).inherit (root.elsewhere apart)) ?_
  have moved : (core ++ (shell ++ (lost chain).map Wrapper.id)).Perm
      ((shell ++ core) ++ (lost chain).map Wrapper.id) := by
    rw [List.append_assoc]
    exact List.perm_append_comm_assoc _ _ _
  exact (widen own whole).trans (moved.cons own)

/-- The identities at one more wrapper, which has only its own origins. -/
theorem step (leaves : Leaves known id name nodes.provenance chain e) (kind : Wrapping)
    (root : nodes.provenance.Gathers known new [own]) (apart : new ∉ e.nodes.map Expr.id) :
    let result := atNode (around ⟨kind, new⟩ e) nodes
    Leaves known id name result.2.provenance (⟨kind, own⟩ :: chain) result.1 := by
  intro result
  have other : new ≠ id := by
    rintro rfl
    exact apart leaves.mem_ids
  cases leaves with
  | bare even gathered whole =>
      cases kind with
      | paren =>
          refine .bare even (gathered.inherit root) ?_
          simpa [lost, even] using widen own whole
      | cast => exact .bare even (gathered.inherit root) (widen own whole)
      | negation =>
          refine .negated (congrArg not even) (List.cons_ne_nil _ _) other gathered root ?_
          exact (widen own whole).trans List.perm_middle.symm
  | @negated core top odd next distinct gathered outside whole =>
      cases kind with
      | paren =>
          -- From here on nothing reaches the negation inside.
          refine .enclosed odd rfl other gathered root ?_
          simpa [lost, odd] using (widen own whole).trans List.perm_middle.symm
      | cast =>
          have sheathed : sheath (⟨.cast, own⟩ :: chain) = ⟨.cast, own⟩ :: sheath chain :=
            if_neg next
          refine .negated odd ?_ distinct (gathered.elsewhere distinct.symm) ?_ ?_
          · rw [sheathed]
            exact List.cons_ne_nil _ _
          · rw [sheathed]
            exact outside.inherit root
          · rw [sheathed]
            exact (widen own whole).trans List.perm_middle.symm
      | negation => exact cancelled odd gathered outside root other whole
  | @enclosed core shell top inner odd plain distinct gathered outside whole =>
      cases kind with
      | paren =>
          refine .enclosed odd rfl distinct (gathered.elsewhere distinct.symm)
            (outside.inherit root) ?_
          simpa [lost, plain] using (widen own whole).trans List.perm_middle.symm
      | cast =>
          refine .enclosed odd (if_pos plain) distinct (gathered.elsewhere distinct.symm)
            (outside.inherit root) ?_
          exact (widen own whole).trans List.perm_middle.symm
      | negation => exact cancelled odd gathered outside root other whole

/-- Apart from the nodes that are left, the identities at a wrapper touch no record. -/
theorem frame (leaves : Leaves known id name nodes.provenance chain e) (kind : Wrapping)
    {other : NodeId} (apart : other ∉ e.nodes.map Expr.id) :
    (atNode (around ⟨kind, new⟩ e) nodes).2.provenance.origins? other
      = nodes.provenance.origins? other := by
  have unchanged {p : Provenance} {target : NodeId} (source : NodeId)
      (inside : target ∈ e.nodes.map Expr.id) :
      (p.inherit target source).origins? other = p.origins? other := by
    apply Provenance.origins_inherit
    rintro rfl
    exact apart inside
  cases leaves with
  | bare even gathered whole =>
      cases kind with
      | negation => rfl
      | _ => exact unchanged _ (by simp [Expr.nodes, Expr.id])
  | negated odd next distinct gathered outside whole =>
      cases kind with
      | paren => rfl
      | cast => exact unchanged _ (by simp [Expr.nodes, Expr.id])
      | negation =>
          exact (unchanged _ (by simp [Expr.nodes, Expr.id])).trans
            (unchanged _ (by simp [Expr.nodes, Expr.id]))
  | enclosed odd plain distinct gathered outside whole =>
      cases kind with
      | negation =>
          exact (unchanged _ (by simp [Expr.nodes, Expr.id])).trans
            (unchanged _ (by simp [Expr.nodes, Expr.id]))
      | _ => exact unchanged _ (by simp [Expr.nodes, Expr.id])

theorem transfer {p q : Provenance} (leaves : Leaves known id name p chain e)
    (same : ∀ other ∈ e.nodes.map Expr.id, q.origins? other = p.origins? other) :
    Leaves known id name q chain e := by
  have own : q.origins? id = p.origins? id := same id leaves.mem_ids
  have top : q.origins? e.id = p.origins? e.id :=
    same e.id (List.mem_map_of_mem e.self_mem_nodes)
  cases leaves with
  | bare even gathered whole => exact .bare even (gathered.of_same own) whole
  | negated odd next distinct gathered outside whole =>
      exact .negated odd next distinct (gathered.of_same own) (outside.of_same top) whole
  | enclosed odd plain distinct gathered outside whole =>
      exact .enclosed odd plain distinct (gathered.of_same own) (outside.of_same top) whole

/-- An even number of negations leaves the variable alone. -/
theorem of_even {p : Provenance} (leaves : Leaves known id name p chain e)
    (even : negates chain = false) :
    e = .var id ⟨name, .bool⟩ ∧ ∃ core, p.Gathers known id core ∧
      (id :: chain.map Wrapper.id).Perm (core ++ (lost chain).map Wrapper.id) := by
  cases leaves with
  | bare _ gathered whole => exact ⟨rfl, _, gathered, whole⟩
  | negated odd => exact absurd odd (by simp [even])
  | enclosed odd => exact absurd odd (by simp [even])

end Wrapper.Leaves

theorem Nodes.renew_gathers {nodes : Nodes} {known : Provenance} {own : NodeId}
    (owner : nodes.provenance.Gathers known own [own])
    (unused : nodes.provenance.origins? nodes.next = none) (changed : Bool) :
    let root := Nodes.renew own changed nodes
    (root.1 = own ∨ root.1 = nodes.next) ∧ root.2.provenance.Gathers known root.1 [own] ∧
      ∀ other, other ≠ nodes.next →
        root.2.provenance.origins? other = nodes.provenance.origins? other := by
  intro root
  cases changed with
  | false => exact ⟨.inl rfl, owner, fun _ _ => rfl⟩
  | true =>
      have nothing : nodes.provenance.Gathers known nodes.next [] := by
        intro origin
        simp [Provenance.not_records_of_none unused]
      exact ⟨.inr rfl, nothing.inherit owner, fun _ other => Provenance.origins_inherit own other⟩

theorem Expr.reduce_steps (e : Expr) (nodes : Nodes) :
    Nodes.Steps e nodes nodes (e.reduce nodes).2 ∧
      e.Within nodes (e.reduce nodes).2 (e.reduce nodes).1 := by
  let solver : Solver Unit := .stateless fun _ _ => ⟨.ok .unknown, []⟩
  let session := Session.start solver () nodes {}
  have run : Pass.onNodes e.reduce session
      = (.ok (e.reduce nodes).1, { session with nodes := (e.reduce nodes).2 }) := rfl
  apply (e.traces_evolution nodes).reduce run
  exact ⟨Nat.le_refl _, fun node member => .inl (List.mem_map_of_mem member)⟩

/-- What is out of reach of a pass is no node of the result, and has the record it had. -/
theorem Expr.reduce_frame {e : Expr} {nodes : Nodes} {other : NodeId}
    (unused : ∀ id, nodes.next ≤ id → nodes.provenance.origins? id = none)
    (unreached : ¬e.Reaches nodes (e.reduce nodes).2 other) :
    other ∉ (e.reduce nodes).1.nodes.map Expr.id ∧
      (e.reduce nodes).2.provenance.origins? other = nodes.provenance.origins? other := by
  rcases e.reduce_steps nodes with ⟨steps, within⟩
  refine ⟨?_, ((Nodes.Accounted.refl e nodes).steps unused steps).framed unreached⟩
  intro member
  rcases List.mem_map.mp member with ⟨node, inside, rfl⟩
  exact unreached (within.reached node inside)

namespace Wrapper

variable {id : NodeId} {name : String} {nodes : Nodes} {chain : List Wrapper} {e : Expr}

theorem id_around (w : Wrapper) (e : Expr) : (w.around e).id = w.id := by
  rcases w with ⟨kind, id⟩
  cases kind <;> rfl

theorem children_around (w : Wrapper) (e : Expr) : (w.around e).children = [e] := by
  rcases w with ⟨kind, id⟩
  cases kind <;> rfl

theorem nodes_around (w : Wrapper) (e : Expr) : (w.around e).nodes = w.around e :: e.nodes := by
  rw [Expr.nodes_eq, children_around, Expr.nodes_of_singleton]

theorem reduce_around (kind : Wrapping) (own : NodeId) (e : Expr) (nodes : Nodes) :
    (around ⟨kind, own⟩ e).reduce nodes =
      let below := e.reduce nodes
      let root := Nodes.renew own (below.1.id != e.id) below.2
      atNode (around ⟨kind, root.1⟩ below.1) root.2 := by
  cases kind <;> rfl

theorem apart_of_owned {next : NodeId} {w : Wrapper} (owned : Expr.Owned next [w.around e]) :
    w.id < next ∧ w.id ∉ e.nodes.map Expr.id ∧ Expr.Owned next [e] := by
  have root : w.around e ∈ Expr.nodesOf [w.around e] := by simp [nodes_around]
  have inner : Expr.nodesOf [e] ⊆ Expr.nodesOf [w.around e] := by simp [nodes_around]
  refine ⟨?_, ?_, owned.mono (Nat.le_refl _) inner⟩
  · rw [← w.id_around e]
    exact owned.made _ root
  · intro member
    rcases List.mem_map.mp member with ⟨node, inside, same⟩
    have deeper : node ∈ Expr.nodesOf (w.around e).children := by
      rwa [children_around, Expr.nodes_of_singleton]
    apply Expr.anonymous_ne_of_inside deeper
    apply owned.identified node (inner (by simpa using inside)) _ root
    rw [same, id_around]

theorem Leaves.wrap {kind : Wrapping} {own : NodeId}
    (owned : Expr.Owned nodes.next [around ⟨kind, own⟩ e])
    (unused : ∀ id, nodes.next ≤ id → nodes.provenance.origins? id = none)
    (leaves : Leaves nodes.provenance id name (e.reduce nodes).2.provenance chain
      (e.reduce nodes).1) :
    let result := (around ⟨kind, own⟩ e).reduce nodes
    Leaves nodes.provenance id name result.2.provenance (⟨kind, own⟩ :: chain) result.1 ∧
      result.2.provenance.origins? own = nodes.provenance.origins? own := by
  intro result
  rcases apart_of_owned owned with ⟨made, apart, owned⟩
  have later : nodes.next ≤ (e.reduce nodes).2.next := (e.reduce_steps nodes).2.later
  -- Neither the wrapper nor the next new node has been touched so far.
  have outside : ¬e.Reaches nodes (e.reduce nodes).2 own := by
    rintro (member | ⟨new, _⟩)
    · exact apart member
    · exact absurd made (Nat.not_lt.mpr new)
  have upcoming : ¬e.Reaches nodes (e.reduce nodes).2 (e.reduce nodes).2.next := by
    rintro (member | ⟨_, used⟩)
    · rcases List.mem_map.mp member with ⟨node, inside, same⟩
      have old : node.id < nodes.next := owned.made node (by simpa using inside)
      exact Nat.ne_of_lt (Nat.lt_of_lt_of_le old later) same
    · exact absurd used (Nat.lt_irrefl _)
  rcases Expr.reduce_frame unused outside with ⟨absent, untouched⟩
  rcases Expr.reduce_frame unused upcoming with ⟨unmade, unrecorded⟩
  have owner := (Provenance.Gathers.self nodes.provenance own).of_same untouched
  rcases Nodes.renew_gathers owner (unrecorded.trans (unused _ later))
    ((e.reduce nodes).1.id != e.id) with ⟨either, root, same⟩
  have leaves := leaves.transfer fun other member =>
    same other fun new => unmade (new ▸ member)
  have whole : result = _ := reduce_around kind own e nodes
  rw [whole]
  constructor
  · apply leaves.step kind root
    rcases either with kept | renewed
    · rw [kept]
      exact absent
    · rw [renewed]
      exact unmade
  · have older : own ≠ (e.reduce nodes).2.next := Nat.ne_of_lt (Nat.lt_of_lt_of_le made later)
    exact (leaves.frame kind absent).trans ((same own older).trans untouched)

/-- What one pass of the identities leaves of a wrapped variable. The record of the outermost
node stays as it was. -/
theorem reduce_leaves (chain : List Wrapper)
    (owned : Expr.Owned nodes.next [.wrapped chain (.var id ⟨name, .bool⟩)])
    (unused : ∀ id, nodes.next ≤ id → nodes.provenance.origins? id = none) :
    let condition := Expr.wrapped chain (.var id ⟨name, .bool⟩)
    let result := condition.reduce nodes
    Leaves nodes.provenance id name result.2.provenance chain result.1 ∧
      result.2.provenance.origins? condition.id = nodes.provenance.origins? condition.id := by
  induction chain with
  | nil => exact ⟨.bare rfl (.self _ _) (List.Perm.refl _), rfl⟩
  | cons w inner ih =>
      rcases ih (apart_of_owned owned).2.2 with ⟨leaves, _⟩
      rcases Leaves.wrap owned unused leaves with ⟨leaves, kept⟩
      refine ⟨leaves, ?_⟩
      rw [Expr.wrapped, id_around]
      exact kept

theorem ids_wrapped (chain : List Wrapper) (e : Expr) :
    (Expr.wrapped chain e).nodes.map Expr.id = chain.map Wrapper.id ++ e.nodes.map Expr.id := by
  induction chain with
  | nil => rfl
  | cons w inner ih =>
      rw [Expr.wrapped, nodes_around, List.map_cons, id_around, ih]
      rfl

/-- Where an id stands for one content, no two nodes on a chain share one. -/
theorem ids_nodup {next : NodeId} (chain : List Wrapper)
    (owned : Expr.Owned next [.wrapped chain (.var id ⟨name, .bool⟩)]) :
    (id :: chain.map Wrapper.id).Nodup := by
  induction chain with
  | nil => exact List.nodup_singleton id
  | cons w inner ih =>
      rcases apart_of_owned owned with ⟨_, apart, owned⟩
      have other : w.id ∉ id :: inner.map Wrapper.id := by
        intro member
        apply apart
        rw [ids_wrapped, List.mem_append]
        rcases List.mem_cons.mp member with same | deeper
        · exact .inr (by simp [Expr.nodes, Expr.id, same])
        · exact .inl deeper
      exact (List.Perm.swap id w.id _).nodup (List.nodup_cons.mpr ⟨other, ih owned⟩)

theorem mem_kept {w : Wrapper} : w ∈ kept chain ↔ w ∈ chain ∧ w ∉ lost chain := by
  simp [kept]

/-- What has come to the variable is all that is not lost. -/
theorem mem_core_iff {core : List NodeId} (nodup : (id :: chain.map Wrapper.id).Nodup)
    (whole : (id :: chain.map Wrapper.id).Perm (core ++ (lost chain).map Wrapper.id))
    (source : NodeId) : source ∈ core ↔ source ∈ id :: (kept chain).map Wrapper.id := by
  have apart : source ∈ core → source ∉ (lost chain).map Wrapper.id := by
    intro member gone
    exact (List.nodup_append.mp (whole.nodup nodup)).2.2 source member source gone rfl
  rcases List.nodup_cons.mp nodup with ⟨foreign, distinct⟩
  constructor
  · intro member
    have listed : source ∈ id :: chain.map Wrapper.id :=
      whole.mem_iff.mpr (List.mem_append_left _ member)
    rcases List.mem_cons.mp listed with rfl | wrapper
    · exact List.mem_cons_self
    · rcases List.mem_map.mp wrapper with ⟨w, inside, rfl⟩
      have remains : w ∉ lost chain := fun gone => apart member (List.mem_map_of_mem gone)
      exact List.mem_cons_of_mem _ (List.mem_map_of_mem (mem_kept.mpr ⟨inside, remains⟩))
  · intro listed
    have remains : source ∈ id :: chain.map Wrapper.id ∧
        source ∉ (lost chain).map Wrapper.id := by
      rcases List.mem_cons.mp listed with rfl | wrapper
      · refine ⟨List.mem_cons_self, fun gone => foreign ?_⟩
        exact List.map_subset _ (lost_subset chain) gone
      · rcases List.mem_map.mp wrapper with ⟨w, member, rfl⟩
        rcases mem_kept.mp member with ⟨inside, remains⟩
        refine ⟨List.mem_cons_of_mem _ (List.mem_map_of_mem inside), fun gone => remains ?_⟩
        rcases List.mem_map.mp gone with ⟨other, lost, same⟩
        rwa [← List.inj_on_of_nodup_map distinct (lost_subset chain lost) inside same]
    exact (List.mem_append.mp (whole.mem_iff.mp remains.1)).resolve_right remains.2

theorem outermost_kept (nodup : (id :: chain.map Wrapper.id).Nodup) :
    (Expr.wrapped chain (.var id ⟨name, .bool⟩)).id ∈ id :: (kept chain).map Wrapper.id := by
  cases chain with
  | nil => exact List.mem_cons_self
  | cons w inner =>
      rcases List.nodup_cons.mp (List.nodup_cons.mp nodup).2 with ⟨other, _⟩
      have remains : w ∉ lost (w :: inner) := by
        intro gone
        exact other (List.mem_map_of_mem (lost_subset_inner (lost_subset inner) w gone))
      rw [Expr.wrapped, id_around]
      exact List.mem_cons_of_mem _
        (List.mem_map_of_mem (mem_kept.mpr ⟨List.mem_cons_self, remains⟩))

end Wrapper

theorem Expr.tidied_of_var {e : Expr} {nodes : Nodes} {id : NodeId} {v : Variable}
    (reduced : (e.reduce nodes).1 = .var id v) :
    e.tidied nodes = (.var id v, (e.reduce nodes).2) := by
  unfold tidied
  rw [StateM.bind_run, reduced]
  rfl

section Simplification

variable {σ : Type} {solver : Solver σ}

/-- Without proofs a variable comes out of an even number of negations, and has gathered the
origins of the wrappers that are kept. -/
theorem Expr.simplify_wrapped (never : solver.NeverRefutes) {session : Session σ}
    (trusts : (Evidence.ofNeverRefutes never).Trusts session.prover)
    (chain : List Wrapper) (id : NodeId) (name : String)
    (even : Even (chain.countP Wrapper.isNegation))
    (owned : Owned session.nodes.next [wrapped chain (.var id ⟨name, .bool⟩)])
    (unused : ∀ id, session.nodes.next ≤ id → session.nodes.provenance.origins? id = none)
    (allowed : 2 ≤ session.options.maxIterations.toNat) :
    ∃ after, (wrapped chain (.var id ⟨name, .bool⟩)).simplify session
        = (.ok (.var id ⟨name, .bool⟩), after) ∧
      after.nodes.provenance.Gathers session.nodes.provenance id
        (id :: (Wrapper.kept chain).map Wrapper.id) := by
  have nodup := Wrapper.ids_nodup chain owned
  rcases Wrapper.reduce_leaves chain owned unused with ⟨leaves, outermost⟩
  rcases leaves.of_even ((Wrapper.negates_eq_false chain).mpr even) with
    ⟨reduced, core, gathered, whole⟩
  rcases simplify_barren never trusts (wrapped chain (.var id ⟨name, .bool⟩)) allowed with
    ⟨after, _, _, settled, supply, _⟩
  rw [tidied_of_var reduced] at settled supply
  refine ⟨after, settled.run, ?_⟩
  rw [supply]
  have arrived := gathered.congr (Wrapper.mem_core_iff nodup whole)
  have last := arrived.inherit ((Provenance.Gathers.self _ _).of_same outermost)
  apply last.congr
  intro source
  rw [List.singleton_append, List.mem_cons, or_iff_right_of_imp]
  rintro rfl
  exact Wrapper.outermost_kept nodup

/-- For a solver that never refutes a term and in a session with any history, take a boolean
variable in a chain of parentheses, casts to `bool` and an even number of negations, where ids
stand for one content and origins are recorded for ids that have been handed out. If two rounds
are allowed, a simplification returns the variable. Its origins are then its own and those of all
the wrappers, except those lost at parentheses around a negation that another one cancels. -/
theorem Expr.simplify_hands_on_origins (solver : Solver σ) (never : solver.NeverRefutes)
    (memory : σ) (nodes : Nodes) (options : Options) (operations : List Operation)
    (chain : List Wrapper) (id : NodeId) (name : String) :
    let session := (Session.start solver memory nodes options).after operations
    let known := session.nodes.provenance
    Even (chain.countP Wrapper.isNegation) →
    Owned session.nodes.next [wrapped chain (.var id ⟨name, .bool⟩)] →
    (∀ id, session.nodes.next ≤ id → known.origins? id = none) →
    2 ≤ session.options.maxIterations.toNat →
    ∃ after, (wrapped chain (.var id ⟨name, .bool⟩)).simplify session
        = (.ok (.var id ⟨name, .bool⟩), after) ∧
      ∀ origin, after.nodes.provenance.Records id origin ↔
        known.Records id origin ∨
          ∃ w ∈ chain, w ∉ Wrapper.lost chain ∧ known.Records w.id origin := by
  intro session known even owned unused allowed
  have trusts : (Evidence.ofNeverRefutes never).Trusts session.prover :=
    ((Evidence.ofNeverRefutes never).trusts_start memory nodes options).after_operations operations
  rcases simplify_wrapped never trusts chain id name even owned unused allowed with
    ⟨after, run, gathers⟩
  refine ⟨after, run, ?_⟩
  intro origin
  rw [gathers origin]
  simp [Wrapper.mem_kept, and_assoc, known]

/-- In `bool(!(bool(!(x))))` the origins of the outer cast go to the variable, and so do those of
both pairs of parentheses, the inner ones before there is a negation to pass over. -/
theorem Expr.simplify_hands_on_origins_of_parentheses :
    let solver : Solver Unit := .stateless fun _ _ => ⟨.ok .unknown, []⟩
    let x : Expr := .var 0 ⟨"x", .bool⟩
    let chain : List Wrapper :=
      [⟨.cast, 6⟩, ⟨.negation, 5⟩, ⟨.paren, 4⟩, ⟨.cast, 3⟩, ⟨.negation, 2⟩, ⟨.paren, 1⟩]
    let known : Provenance :=
      ((({} : Provenance).insert 1 0x1001).insert 4 0x1004).insert 6 0x1006
    let session :=
      (Session.start solver () ⟨1, {}⟩ {}).after [.condition x, .supply ⟨7, known⟩]
    solver.NeverRefutes ∧ Even (chain.countP Wrapper.isNegation) ∧
    Owned session.nodes.next [wrapped chain x] ∧
    (∀ id, session.nodes.next ≤ id → session.nodes.provenance.origins? id = none) ∧
    2 ≤ session.options.maxIterations.toNat ∧
    Wrapper.lost chain = [⟨.cast, 3⟩, ⟨.negation, 2⟩] ∧
    ∃ after, (wrapped chain x).simplify session = (.ok x, after) ∧
      after.nodes.provenance.Records 0 0x1001 ∧ after.nodes.provenance.Records 0 0x1004 ∧
      after.nodes.provenance.Records 0 0x1006 := by
  intro solver x chain known session
  have never : solver.NeverRefutes := Solver.unknown_never_refutes
  have even : Even (chain.countP Wrapper.isNegation) := by decide
  have owned : Owned session.nodes.next [wrapped chain x] := by
    constructor
    · simp [Identified, chain, x, wrapped, Wrapper.around, nodesOf, nodes, Expr.id, anonymous]
    · have supply : session.nodes.next = 7 := rfl
      simp [supply, chain, x, wrapped, Wrapper.around, nodesOf, nodes, Expr.id]
  have unused : ∀ id, 7 ≤ id → known.origins? id = none := by
    intro id unused
    have other {recorded : NodeId} (used : recorded < 7) : recorded ≠ id :=
      Nat.ne_of_lt (Nat.lt_of_lt_of_le used unused)
    unfold known Provenance.insert
    rw [Provenance.origins_extend, if_neg (other (by decide)), Provenance.origins_extend,
      if_neg (other (by decide)), Provenance.origins_extend, if_neg (other (by decide))]
    rfl
  have allowed : 2 ≤ session.options.maxIterations.toNat := by decide +kernel
  rcases Expr.simplify_hands_on_origins solver never () ⟨1, {}⟩ {}
    [.condition x, .supply ⟨7, known⟩] chain 0 "x" even owned unused allowed with
    ⟨after, run, gathered⟩
  refine ⟨never, even, owned, unused, allowed, rfl, after, run, ?_, ?_, ?_⟩
  · exact (gathered _).mpr (.inr ⟨⟨.paren, 1⟩, by decide, by decide, [0x1001], rfl, by simp⟩)
  · exact (gathered _).mpr (.inr ⟨⟨.paren, 4⟩, by decide, by decide, [0x1004], rfl, by simp⟩)
  · exact (gathered _).mpr (.inr ⟨⟨.cast, 6⟩, by decide, by decide, [0x1006], rfl, by simp⟩)

/-- The inner negation of `!(!x)` comes from one place, of which no record reaches the variable. -/
theorem Expr.simplify_loses_inner_negation :
    let solver : Solver Unit := .stateless fun _ _ => ⟨.ok .unknown, []⟩
    let chain : List Wrapper := [⟨.negation, 3⟩, ⟨.paren, 2⟩, ⟨.negation, 1⟩]
    let session := Session.start solver () ⟨4, ({} : Provenance).insert 1 0x1000⟩ {}
    solver.NeverRefutes ∧ Even (chain.countP Wrapper.isNegation) ∧
    Owned session.nodes.next [wrapped chain (.var 0 ⟨"x", .bool⟩)] ∧
    (∀ id, session.nodes.next ≤ id → session.nodes.provenance.origins? id = none) ∧
    2 ≤ session.options.maxIterations.toNat ∧
    (∃ w ∈ chain, session.nodes.provenance.Records w.id 0x1000) ∧
    ∃ after, (wrapped chain (.var 0 ⟨"x", .bool⟩)).simplify session
        = (.ok (.var 0 ⟨"x", .bool⟩), after) ∧
      ¬after.nodes.provenance.Records 0 0x1000 := by
  intro solver chain session
  have never : solver.NeverRefutes := Solver.unknown_never_refutes
  have even : Even (chain.countP Wrapper.isNegation) := by decide
  have owned : Owned session.nodes.next [wrapped chain (.var 0 ⟨"x", .bool⟩)] := by
    constructor
    · simp [Identified, chain, wrapped, Wrapper.around, nodesOf, nodes, Expr.id, anonymous]
    · have supply : session.nodes.next = 4 := rfl
      simp [supply, chain, wrapped, Wrapper.around, nodesOf, nodes, Expr.id]
  have recorded (id : NodeId) : session.nodes.provenance.origins? id
      = if 1 = id then some [0x1000] else none :=
    Provenance.origins_extend _ _ _ _
  have unused : ∀ id, 4 ≤ id → session.nodes.provenance.origins? id = none := by
    intro id unused
    rw [recorded, if_neg]
    rintro rfl
    exact absurd unused (by decide)
  have allowed : 2 ≤ session.options.maxIterations.toNat := by decide
  have trusts : (Evidence.ofNeverRefutes never).Trusts session.prover :=
    (Evidence.ofNeverRefutes never).trusts_start () _ {}
  rcases simplify_wrapped never trusts chain 0 "x" even owned unused allowed with
    ⟨after, run, gathers⟩
  have known : ∃ w ∈ chain, session.nodes.provenance.Records w.id 0x1000 :=
    ⟨⟨.negation, 1⟩, by decide, [0x1000], rfl, by simp⟩
  refine ⟨never, even, owned, unused, allowed, known, after, run, ?_⟩
  rw [gathers]
  have arriving : 0 :: (Wrapper.kept chain).map Wrapper.id = [0, 3, 2] := rfl
  rw [arriving]
  rintro ⟨source, member, origins, found, _⟩
  have other : 1 ≠ source := by
    rintro rfl
    exact absurd member (by decide)
  rw [recorded, if_neg other] at found
  cases found

end Simplification

end Condense
