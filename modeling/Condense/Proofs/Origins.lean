import Condense.Proofs.Evolution
import Condense.Proofs.Reliability
import Mathlib.Logic.Relation

/-!
# Where origins come from

All that is ever done to nodes is to hand out an id, and to let one node inherit the origins
of another. In a simplification both nodes belong to the condition or were made meanwhile.
From this alone it follows that no origin is lost, that an origin found afterwards was there
before, and that nothing outside the condition is touched. It does not matter here whether
an id stands for one content.
-/

namespace Condense

set_option autoImplicit false

namespace Origin

variable {origin other : Origin} {origins known : List Origin}

theorem mem_insert : other ∈ insert origin known ↔ other = origin ∨ other ∈ known := by
  induction known with
  | nil => simp [insert]
  | cons first rest ih =>
      rw [insert]
      split
      · exact List.mem_cons
      · split
        · next same => simp [same]
        · rw [List.mem_cons, ih, List.mem_cons]
          exact or_left_comm

theorem mem_union : origin ∈ union origins known ↔ origin ∈ origins ∨ origin ∈ known := by
  induction origins generalizing known with
  | nil => simp [union]
  | cons first rest ih =>
      have step : union (first :: rest) known = union rest (insert first known) := rfl
      rw [step, ih, mem_insert, List.mem_cons]
      exact or_left_comm.trans or_assoc.symm

end Origin

namespace Provenance

variable {p : Provenance} {id target source : NodeId} {origin : Origin}

def Records (p : Provenance) (id : NodeId) (origin : Origin) : Prop :=
  ∃ origins, p.origins? id = some origins ∧ origin ∈ origins

theorem not_records_of_none (unrecorded : p.origins? id = none) : ¬p.Records id origin := by
  rintro ⟨origins, known, _⟩
  rw [unrecorded] at known
  cases known

theorem origins_extend (p : Provenance) (target id : NodeId) (origins : List Origin) :
    (p.extend target origins).origins? id =
      if target = id then some (Origin.union origins ((p.origins? target).getD []))
      else p.origins? id := by
  unfold extend origins?
  rw [Std.TreeMap.getElem?_insert]
  simp only [Nat.compare_eq_eq]

theorem inherit_of_none (target : NodeId) (unrecorded : p.origins? source = none) :
    p.inherit target source = p := by
  unfold inherit
  rw [unrecorded]
  split <;> rfl

theorem origins_inherit (source : NodeId) (other : id ≠ target) :
    (p.inherit target source).origins? id = p.origins? id := by
  unfold inherit
  split
  · rfl
  · split
    · rw [origins_extend, if_neg other.symm]
    · rfl

theorem records_inherit :
    (p.inherit target source).Records id origin ↔
      p.Records id origin ∨ id = target ∧ p.Records source origin := by
  by_cases same : target = source
  · subst same
    have idle : p.inherit target target = p := by
      unfold inherit
      rw [if_pos rfl]
    rw [idle]
    constructor
    · exact Or.inl
    · rintro (known | ⟨rfl, known⟩)
      · exact known
      · exact known
  by_cases other : id = target
  · subst other
    cases recorded : p.origins? source with
    | none =>
        rw [inherit_of_none id recorded]
        simp [not_records_of_none recorded]
    | some origins =>
        have extended : p.inherit id source = p.extend id origins := by
          unfold inherit
          rw [if_neg same, recorded]
        rw [extended]
        unfold Records
        rw [origins_extend, if_pos rfl, recorded]
        cases p.origins? id <;> simp [Origin.mem_union, or_comm]
  · unfold Records
    rw [origins_inherit source other]
    simp [other]

end Provenance

/-- The id belongs to a node of the condition, or was handed out since. -/
def Expr.Reaches (condition : Expr) (before now : Nodes) (id : NodeId) : Prop :=
  id ∈ condition.nodes.map Expr.id ∨ before.next ≤ id ∧ id < now.next

namespace Nodes

inductive Step (condition : Expr) (before nodes : Nodes) : Nodes → Prop where
  | fresh : Step condition before nodes (Nodes.fresh nodes).2
  | inherit {target source : NodeId} (heir : condition.Reaches before nodes target)
      (owner : condition.Reaches before nodes source) :
      Step condition before nodes (Nodes.inherit target source nodes).2

abbrev Steps (condition : Expr) (before : Nodes) : Nodes → Nodes → Prop :=
  Relation.ReflTransGen (Step condition before)

/-- What has become of the origins since: those that a node had are kept, those it has now
were its own or belonged to the condition, and a node that was out of reach has the same
record. Without a record in the condition there is none that could have moved. -/
structure Accounted (condition : Expr) (before now : Nodes) : Prop where
  kept : ∀ {id origin}, before.provenance.Records id origin → now.provenance.Records id origin
  traced : ∀ {id origin}, now.provenance.Records id origin →
    before.provenance.Records id origin ∨
      ∃ node ∈ condition.nodes, before.provenance.Records node.id origin
  framed : ∀ {id}, ¬condition.Reaches before now id →
    now.provenance.origins? id = before.provenance.origins? id
  silent : (∀ node ∈ condition.nodes, before.provenance.origins? node.id = none) →
    now.provenance = before.provenance

section Steps

variable {condition : Expr} {before nodes after : Nodes} {id : NodeId}

theorem Step.le (step : Step condition before nodes after) : nodes.next ≤ after.next := by
  cases step with
  | fresh => exact Nat.le_succ _
  | inherit heir owner => exact Nat.le_refl _

theorem steps_le (steps : Steps condition before nodes after) : nodes.next ≤ after.next := by
  induction steps with
  | refl => exact Nat.le_refl _
  | tail _ step ih => exact ih.trans step.le

theorem reaches_mono (later : nodes.next ≤ after.next)
    (reached : condition.Reaches before nodes id) : condition.Reaches before after id :=
  reached.imp_right fun made => ⟨made.1, Nat.lt_of_lt_of_le made.2 later⟩

theorem Accounted.refl (condition : Expr) (nodes : Nodes) : Accounted condition nodes nodes where
  kept := fun known => known
  traced := Or.inl
  framed := fun _ => rfl
  silent := fun _ => rfl

/-- A step keeps account of the origins as long as the ids it hands out have no record. -/
theorem Accounted.step
    (unused : ∀ id, before.next ≤ id → before.provenance.origins? id = none)
    (accounted : Accounted condition before nodes) (step : Step condition before nodes after) :
    Accounted condition before after := by
  cases step with
  | fresh =>
      refine ⟨accounted.kept, accounted.traced, ?_, accounted.silent⟩
      intro id unreached
      exact accounted.framed fun reached => unreached (reaches_mono (Nat.le_succ _) reached)
  | @inherit target source heir owner =>
      constructor
      case kept =>
        intro id origin known
        exact Provenance.records_inherit.mpr (.inl (accounted.kept known))
      case traced =>
        intro id origin known
        rcases Provenance.records_inherit.mp known with known | ⟨_, known⟩
        · exact accounted.traced known
        · -- The source is a node of the condition, or had no record at first.
          refine .inr ((accounted.traced known).elim ?_ fun traced => traced)
          intro first
          rcases owner with own | ⟨new, _⟩
          · obtain ⟨node, member, rfl⟩ := List.mem_map.mp own
            exact ⟨node, member, first⟩
          · exact absurd first (Provenance.not_records_of_none (unused source new))
      case framed =>
        intro id unreached
        have other : id ≠ target := by
          rintro rfl
          exact unreached heir
        exact (Provenance.origins_inherit source other).trans (accounted.framed unreached)
      case silent =>
        intro unrecorded
        have same : nodes.provenance = before.provenance := accounted.silent unrecorded
        have sourceless : nodes.provenance.origins? source = none := by
          rw [same]
          rcases owner with own | ⟨new, _⟩
          · obtain ⟨node, member, rfl⟩ := List.mem_map.mp own
            exact unrecorded node member
          · exact unused source new
        exact (Provenance.inherit_of_none target sourceless).trans same

theorem Accounted.steps
    (unused : ∀ id, before.next ≤ id → before.provenance.origins? id = none)
    (accounted : Accounted condition before nodes) (steps : Steps condition before nodes after) :
    Accounted condition before after := by
  induction steps with
  | refl => exact accounted
  | tail _ step ih => exact ih.step unused step

end Steps

end Nodes

section Acts

variable {condition : Expr} {before nodes after : Nodes} {e r : Expr} {id id' : NodeId}

structure Expr.Within (condition : Expr) (before nodes : Nodes) (e : Expr) : Prop where
  later : before.next ≤ nodes.next
  reached : ∀ node ∈ e.nodes, condition.Reaches before nodes node.id

namespace Expr.Within

open Condense.Nodes

theorem root (within : condition.Within before nodes e) : condition.Reaches before nodes e.id :=
  within.reached e e.self_mem_nodes

theorem inside (within : condition.Within before nodes e) (member : r ∈ e.nodes) :
    condition.Within before nodes r :=
  ⟨within.later, fun node deeper => within.reached node ((nodes_sublist member).subset deeper)⟩

theorem operand (within : condition.Within before nodes e) (member : r ∈ e.children) :
    condition.Within before nodes r := by
  apply within.inside
  rw [e.nodes_eq]
  exact List.mem_cons_of_mem _ (mem_nodes_of.mpr ⟨r, member, r.self_mem_nodes⟩)

theorem mono (within : condition.Within before nodes e)
    (steps : Steps condition before nodes after) : condition.Within before after e where
  later := within.later.trans (steps_le steps)
  reached := fun node member => reaches_mono (steps_le steps) (within.reached node member)

theorem node (later : before.next ≤ nodes.next) (root : condition.Reaches before nodes e.id)
    (operands : ∀ child ∈ e.children, condition.Within before nodes child) :
    condition.Within before nodes e :=
  ⟨later, forall_nodes_iff.mpr ⟨root, fun child below => (operands child below).reached⟩⟩

end Expr.Within

namespace Nodes

theorem reaches_next (later : before.next ≤ nodes.next) :
    condition.Reaches before (fresh nodes).2 nodes.next :=
  .inr ⟨later, Nat.lt_succ_self _⟩

def Yields (condition : Expr) (before nodes : Nodes) (act : StateM Nodes Expr) : Prop :=
  Steps condition before nodes (act nodes).2 ∧
    condition.Within before (act nodes).2 (act nodes).1

namespace Yields

theorem pure (within : condition.Within before nodes e) :
    Yields condition before nodes (pure e) :=
  ⟨.refl, within⟩

theorem following {α : Type} {act : StateM Nodes α} {next : α → StateM Nodes Expr}
    (steps : Steps condition before nodes (act nodes).2)
    (yields : Yields condition before (act nodes).2 (next (act nodes).1)) :
    Yields condition before nodes (act >>= next) :=
  ⟨steps.trans yields.1, yields.2⟩

theorem bind {act : StateM Nodes Expr} {next : Expr → StateM Nodes Expr}
    (first : Yields condition before nodes act)
    (second : ∀ e after, Steps condition before nodes after → condition.Within before after e →
      Yields condition before after (next e)) :
    Yields condition before nodes (act >>= next) :=
  following first.1 (second _ _ first.1 first.2)

theorem replace (within : condition.Within before nodes e)
    (place : condition.Reaches before nodes id) :
    Yields condition before nodes (Nodes.replace e id) := by
  have steps : Steps condition before nodes (Nodes.inherit e.id id nodes).2 :=
    .single (.inherit within.root place)
  exact following steps (pure (within.mono steps))

theorem literal (value : Bool) (later : before.next ≤ nodes.next)
    (place : condition.Reaches before nodes id) :
    Yields condition before nodes (Nodes.literal value id) := by
  apply following (.single .fresh)
  apply replace
  · exact .node (later.trans (Nat.le_succ _)) (reaches_next later) (by simp [Expr.children])
  · exact reaches_mono (Nat.le_succ _) place

end Yields

theorem renew_steps (later : before.next ≤ nodes.next)
    (place : condition.Reaches before nodes id) (changed : Bool) :
    Steps condition before nodes (renew id changed nodes).2 ∧
      condition.Reaches before (renew id changed nodes).2 (renew id changed nodes).1 := by
  cases changed with
  | false => exact ⟨.refl, place⟩
  | true =>
      refine ⟨.tail (.single .fresh) (.inherit ?_ ?_), ?_⟩
      · exact reaches_next later
      · exact reaches_mono (Nat.le_succ _) place
      · exact reaches_next later

end Nodes

namespace Identities

open Condense.Nodes

theorem collapse_yields (within : condition.Within before nodes e) :
    Yields condition before nodes (Prod.fst <$> collapse e) := by
  cases e with
  | lit id c =>
      cases kind : c.ty.isBool with
      | true =>
          rw [collapse, if_pos kind]
          exact .pure within
      | false =>
          rw [collapse, if_neg (by simp [kind])]
          exact .literal c.isNonzero within.later within.root
  | _ => exact .pure within

theorem collapse_bind {next : Expr × Bool → StateM Nodes Expr}
    (within : condition.Within before nodes e)
    (rest : ∀ e' changed after, Steps condition before nodes after →
      condition.Within before after e' → Yields condition before after (next (e', changed))) :
    Yields condition before nodes (collapse e >>= next) := by
  have first := collapse_yields within
  exact .following first.1 (rest _ _ _ first.1 first.2)

theorem comparison_yields (within : condition.Within before nodes e)
    (place : condition.Reaches before nodes id)
    (place' : condition.Reaches before nodes id') :
    Yields condition before nodes (do
      let zero := .lit (← Nodes.fresh) (.ofWord 0 e.ty)
      let ne := .binary (← Nodes.fresh) .ne e zero
      Nodes.replace (← Nodes.replace ne id) id') := by
  have first : Steps condition before nodes (Nodes.fresh nodes).2 := .single .fresh
  have second : Steps condition before nodes (Nodes.fresh (Nodes.fresh nodes).2).2 :=
    first.tail .fresh
  have zero : condition.Within before (Nodes.fresh nodes).2
      (.lit nodes.next (.ofWord 0 e.ty)) :=
    .node (within.mono first).later (reaches_next within.later) (by simp [Expr.children])
  have ne : condition.Within before (Nodes.fresh (Nodes.fresh nodes).2).2
      (.binary (nodes.next + 1) .ne e (.lit nodes.next (.ofWord 0 e.ty))) := by
    apply Expr.Within.node (within.mono second).later (reaches_next zero.later)
    simp only [Expr.children, List.forall_mem_cons]
    exact ⟨within.mono second, zero.mono (.single .fresh), by simp⟩
  apply Yields.following first
  apply Yields.following (.single .fresh)
  apply Yields.bind (.replace ne (reaches_mono (steps_le second) place))
  intro replaced after steps within'
  exact .replace within' (reaches_mono (steps_le (second.trans steps)) place')

theorem negation_yields (within : condition.Within before nodes e)
    (place : condition.Reaches before nodes id) :
    Yields condition before nodes (negation id e) := by
  unfold negation
  split
  · next value _ =>
      apply Yields.bind (.literal (!value) within.later within.root)
      intro literal after steps made
      exact .replace made (reaches_mono (steps_le steps) place)
  · split
    · next id' inner negated =>
        have operand : condition.Within before nodes inner :=
          within.inside (Expr.mem_nodes_of_unparen negated)
        have moved : Steps condition before nodes (Nodes.inherit inner.id e.id nodes).2 :=
          .single (.inherit operand.root within.root)
        apply Yields.following moved
        split
        · exact .replace (operand.mono moved) place
        · exact comparison_yields (operand.mono moved) within.root place
    · exact .pure (.node within.later place (by simpa [Expr.children] using within))

theorem junction_yields {l r : Expr} (left : condition.Within before nodes l)
    (right : condition.Within before nodes r) (place : condition.Reaches before nodes id)
    (op : BinaryOp) (absorbing : Bool) :
    Yields condition before nodes (junction id op absorbing l r) := by
  unfold junction
  apply collapse_bind left
  intro l' lc middle steps left
  apply collapse_bind (right.mono steps)
  intro r' rc after steps' right
  have left : condition.Within before after l' := left.mono steps'
  have place : condition.Reaches before after id :=
    reaches_mono (steps_le (steps.trans steps')) place
  dsimp only
  split
  · exact .replace left place
  split
  · exact .replace right place
  split
  · exact .replace right place
  split
  · exact .replace left place
  obtain ⟨renewed, place⟩ := renew_steps left.later place (lc || rc)
  apply Yields.following renewed
  apply Yields.pure
  apply Expr.Within.node (left.mono renewed).later place
  simp only [Expr.children, List.forall_mem_cons]
  exact ⟨left.mono renewed, right.mono renewed, by simp⟩

theorem at_node_yields (within : condition.Within before nodes e) :
    Yields condition before nodes (atNode e) := by
  have operand {a : Expr} (member : a ∈ e.children) : condition.Within before nodes a :=
    within.operand member
  have place : condition.Reaches before nodes e.id := within.root
  cases e with
  | paren id a =>
      rw [atNode]
      split
      · exact .replace (operand (List.mem_singleton_self a)) place
      · exact .pure within
  | cast id ty a =>
      rw [atNode]
      split
      · exact .replace (operand (List.mem_singleton_self a)) place
      · exact .pure within
  | unary id op a =>
      cases op with
      | lnot =>
          apply collapse_bind (operand (List.mem_singleton_self a))
          intro a' changed after steps within
          exact negation_yields within (reaches_mono (steps_le steps) place)
      | _ => exact .pure within
  | binary id op l r =>
      have left : condition.Within before nodes l := operand (by simp [Expr.children])
      have right : condition.Within before nodes r := operand (by simp [Expr.children])
      cases op with
      | land => exact junction_yields left right place .land false
      | lor => exact junction_yields left right place .lor true
      | _ => exact .pure within
  | _ => exact .pure within

end Identities

theorem Expr.unwrap_yields (within : condition.Within before nodes e) :
    Nodes.Yields condition before nodes e.unwrap := by
  induction e generalizing nodes with
  | paren id a ih =>
      have inner : condition.Within before nodes a := within.operand (List.mem_singleton_self a)
      have moved : Nodes.Steps condition before nodes (Nodes.inherit a.id id nodes).2 :=
        .single (.inherit inner.root within.root)
      exact .following moved (ih (inner.mono moved))
  | _ => exact .pure within

theorem Expr.Act.yields {act : StateM Nodes Expr} (acts : e.Act act)
    (within : condition.Within before nodes e) : Nodes.Yields condition before nodes act := by
  cases acts with
  | identities => exact Identities.at_node_yields within
  | unwrapped => exact unwrap_yields within
  | collapsed => exact Identities.collapse_yields within
  | decided isOpen value => exact .literal value within.later within.root

end Acts

section Simplification

open Condense.Nodes

variable {σ : Type} {condition : Expr} {before : Nodes} {s t : Session σ} {e r : Expr}

def Expr.Traces (condition : Expr) (before : Nodes) (s : Session σ) (e : Expr) (t : Session σ)
    (r : Expr) : Prop :=
  condition.Within before s.nodes e →
    Steps condition before s.nodes t.nodes ∧ condition.Within before t.nodes r

theorem Expr.traces_through {as bs : List Expr} (later : before.next ≤ s.nodes.next)
    (through : Through (condition.Traces before) s as t bs)
    (within : ∀ a ∈ as, condition.Within before s.nodes a) :
    Steps condition before s.nodes t.nodes ∧ ∀ b ∈ bs, condition.Within before t.nodes b := by
  induction through with
  | nil s => exact ⟨.refl, by simp⟩
  | @cons s u t a a' as as' head tail ih =>
      rw [List.forall_mem_cons] at within
      obtain ⟨first, within'⟩ := head within.1
      obtain ⟨rest, others⟩ := ih within'.later fun a member => (within.2 a member).mono first
      exact ⟨first.trans rest, List.forall_mem_cons.mpr ⟨within'.mono rest, others⟩⟩

theorem Expr.traces_evolution (condition : Expr) (before : Nodes) :
    Evolution (condition.Traces before : Session σ → Expr → Session σ → Expr → Prop) where
  refl := fun _ _ within => ⟨.refl, within⟩
  trans := by
    intro s u t e e' e'' first second within
    obtain ⟨steps, within⟩ := first within
    obtain ⟨steps', within⟩ := second within
    exact ⟨steps.trans steps', within⟩
  counted := fun _ _ _ within => ⟨.refl, within⟩
  told := fun _ _ _ within => ⟨.refl, within⟩
  asked := fun _ within => ⟨.refl, within⟩
  rebuilt := by
    intro s u e results below _ within
    obtain ⟨steps, operands⟩ :=
      traces_through within.later below fun _ member => within.operand member
    obtain ⟨root, children⟩ := rebuild_cases e.id below.length_eq
    refine ⟨steps, .node (within.mono steps).later ?_ ?_⟩
    · rw [root]
      exact (within.mono steps).root
    · rw [children]
      exact operands
  renewed := by
    intro s u e results below _ within
    obtain ⟨steps, operands⟩ :=
      traces_through within.later below fun _ member => within.operand member
    obtain ⟨root, children⟩ := rebuild_cases u.nodes.next below.length_eq
    obtain ⟨renewed, place⟩ :=
      renew_steps (within.mono steps).later (within.mono steps).root true
    refine ⟨steps.trans renewed, .node ((within.mono steps).mono renewed).later ?_ ?_⟩
    · rw [root]
      exact place
    · rw [children]
      exact fun child member => (operands child member).mono renewed
  acted := fun acts within => acts.yields within

/-- A simplification is a number of steps, of which the last lets the result inherit from the
condition. -/
theorem Expr.simplify_steps (run : condition.simplify s = (.ok r, t)) :
    ∃ nodes, Steps condition s.nodes s.nodes nodes ∧
      Step condition s.nodes nodes t.nodes ∧
      t.nodes.provenance = nodes.provenance.inherit r.id condition.id := by
  obtain ⟨stage, u, journal, rounds, rfl⟩ := Pass.simplify_ends run
  have within : condition.Within s.nodes s.nodes condition :=
    ⟨Nat.le_refl _, fun node member => .inl (List.mem_map_of_mem member)⟩
  obtain ⟨steps, within'⟩ := (condition.traces_evolution s.nodes).rounds rounds within
  exact ⟨u.nodes, steps, .inherit within'.root (within.mono steps).root, rfl⟩

/-- For any solver and in a session with any history, take records of origins for ids that
have been handed out. A simplification takes none of them away, and its result has all those of
the condition. Whatever is recorded afterwards was recorded for the same node before or for one
of the condition. No other nodes than these and new ones have another record, and nothing is
recorded where the condition has no record. -/
theorem Expr.simplify_keeps_origins (solver : Solver σ) (memory : σ) (nodes : Nodes)
    (options : Options) (operations : List Operation) (condition : Expr)
    (unused : ∀ id, ((Session.start solver memory nodes options).after operations).nodes.next ≤ id →
      ((Session.start solver memory nodes options).after operations).nodes.provenance.origins? id
        = none) :
    let session := (Session.start solver memory nodes options).after operations
    let known := session.nodes.provenance
    ∃ result after, condition.simplify session = (.ok result, after) ∧
      (∀ id origin, known.Records id origin → after.nodes.provenance.Records id origin) ∧
      (∀ origin, known.Records condition.id origin →
        after.nodes.provenance.Records result.id origin) ∧
      (∀ id origin, after.nodes.provenance.Records id origin →
        known.Records id origin ∨ ∃ node ∈ condition.nodes, known.Records node.id origin) ∧
      (∀ id, (∀ node ∈ condition.nodes, node.id ≠ id) →
        ¬(session.nodes.next ≤ id ∧ id < after.nodes.next) →
          after.nodes.provenance.origins? id = known.origins? id) ∧
      ((∀ node ∈ condition.nodes, known.origins? node.id = none) →
        after.nodes.provenance = known) := by
  intro session known
  have sequenced := Session.after_sequenced solver memory nodes options operations
  obtain ⟨result, after, run, _⟩ := condition.simplify_succeeds sequenced
  obtain ⟨middle, steps, last, inherited⟩ := simplify_steps run
  have accounted := (Accounted.refl condition session.nodes).steps unused steps
  have accounted' := accounted.step unused last
  refine ⟨result, after, run, fun _ _ => accounted'.kept, ?_, fun _ _ => accounted'.traced, ?_,
    accounted'.silent⟩
  · intro origin recorded
    rw [inherited]
    exact Provenance.records_inherit.mpr (.inr ⟨rfl, accounted.kept recorded⟩)
  · intro id foreign old
    apply accounted'.framed
    rintro (own | made)
    · obtain ⟨node, member, same⟩ := List.mem_map.mp own
      exact foreign node member same
    · exact old made

/-- In `(x <= 255)` the parentheses come from one place, and a node elsewhere from another. -/
theorem Expr.simplify_keeps_origins_of_wrapper :
    let solver : Solver Unit := (⟨8, fun bound _ => bound == 0⟩ : Exhaustive).toSolver
    let bounded : Expr :=
      .binary 3 .le (.var 1 ⟨"x", .int 8 false⟩) (.lit 2 ⟨255, .int 8 false⟩)
    let known : Provenance := (({} : Provenance).insert 4 0x1000).insert 0 0x2000
    let session :=
      (Session.start solver () ⟨4, {}⟩ {}).after [.condition bounded, .supply ⟨5, known⟩]
    (∀ id, session.nodes.next ≤ id → session.nodes.provenance.origins? id = none) ∧
    ∃ result after, (Expr.paren 4 bounded).simplify session = (.ok result, after) ∧
      after.nodes.provenance.Records result.id 0x1000 ∧
      after.nodes.provenance.origins? 0 = some [0x2000] := by
  intro solver bounded known session
  have unused : ∀ id, 5 ≤ id → known.origins? id = none := by
    intro id unused
    have other {recorded : NodeId} (used : recorded < 5) : recorded ≠ id :=
      Nat.ne_of_lt (Nat.lt_of_lt_of_le used unused)
    unfold known Provenance.insert
    rw [Provenance.origins_extend, if_neg (other (by decide)), Provenance.origins_extend,
      if_neg (other (by decide))]
    rfl
  refine ⟨unused, ?_⟩
  obtain ⟨result, after, run, _, inherited, _, framed, _⟩ := Expr.simplify_keeps_origins solver ()
    ⟨4, {}⟩ {} [.condition bounded, .supply ⟨5, known⟩] (.paren 4 bounded) unused
  refine ⟨result, after, run, inherited 0x1000 ⟨[0x1000], rfl, by simp⟩, ?_⟩
  exact framed 0 (by simp [bounded, Expr.nodes, Expr.id]) fun new => absurd new.1 (by decide)

end Simplification

end Condense
