import Condense.Proofs.Digests
import Condense.Proofs.Reliability
import Condense.Proofs.Transitions

/-!
# What an id stands for

The pass compares ids where it means expressions, so an id must go on to stand for the
content it has. Everything the pass makes of an expression consists of nodes of that
expression and of nodes made meanwhile, and an id handed out meanwhile belongs to one node.
From this it follows that ids never come to stand for two contents, in the result and in
all the trees it shares nodes with, and that an expression that keeps its id has not
changed at all.
-/

namespace Condense

set_option autoImplicit false

namespace Expr

section Content

theorem anonymous_all_eq_map (args : List Expr) : anonymousAll args = args.map anonymous := by
  induction args with
  | nil => rfl
  | cons first rest ih => rw [anonymousAll, List.map_cons, ih]

theorem children_anonymous (e : Expr) : e.anonymous.children = e.children.map anonymous := by
  cases e with
  | call id name ty args => exact anonymous_all_eq_map args
  | _ => rfl

theorem nodes_anonymous (e : Expr) : e.anonymous.nodes = e.nodes.map anonymous := by
  induction e using children_induction with
  | node e ih =>
      rw [nodes_eq, nodes_eq e, children_anonymous, List.map_cons]
      congr 1
      generalize e.children = operands at ih
      induction operands with
      | nil => rfl
      | cons first rest tail =>
          rw [List.map_cons, nodesOf, nodesOf, List.map_append, ih first (by simp),
            tail fun child member => ih child (by simp [member])]

theorem node_count_anonymous (e : Expr) : e.anonymous.nodeCount = e.nodeCount := by
  rw [nodeCount, nodes_anonymous, List.length_map, nodeCount]

theorem anonymous_ne_of_inside {e node : Expr} (inside : node ∈ nodesOf e.children) :
    node.anonymous ≠ e.anonymous := by
  intro content
  have smaller := node_count_lt_of_inside inside
  rw [← node_count_anonymous node, content, node_count_anonymous] at smaller
  exact absurd smaller (Nat.lt_irrefl _)

@[simp] theorem nodes_of_singleton (e : Expr) : nodesOf [e] = e.nodes := by
  rw [nodesOf, nodesOf, List.append_nil]

@[simp] theorem nodes_of_append (as bs : List Expr) :
    nodesOf (as ++ bs) = nodesOf as ++ nodesOf bs := by
  induction as with
  | nil => rfl
  | cons first rest ih => rw [List.cons_append, nodesOf, nodesOf, ih, List.append_assoc]

end Content

/-- In all the trees together an id stands for one content, and their ids are below the
least unused one. -/
structure Owned (next : NodeId) (trees : List Expr) : Prop where
  identified : Identified trees
  made : ∀ node ∈ nodesOf trees, node.id < next

theorem Owned.mono {next next' : NodeId} {trees others : List Expr} (owned : Owned next trees)
    (later : next ≤ next') (within : nodesOf others ⊆ nodesOf trees) : Owned next' others where
  identified := fun a left b right => owned.identified a (within left) b (within right)
  made := fun node member => Nat.lt_of_lt_of_le (owned.made node (within member)) later

/-- What trees have become while the ids from `next` to `next'` were handed out: every node
is one of theirs or has a new id, and a new id belongs to one node. -/
structure Renews (next : NodeId) (before : List Expr) (next' : NodeId) (after : List Expr) :
    Prop where
  later : next ≤ next'
  origin : ∀ node ∈ nodesOf after, node ∈ nodesOf before ∨ next ≤ node.id ∧ node.id < next'
  single : ∀ a ∈ nodesOf after, ∀ b ∈ nodesOf after, a.id = b.id → next ≤ a.id → a = b

namespace Renews

variable {next next' : NodeId} {before after : List Expr} {e r : Expr}

theorem of_subset (owned : Owned next before) (later : next ≤ next')
    (within : nodesOf after ⊆ nodesOf before) : Renews next before next' after where
  later := later
  origin := fun _ member => .inl (within member)
  single := by
    intro a left b right same unused
    exact absurd (owned.made a (within left)) (Nat.not_lt.mpr unused)

theorem owned (renews : Renews next before next' after) (owned : Owned next before) :
    Owned next' after where
  identified := by
    intro a left b right same
    rcases renews.origin a left with old | ⟨unused, _⟩
    · rcases renews.origin b right with old' | ⟨unused, _⟩
      · exact owned.identified a old b old' same
      · rw [renews.single a left b right same (same ▸ unused)]
    · rw [renews.single a left b right same unused]
  made := by
    intro node member
    rcases renews.origin node member with old | ⟨_, used⟩
    · exact Nat.lt_of_lt_of_le (owned.made node old) renews.later
    · exact used

theorem trans {next'' : NodeId} {middle : List Expr}
    (first : Renews next before next' middle) (second : Renews next' middle next'' after) :
    Renews next before next'' after where
  later := first.later.trans second.later
  origin := by
    intro node member
    rcases second.origin node member with old | ⟨unused, used⟩
    · rcases first.origin node old with older | ⟨unused, used⟩
      · exact .inl older
      · exact .inr ⟨unused, Nat.lt_of_lt_of_le used second.later⟩
    · exact .inr ⟨first.later.trans unused, used⟩
  single := by
    intro a left b right same unused
    rcases second.origin a left with old | ⟨recent, _⟩
    · rcases second.origin b right with old' | ⟨recent, _⟩
      · exact first.single a old b old' same unused
      · exact second.single a left b right same (same ▸ recent)
    · exact second.single a left b right same recent

theorem family {trees : List Expr} (renews : Renews next before next' after)
    (owned : Owned next trees) (within : nodesOf before ⊆ nodesOf trees) :
    Renews next trees next' (after ++ trees) where
  later := renews.later
  origin := by
    intro node member
    rw [nodes_of_append, List.mem_append] at member
    rcases member with new | old
    · exact (renews.origin node new).imp_left fun old => within old
    · exact .inl old
  single := by
    intro a left b right same unused
    rw [nodes_of_append, List.mem_append] at left right
    rcases left with left | left
    · rcases right with right | right
      · exact renews.single a left b right same unused
      · exact absurd (owned.made b right) (Nat.not_lt.mpr (same ▸ unused))
    · exact absurd (owned.made a left) (Nat.not_lt.mpr unused)

theorem restrict {part : List Expr} (renews : Renews next before next' after)
    (within : nodesOf part ⊆ nodesOf after) : Renews next before next' part where
  later := renews.later
  origin := fun node member => renews.origin node (within member)
  single := fun a left b right => renews.single a (within left) b (within right)

/-- An expression that keeps its id is the same expression. -/
theorem eq_of_id (renews : Renews next [e] next' [r]) (owned : Owned next [e])
    (same : r.id = e.id) : r = e := by
  have used : e.id < next := owned.made e (by simp [self_mem_nodes])
  rcases renews.origin r (by simp [self_mem_nodes]) with old | ⟨unused, _⟩
  · rw [nodes_of_singleton] at old
    have content : r.anonymous = e.anonymous :=
      owned.identified r (by simpa using old) e (by simp [self_mem_nodes]) same
    rw [e.nodes_eq] at old
    rcases List.mem_cons.mp old with rfl | deeper
    · rfl
    · exact absurd content (anonymous_ne_of_inside deeper)
  · exact absurd used (Nat.not_lt.mpr (same ▸ unused))

section Operands

variable {as bs : List Expr}

/-- Operands taken one after the other are renewed together. -/
theorem through
    (steps : Through (fun next e next' r => Owned next [e] → Renews next [e] next' [r]) next as
      next' bs) (owned : Owned next as) : Renews next as next' bs := by
  induction steps with
  | nil next => exact .of_subset owned (Nat.le_refl _) (List.Subset.refl _)
  | @cons next middle next' a a' as as' head tail ih =>
      have first : Renews next (a :: as) middle ([a'] ++ a :: as) :=
        (head (owned.mono (Nat.le_refl _) (by simp [nodesOf]))).family owned (by simp [nodesOf])
      have second : Renews middle ([a'] ++ a :: as) next' (as' ++ ([a'] ++ a :: as)) :=
        (ih (owned.mono first.later (by simp [nodesOf]))).family (first.owned owned)
          (by simp [nodesOf])
      exact (first.trans second).restrict (by simp [nodesOf])

theorem eq_of_ids
    (steps : Through (fun next e next' r => Owned next [e] → Renews next [e] next' [r]) next as
      next' bs) (owned : Owned next as) (same : bs.map Expr.id = as.map Expr.id) : bs = as := by
  induction steps with
  | nil next => rfl
  | @cons next middle next' a a' as as' head tail ih =>
      have owned' : Owned next [a] := owned.mono (Nat.le_refl _) (by simp [nodesOf])
      have first := head owned'
      rw [List.map_cons, List.map_cons] at same
      obtain ⟨same, rest⟩ := List.cons.inj same
      rw [first.eq_of_id owned' same, ih (owned.mono first.later (by simp [nodesOf])) rest]

end Operands

theorem node (owned : Owned next before) (renews : Renews next before next' r.children)
    (new : r.id = next') : Renews next before (next' + 1) [r] := by
  have member {node : Expr} (inside : node ∈ nodesOf [r]) :
      node = r ∨ node ∈ nodesOf r.children := by
    rwa [nodes_of_singleton, nodes_eq, List.mem_cons] at inside
  have used := (renews.owned owned).made
  constructor
  · exact Nat.le_succ_of_le renews.later
  · intro node inside
    rcases member inside with rfl | below
    · rw [new]
      exact .inr ⟨renews.later, Nat.lt_succ_self _⟩
    · exact (renews.origin node below).imp_right fun made => ⟨made.1, Nat.lt_succ_of_lt made.2⟩
  · intro a left b right same unused
    rcases member left with rfl | left
    · rcases member right with rfl | right
      · rfl
      · exact absurd (used b right) (by simp [← same, new])
    · rcases member right with rfl | right
      · exact absurd (used a left) (by simp [same, new])
      · exact renews.single a left b right same unused

theorem literal {id : NodeId} (owned : Owned next before) (c : Literal) (unused : next ≤ id)
    (used : id < next') : Renews next before next' [.lit id c] := by
  have made : Renews next before (id + 1) [.lit id c] :=
    node owned (.of_subset owned unused (List.nil_subset _)) rfl
  exact made.trans (.of_subset (made.owned owned) used (List.Subset.refl _))

/-- Everything the pass does renews an expression. -/
theorem transition :
    Transition fun next e next' r => Owned next [e] → Renews next [e] next' [r] := by
  have below (e : Expr) : nodesOf e.children ⊆ nodesOf [e] := by
    rw [nodes_of_singleton, e.nodes_eq]
    exact List.subset_cons_self _ _
  have operand {next : NodeId} {e : Expr} (owned : Owned next [e]) : Owned next e.children :=
    owned.mono (Nat.le_refl _) (below e)
  have kept {next next' : NodeId} {e r : Expr} (owned : Owned next [e]) (later : next ≤ next')
      (inside : r ∈ e.nodes) : Renews next [e] next' [r] := by
    apply of_subset owned later
    rw [nodes_of_singleton, nodes_of_singleton]
    exact (nodes_sublist inside).subset
  constructor
  case refl =>
    intro next e owned
    exact kept owned (Nat.le_refl _) e.self_mem_nodes
  case trans =>
    intro next next' next'' e e' e'' first second owned
    exact (first owned).trans (second ((first owned).owned owned))
  case rebuilt =>
    intro next next' e operands steps same owned
    rw [eq_of_ids steps (operand owned) same, rebuild_self]
    exact kept owned (through steps (operand owned)).later e.self_mem_nodes
  case renewed =>
    intro next next' e operands steps _ owned
    obtain ⟨new, children⟩ := rebuild_cases next' steps.length_eq
    have together : Renews next [e] next' (operands ++ [e]) :=
      (through steps (operand owned)).family owned (below e)
    apply node owned _ new
    rw [children]
    exact together.restrict (by simp)
  case inner =>
    intro next next' e r inside later owned
    exact kept owned later (by rw [e.nodes_eq]; exact List.mem_cons_of_mem _ inside)
  case literal =>
    intro next next' id e value _ unused used owned
    exact literal owned _ unused used
  case comparison =>
    intro next id id' a inner negated _ owned
    have within : inner.nodes ⊆ a.nodes := (nodes_sublist (mem_nodes_of_unparen negated)).subset
    have least : Renews next [.unary id .lnot a] (next + 1)
        ([.lit next (.ofWord 0 inner.ty)] ++ [.unary id .lnot a]) :=
      (literal owned _ (Nat.le_refl _) (Nat.lt_succ_self _)).family owned (List.Subset.refl _)
    refine node owned (least.restrict ?_) rfl
    intro node member
    simp only [children, nodesOf, nodes, List.append_nil, List.mem_append, nodes_of_append,
      List.mem_cons] at member ⊢
    exact member.symm.imp_right fun old => .inr (within old)

end Renews

/-- One simplification: the result consists of nodes of the condition and of nodes made
meanwhile, and has the condition's id exactly if it is the condition. -/
structure Simplified {σ : Type} (before : Session σ) (condition : Expr) (after : Session σ)
    (result : Expr) : Prop where
  run : condition.simplify before = (.ok result, after)
  origin : ∀ node ∈ result.nodes, node ∈ condition.nodes ∨
    before.nodes.next ≤ node.id ∧ node.id < after.nodes.next
  id_eq_iff : result.id = condition.id ↔ result = condition

section Families

variable {σ : Type} {session : Session σ} {trees : List Expr}

/-- A condition of a family of trees is simplified, and its result joins the family. -/
theorem simplified_of_owned (sequenced : session.prover.Sequenced)
    (owned : Owned session.nodes.next trees) {condition : Expr} (member : condition ∈ trees) :
    ∃ result after, Simplified session condition after result ∧ after.prover.Sequenced ∧
      Renews session.nodes.next trees after.nodes.next (result :: trees) := by
  obtain ⟨result, after, run, kept⟩ := condition.simplify_succeeds sequenced
  have within : nodesOf [condition] ⊆ nodesOf trees := by
    rw [nodes_of_singleton]
    exact (nodes_sublist_of_mem member).subset
  have alone : Owned session.nodes.next [condition] := owned.mono (Nat.le_refl _) within
  have renews : Renews session.nodes.next [condition] after.nodes.next [result] :=
    (Renews.transition.simplify run).1 alone
  refine ⟨result, after, ⟨run, ?_, ?_⟩, kept, renews.family owned within⟩
  · intro node inside
    simpa using renews.origin node (by simpa using inside)
  · constructor
    · exact renews.eq_of_id alone
    · intro same
      rw [same]

/-- Conditions of a family are simplified one after the other, and the results join it. -/
theorem simplified_run (sequenced : session.prover.Sequenced)
    (owned : Owned session.nodes.next trees) {conditions : List Expr}
    (members : ∀ condition ∈ conditions, condition ∈ trees) :
    ∃ results after, Through Simplified session conditions after results ∧
      Renews session.nodes.next trees after.nodes.next (results ++ trees) := by
  induction conditions generalizing session trees with
  | nil =>
      exact ⟨[], session, .nil session, .of_subset owned (Nat.le_refl _) (List.Subset.refl _)⟩
  | cons condition rest ih =>
      obtain ⟨result, middle, simplified, sequenced, renews⟩ :=
        simplified_of_owned sequenced owned (members condition List.mem_cons_self)
      obtain ⟨results, after, more, renews'⟩ := ih sequenced (renews.owned owned)
        fun later member => List.mem_cons_of_mem _ (members later (List.mem_cons_of_mem _ member))
      refine ⟨result :: results, after, .cons simplified more, (renews.trans renews').restrict ?_⟩
      intro node inside
      simp only [List.cons_append, nodes_of_append, nodesOf, List.mem_append] at inside ⊢
      tauto

end Families

/-- For any solver and in a session with any history, take a family of trees in which an id
stands for one content, with all its ids handed out before. Its conditions can be simplified
one after the other. Each result consists of nodes of its condition and of nodes made in
that call, and keeps the id exactly if it is the condition itself. In the family with all
the results an id still stands for one content, and for one node if it was handed out
meanwhile. -/
theorem simplify_keeps_identity {σ : Type} (solver : Solver σ) (memory : σ) (nodes : Nodes)
    (options : Options) (operations : List Operation) (trees : List Expr)
    (identified : Identified trees)
    (made : ∀ node ∈ nodesOf trees,
      node.id < ((Session.start solver memory nodes options).after operations).nodes.next)
    (conditions : List Expr) (members : ∀ condition ∈ conditions, condition ∈ trees) :
    let session := (Session.start solver memory nodes options).after operations
    ∃ results after, Through Simplified session conditions after results ∧
      Identified (results ++ trees) ∧
      (∀ a ∈ nodesOf (results ++ trees), ∀ b ∈ nodesOf (results ++ trees),
        a.id = b.id → session.nodes.next ≤ a.id → a = b) ∧
      ∀ node ∈ nodesOf (results ++ trees), node.id < after.nodes.next := by
  intro session
  have sequenced := Session.after_sequenced solver memory nodes options operations
  have owned : Owned session.nodes.next trees := ⟨identified, made⟩
  obtain ⟨results, after, run, renews⟩ := simplified_run sequenced owned members
  have owned' := renews.owned owned
  exact ⟨results, after, run, owned'.identified, renews.single, owned'.made⟩

/-- `(x <= 255)` and `!(x <= 255)` share the comparison, and are simplified in turn. -/
theorem simplify_keeps_identity_shared :
    let solver : Solver Unit := (⟨8, fun bound _ => bound == 0⟩ : Exhaustive).toSolver
    let bounded : Expr :=
      .binary 3 .le (.var 1 ⟨"x", .int 8 false⟩) (.lit 2 ⟨255, .int 8 false⟩)
    let trees : List Expr := [.paren 4 bounded, .unary 5 .lnot bounded]
    let session := (Session.start solver () ⟨4, {}⟩ {}).after [.condition bounded, .supply ⟨6, {}⟩]
    Identified trees ∧ (∀ node ∈ nodesOf trees, node.id < session.nodes.next) ∧
    ∃ results after, Through Simplified session trees after results ∧
      Identified (results ++ trees) := by
  intro solver bounded trees session
  have identified : Identified trees := by
    simp [Identified, trees, bounded, nodesOf, nodes, Expr.id, anonymous]
  have made : ∀ node ∈ nodesOf trees, node.id < 6 := by
    simp [trees, bounded, nodesOf, nodes, Expr.id]
  obtain ⟨results, after, run, kept, _⟩ := simplify_keeps_identity solver () ⟨4, {}⟩ {}
    [.condition bounded, .supply ⟨6, {}⟩] trees identified made trees fun _ member => member
  exact ⟨identified, made, results, after, run, kept⟩

end Expr

end Condense
