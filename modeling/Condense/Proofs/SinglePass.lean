import Condense.Proofs.Idempotence
import Condense.Proofs.NormalForms
import Condense.Proofs.Settling

/-!
# One pass of the identities is enough

The identities are applied at a node once its operands are done. What they put in its place
has no identity left to apply, at its root or below: it was inside an operand, or is a
literal, a comparison with zero, or the node itself between operands that came out as they
should. So the result of one pass is left alone by the next, which hands out no id and moves
no origin.

With a solver that never calls a term unsatisfiable nothing is ever proven, whatever else it
answers. A round then does what the identities do and nothing more, and the second round at
the latest returns what it was given.
-/

namespace Condense

set_option autoImplicit false

open Condense.Identities

/-- What a step gives at every node whose operands have it, a traversal gives. -/
theorem Expr.bottom_up_establishes {m : Type → Type} [Monad m] [LawfulMonad m] (logic : Logic m)
    {renew : NodeId → Bool → m NodeId} {step : Expr → m Expr} {property : Expr → Prop}
    (keeps : ∀ id, renew id false = pure id)
    (renews : ∀ id changed, logic.gives (renew id changed) fun _ => True)
    (steps : ∀ e, (∀ child ∈ e.children, property child) → logic.gives (step e) property)
    (e : Expr) : logic.gives (e.bottomUp renew step) property := by
  induction e using children_induction with
  | node e ih =>
      have below : logic.gives (bottomUpAll renew step e.children)
          (List.Forall₂ (fun _ result => property result) e.children) :=
        bottom_up_all_gives logic ih
      rw [bottom_up_eq keeps]
      apply logic.bind below
      intro operands done
      apply logic.bind (renews _ _)
      intro id _
      apply steps
      have children : (e.rebuild id operands).children = operands :=
        (rebuild_cases id done.length_eq.symm).2
      have all : ∀ child ∈ operands, property child := by
        have paired : List.Forall₂ (fun result _ => property result ∧ True) operands e.children :=
          done.flip.imp fun _ _ holds => ⟨holds, trivial⟩
        exact ((List.forall₂_and_left _ _).mp paired).1
      rw [children]
      exact all

namespace Expr

variable {e : Expr}

def IsReduced (e : Expr) : Prop :=
  ∀ node ∈ e.nodes, node.IsIdle

theorem IsReduced.inside {r : Expr} (reduced : e.IsReduced) (member : r ∈ e.nodes) :
    r.IsReduced := by
  intro node deeper
  exact reduced node ((nodes_sublist member).subset deeper)

theorem reduced_of_idle (idle : e.IsIdle) (operands : ∀ child ∈ e.children, child.IsReduced) :
    e.IsReduced :=
  forall_nodes_iff.mpr ⟨idle, operands⟩

theorem lit_is_reduced (id : NodeId) (c : Literal) : (lit id c).IsReduced :=
  reduced_of_idle (fun _ => rfl) (by simp [children])

end Expr

namespace Identities

theorem collapse_settles (e : Expr) :
    Nodes.logic.gives (collapse e) fun result =>
      (∀ nodes, collapse result.1 nodes = ((result.1, false), nodes)) ∧
        (e.IsReduced → result.1.IsReduced) := by
  intro nodes
  rcases collapse_run e nodes with ⟨collapsed, ⟨noted, differs⟩ | same⟩
  · generalize (collapse e nodes).2.next = next at collapsed
    generalize (collapse e nodes).1 = result at collapsed differs ⊢
    rcases result with ⟨r, changed⟩
    dsimp only at collapsed differs ⊢
    cases collapsed with
    | kept => exact absurd rfl differs
    | literal integer value => exact ⟨fun _ => rfl, fun _ => Expr.lit_is_reduced _ _⟩
  · rw [same nodes]
    exact ⟨same, fun reduced => reduced⟩

theorem junction_reduced {id : NodeId} {op : BinaryOp} {absorbing : Bool} {l r : Expr}
    (absorbs : Absorbs op absorbing) (left : l.IsReduced) (right : r.IsReduced) :
    Nodes.logic.gives (junction id op absorbing l r) Expr.IsReduced := by
  unfold junction
  refine Nodes.logic.bind (collapse_settles l) ?_
  intro lhs first
  rcases lhs with ⟨l', lc⟩
  refine Nodes.logic.bind (collapse_settles r) ?_
  intro rhs second
  rcases rhs with ⟨r', rc⟩
  dsimp only at first second ⊢
  have left' : l'.IsReduced := first.2 left
  have right' : r'.IsReduced := second.2 right
  split
  · exact Nodes.replace_gives left'
  · next absorbed =>
    split
    · exact Nodes.replace_gives right'
    · next absorbed' =>
      split
      · exact Nodes.replace_gives right'
      · next neutral =>
        split
        · exact Nodes.replace_gives left'
        · next neutral' =>
          have kept (id' : NodeId) : (Expr.binary id' op l' r').IsReduced := by
            have whole : atNode (.binary id' op l' r') = junction id' op absorbing l' r' := by
              rcases absorbs with ⟨rfl, rfl⟩ | ⟨rfl, rfl⟩ <;> rfl
            apply Expr.reduced_of_idle
              (junction_idle whole first.1 second.1 absorbed absorbed' neutral neutral')
            simp only [Expr.children, List.forall_mem_cons]
            exact ⟨left', right', by simp⟩
          refine Nodes.logic.bind (Nodes.renew_gives _ _) ?_
          intro id' _
          exact Nodes.logic.pure (kept id')

/-- The step of the pass: over reduced operands the identities leave nothing to do. -/
theorem at_node_reduced (e : Expr) (operands : ∀ child ∈ e.children, child.IsReduced) :
    Nodes.logic.gives (atNode e) Expr.IsReduced := by
  have inside {r : Expr} (deeper : r ∈ Expr.nodesOf e.children) : r.IsReduced := by
    rcases Expr.mem_nodes_of.mp deeper with ⟨child, member, within⟩
    exact (operands child member).inside within
  have other (single : ∀ id op l r, e ≠ .binary id op l r) :
      Nodes.logic.gives (atNode e) Expr.IsReduced := by
    intro nodes
    have outcome := at_node_outcome e nodes
    generalize (atNode e nodes).2.next = next at outcome
    generalize (atNode e nodes).1 = result at outcome ⊢
    cases outcome with
    | kept idle irreducible => exact Expr.reduced_of_idle idle operands
    | inner deeper later => exact inside deeper
    | literal value heavier unused used => exact Expr.lit_is_reduced _ _
    | comparison whole negated integer =>
        apply Expr.reduced_of_idle fun _ => rfl
        simp only [Expr.children, List.forall_mem_cons]
        refine ⟨inside ?_, Expr.lit_is_reduced _ _, by simp⟩
        rw [whole]
        exact Expr.mem_nodes_of.mpr
          ⟨_, List.mem_singleton_self _, Expr.mem_nodes_of_unparen negated⟩
    | joined whole left right changed => exact absurd whole (single _ _ _ _)
  cases e with
  | binary id op l r =>
      have left : l.IsReduced := operands l (by simp [Expr.children])
      have right : r.IsReduced := operands r (by simp [Expr.children])
      cases op with
      | land => exact junction_reduced (.inl ⟨rfl, rfl⟩) left right
      | lor => exact junction_reduced (.inr ⟨rfl, rfl⟩) left right
      | _ => exact Nodes.logic.pure (Expr.reduced_of_idle (fun _ => rfl) operands)
  | _ => exact other (by simp)

end Identities

def Nodes.still : Logic (StateM Nodes) where
  gives act property := ∀ nodes, (act nodes).2 = nodes ∧ property (act nodes).1
  weaken := fun given stronger nodes => ⟨(given nodes).1, stronger _ (given nodes).2⟩
  pure := fun holds _ => ⟨rfl, holds⟩
  bind := by
    intro α β act next property wanted first second nodes
    rcases first nodes with ⟨same, holds⟩
    rcases second _ holds (act nodes).2 with ⟨same', holds'⟩
    exact ⟨same'.trans same, holds'⟩

namespace Expr

variable {e : Expr}

/-- Whatever the expression, one pass leaves no identity to apply. -/
theorem reduce_gives_reduced (e : Expr) : Nodes.logic.gives e.reduce IsReduced :=
  e.bottom_up_establishes Nodes.logic (fun _ => rfl) Nodes.renew_gives at_node_reduced

/-- A pass over a reduced expression does nothing at all. -/
theorem IsReduced.reduce_run (reduced : e.IsReduced) (nodes : Nodes) :
    e.reduce nodes = (e, nodes) := by
  have stays : Nodes.still.gives e.reduce (· = e) := by
    apply bottom_up_stays Nodes.still fun _ => rfl
    intro node inside supply
    rw [reduced node inside supply]
    exact ⟨rfl, rfl⟩
  rcases stays nodes with ⟨same, result⟩
  exact Prod.ext result same

/-- What a round does to an expression when nothing is proven. -/
def tidied (e : Expr) : StateM Nodes Expr := do
  let reduced ← e.reduce
  let bare ← reduced.unwrap
  let (result, _) ← collapse bare
  return result

theorem unparen_ne_paren (e : Expr) (id : NodeId) (a : Expr) : e.unparen ≠ .paren id a := by
  induction e with
  | paren id' inner ih => exact ih
  | _ => simp [unparen]

theorem settled_of_collapse (reduced : e.IsReduced) (bare : ∀ id a, e ≠ .paren id a)
    (nodes : Nodes) (folds : Bool) :
    Settled (fun _ => True) folds (collapse e nodes).1.1 := by
  rcases collapse_settles e nodes with ⟨boolean, reduced'⟩
  rcases collapse_run e nodes with ⟨collapsed, _⟩
  constructor
  · exact reduced' reduced
  · intro id a
    generalize (collapse e nodes).2.next = next at collapsed
    generalize (collapse e nodes).1.1 = result at collapsed ⊢
    cases collapsed with
    | kept => exact bare id a
    | literal integer value => simp
  · exact boolean
  · intro _ node _ id op l r _ _
    exact ⟨fun _ => trivial, fun _ => trivial⟩
  · exact fun _ => trivial

/-- What comes out of a round without proofs is settled. -/
theorem tidied_settled (e : Expr) (nodes : Nodes) (folds : Bool) :
    Settled (fun _ => True) folds (e.tidied nodes).1 := by
  have reduced := e.reduce_gives_reduced nodes
  rcases (e.reduce nodes).1.unwrap_run (e.reduce nodes).2 with ⟨bare, _⟩
  have result : (e.tidied nodes).1
      = (collapse ((e.reduce nodes).1.unwrap (e.reduce nodes).2).1
          ((e.reduce nodes).1.unwrap (e.reduce nodes).2).2).1.1 := rfl
  rw [result, bare]
  exact settled_of_collapse (reduced.inside (unparen_mem_nodes _)) (unparen_ne_paren _) _ _

end Expr

/-- The solver calls no term unsatisfiable; it may fail, give up, or answer otherwise. -/
def Solver.NeverRefutes {σ : Type} (solver : Solver σ) : Prop :=
  ∀ t strategy memory, (solver.check t strategy memory).1.result ≠ .ok .unsat

theorem Solver.unknown_never_refutes :
    (Solver.stateless fun _ _ => ⟨.ok .unknown, []⟩).NeverRefutes := by
  intro t strategy memory refuted
  cases refuted

section Silence

variable {σ : Type} {solver : Solver σ}

theorem Solver.NeverRefutes.answer_eq (never : solver.NeverRefutes) {oracle : Oracle σ}
    (same : oracle.solver = solver) (polarity : Polarity) (e : Expr) :
    oracle.answer polarity e = false := by
  unfold Oracle.answer
  cases e.encode with
  | error unsupported => rfl
  | ok t =>
      rw [Bool.eq_false_iff, same]
      intro refuted
      exact never _ _ _ (Reply.refutes_iff.mp refuted)

def Evidence.ofNeverRefutes (never : solver.NeverRefutes) : Evidence solver where
  admits _ _ proven := proven = false
  answered := fun _ polarity e same => never.answer_eq same polarity e
  shared := fun _ admitted => admitted
  exclusive := by
    intro e holds
    cases holds

/-- No answer has ever been yes, and since `base` there were only questions and notes. -/
structure Session.Barren (never : solver.NeverRefutes) (base session : Session σ) : Prop where
  trusts : (Evidence.ofNeverRefutes never).Trusts session.prover
  nodes : session.nodes = base.nodes
  options : session.options = base.options

namespace Session.Barren

open Condense.Pass

variable {never : solver.NeverRefutes}

theorem passive (never : solver.NeverRefutes) (base : Session σ) :
    Passive (fun _ => True) base.options.foldOperands (Barren never base) where
  noted := fun _ barren =>
    ⟨⟨barren.trusts.solver, barren.trusts.entries⟩, barren.nodes, barren.options⟩
  asked := by
    intro s e _ barren
    rcases Prover.verdict_concludes barren.trusts e with ⟨answer, prover, run, trusts, concludes⟩
    cases answer with
    | isTrue => cases concludes
    | isFalse => cases concludes.2
    | unknown =>
        exact ⟨_, verdict_of_unknown run, trusts, barren.nodes, barren.options⟩
  folds_eq := by
    intro s barren
    rw [barren.options]

theorem refl {session : Session σ}
    (trusts : (Evidence.ofNeverRefutes never).Trusts session.prover) :
    Barren never session session :=
  ⟨trusts, rfl, rfl⟩

theorem on_nodes {α : Type} {base session : Session σ} (barren : Barren never base session)
    (act : StateM Nodes α) :
    ∃ after, onNodes act session = (.ok (act base.nodes).1, after) ∧
      Barren never { base with nodes := (act base.nodes).2 } after := by
  refine ⟨{ session with nodes := (act base.nodes).2 }, ?_, ?_⟩
  · rw [← barren.nodes]
    rfl
  · exact ⟨barren.trusts, rfl, barren.options⟩

/-- Operands are put to the prover, if at all, to no avail. -/
theorem fold {base session : Session σ} (barren : Barren never base session) (e : Expr)
    (next : Expr → Pass σ Expr) :
    ∃ after, (if session.options.foldOperands then Pass.fold e >>= next else pure e >>= next)
      session = next e after ∧ Barren never base after := by
  cases session.options.foldOperands with
  | false => exact ⟨session, rfl, barren⟩
  | true =>
      have stays : (logic (Barren never base)).gives (Pass.fold e) (· = e) := by
        apply Expr.bottom_up_stays _ fun _ => rfl
        intro node _
        apply (passive never base).fold_node_stays
        intro id op l r _ _
        exact ⟨fun _ => trivial, fun _ => trivial⟩
      rcases run_of_gives stays barren with ⟨after, run, barren⟩
      exact ⟨after, ExceptT.bind_run_ok run, barren⟩

theorem evaluate {base session : Session σ} (barren : Barren never base session) (e : Expr) :
    ∃ after, Pass.evaluate e session = (.ok (collapse e base.nodes).1.1, after) ∧
      Barren never { base with nodes := (collapse e base.nodes).2 } after := by
  rcases barren.on_nodes (collapse e) with ⟨middle, run, barren⟩
  have stays := (passive never { base with nodes := (collapse e base.nodes).2 }).open_stays
    (e := (collapse e base.nodes).1.1) fun _ => trivial
  rcases run_of_gives stays barren with ⟨after, rest, barren⟩
  refine ⟨after, ?_, barren⟩
  unfold Pass.evaluate
  rw [ExceptT.bind_run_ok run]
  exact rest

theorem counted {base session : Session σ} (barren : Barren never base session)
    (visited iterations : Nat) : Barren never base { session with visited, iterations } :=
  ⟨barren.trusts, barren.nodes, barren.options⟩

/-- A round does to the expression what the identities do. -/
theorem round {base session : Session σ} (barren : Barren never base session)
    (condition : Expr) (stage : Stage) (e : Expr) :
    ∃ after, Pass.round condition stage e session = (.ok (e.tidied base.nodes).1, after) ∧
      Barren never { base with nodes := (e.tidied base.nodes).2 } after := by
  rcases (barren.counted session.visited (session.iterations + 1)).on_nodes e.reduce with
    ⟨s, reduced, barren⟩
  rcases barren.on_nodes (e.reduce base.nodes).1.unwrap with ⟨t, unwrapped, barren⟩
  rw [round_run, ExceptT.bind_run_ok reduced, ExceptT.bind_run_ok unwrapped,
    ExceptT.get_bind_run]
  rcases barren.fold ((e.reduce base.nodes).1.unwrap (e.reduce base.nodes).2).1 _ with
    ⟨u, folded, barren⟩
  rcases (passive never _).advance_stays condition stage .childrenSimplified u barren with
    ⟨_, v, advanced, barren, _⟩
  rcases barren.evaluate ((e.reduce base.nodes).1.unwrap (e.reduce base.nodes).2).1 with
    ⟨w, evaluated, barren⟩
  rcases (passive never _).advance_stays condition .childrenSimplified .conditionEvaluated w
    barren with ⟨_, after, advanced', barren, _⟩
  refine ⟨after, folded.trans ?_, barren⟩
  dsimp only
  rw [ExceptT.bind_run_ok advanced, ExceptT.bind_run_ok evaluated, ExceptT.bind_run_ok advanced']
  rfl

/-- A round over what a round has left returns it. -/
theorem round_again {base session : Session σ} (barren : Barren never base session)
    (condition : Expr) (stage : Stage) {e : Expr}
    (settled : Expr.Settled (fun _ => True) base.options.foldOperands e) :
    ∃ after, Pass.round condition stage e session = (.ok e, after) ∧ Barren never base after :=
  (passive never base).round_stays condition stage settled (barren.counted _ _)

/-- Two rounds are enough, and the first has done all the work. -/
theorem settling {base session : Session σ} (barren : Barren never base session)
    (condition : Expr) (stage : Stage) (e : Expr) :
    ∃ after, ∃ count ≤ 2,
      Settling condition count stage session e after (e.tidied base.nodes).1 ∧
      Barren never { base with nodes := (e.tidied base.nodes).2 } after := by
  rcases barren.round condition stage e with ⟨middle, once, barren⟩
  by_cases same : (e.tidied base.nodes).1.id = e.id
  · exact ⟨middle, 1, by decide, .last once same, barren⟩
  · have settled := e.tidied_settled base.nodes base.options.foldOperands
    rcases barren.round_again condition .conditionEvaluated settled with ⟨after, twice, barren⟩
    exact ⟨after, 2, by decide, .next once same (.last twice rfl), barren⟩

theorem concluded {base session : Session σ} (barren : Barren never base session)
    (condition result : Expr) :
    Barren never { base with nodes := (Nodes.inherit result.id condition.id base.nodes).2 }
      (session.concluded condition result) := by
  have nodes := session.concluded_nodes condition result
  rw [barren.nodes] at nodes
  by_cases same : result.id = condition.id
  · rw [Session.concluded, if_pos same] at nodes ⊢
    exact ⟨barren.trusts, nodes, barren.options⟩
  · rw [Session.concluded, if_neg same] at nodes ⊢
    exact ⟨⟨barren.trusts.solver, barren.trusts.entries⟩, nodes, barren.options⟩

end Session.Barren

/-- Without proofs, whatever the history of the session: where two rounds are allowed, a
simplification settles in two at the latest. It makes of the condition what the identities make
of it, which another round would return, and lets the result inherit from the condition. -/
theorem Expr.simplify_barren (never : solver.NeverRefutes) {session : Session σ}
    (trusts : (Evidence.ofNeverRefutes never).Trusts session.prover) (condition : Expr)
    (allowed : 2 ≤ session.options.maxIterations.toNat) :
    let tidied := condition.tidied session.nodes
    ∃ after, ∃ count ≤ 2, condition.SettlesIn count session tidied.1 after ∧
      after.nodes = (Nodes.inherit tidied.1.id condition.id tidied.2).2 ∧
      ∀ stage, ∃ later, Pass.round condition stage tidied.1 after = (.ok tidied.1, later) := by
  intro tidied
  have barren := (Session.Barren.refl trusts).counted (session.visited + 1) session.iterations
  rcases barren.settling condition .unvisited condition with
    ⟨last, count, few, settling, barren⟩
  have concluded := barren.concluded condition tidied.1
  refine ⟨_, count, few, .of_settling settling (few.trans allowed), concluded.nodes, ?_⟩
  intro stage
  rcases concluded.round_again condition stage (condition.tidied_settled _ _) with
    ⟨later, again, _⟩
  exact ⟨later, again⟩

/-- Whatever the expression, one pass of the identities leaves no node to which an identity
applies, so that a second pass returns the expression itself, whatever ids are unused then and
whatever origins are recorded, and changes neither. For a solver that never refutes a term and in
a session with any history, what a round returns is returned by the next; and where two rounds
are allowed, a simplification settles in at most two, with a result that a further round would
return. -/
theorem Expr.one_pass_suffices (solver : Solver σ) (memory : σ) (nodes : Nodes)
    (options : Options) (operations : List Operation) (e : Expr) :
    let session := (Session.start solver memory nodes options).after operations
    (∀ supply,
      let reduced := (e.reduce supply).1
      (∀ node ∈ reduced.nodes, ¬IsRedex node) ∧
        ∀ supply', reduced.reduce supply' = (reduced, supply')) ∧
    (solver.NeverRefutes →
      (∀ stage, ∃ result middle, Pass.round e stage e session = (.ok result, middle) ∧
        ∀ stage', ∃ after, Pass.round e stage' result middle = (.ok result, after)) ∧
      (2 ≤ session.options.maxIterations.toNat →
        ∃ result after, ∃ count ≤ 2, e.SettlesIn count session result after ∧
          ∀ stage, ∃ later, Pass.round e stage result after = (.ok result, later))) := by
  intro session
  constructor
  · intro supply reduced
    have idle : reduced.IsReduced := e.reduce_gives_reduced supply
    exact ⟨fun node inside => (idle node inside).irreducible, idle.reduce_run⟩
  intro never
  have trusts : (Evidence.ofNeverRefutes never).Trusts session.prover :=
    ((Evidence.ofNeverRefutes never).trusts_start memory nodes options).after_operations operations
  constructor
  · intro stage
    rcases (Session.Barren.refl trusts).round e stage e with ⟨middle, once, barren⟩
    refine ⟨_, middle, once, fun stage' => ?_⟩
    rcases barren.round_again e stage' (e.tidied_settled _ _) with ⟨after, twice, _⟩
    exact ⟨after, twice⟩
  · intro allowed
    rcases e.simplify_barren never trusts allowed with ⟨after, count, few, settled, _, again⟩
    exact ⟨_, after, count, few, settled, again⟩

/-- `f() && !(!(y && 5))` becomes `f() && y` in one pass: the literal goes first, and the negations
around a conjunction that has gone. -/
theorem Expr.one_pass_suffices_with_call :
    let solver : Solver Unit := .stateless fun _ _ => ⟨.ok .unknown, []⟩
    let y : Expr := .var 1 ⟨"y", .bool⟩
    let conjunction : Expr := .binary 3 .land y (.lit 2 ⟨5, .int 8 false⟩)
    let negated : Expr := .unary 6 .lnot (.paren 5 (.unary 4 .lnot conjunction))
    let condition : Expr := .binary 7 .land (.call 0 "f" .bool []) negated
    let session := (Session.start solver () ⟨2, {}⟩ {}).after [.condition y, .supply ⟨8, {}⟩]
    solver.NeverRefutes ∧ 2 ≤ session.options.maxIterations.toNat ∧
    (condition.reduce ⟨8, {}⟩).1.nodeCount = 3 ∧
    (∀ node ∈ (condition.reduce ⟨8, {}⟩).1.nodes, ¬IsRedex node) ∧
    ∃ result after, ∃ count ≤ 2, condition.SettlesIn count session result after ∧
      ∀ stage, ∃ later, Pass.round condition stage result after = (.ok result, later) := by
  intro solver y conjunction negated condition session
  have never : solver.NeverRefutes := Solver.unknown_never_refutes
  have allowed : 2 ≤ session.options.maxIterations.toNat := by decide +kernel
  rcases Expr.one_pass_suffices solver () ⟨2, {}⟩ {} [.condition y, .supply ⟨8, {}⟩] condition with
    ⟨reduced, rounds⟩
  exact ⟨never, allowed, by decide +kernel, (reduced ⟨8, {}⟩).1, (rounds never).2 allowed⟩

end Silence

end Condense
