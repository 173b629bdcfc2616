import Condense.Proofs.Reliability
import Condense.Proofs.Settling
import Condense.Proofs.Transitions

/-!
# Convergence of the rounds

Whatever the solver answers, everything the pass does to an expression leaves it as it is
or makes it lighter, and never gives it more nodes. Node counts alone would not do: a
double negation becomes a comparison with as many nodes. A round that returns another
expression has therefore made the condition lighter, so that a simplification settles in no more
rounds than the condition weighs, and a condition weighs at most twice its number of nodes.
-/

namespace Condense

set_option autoImplicit false

namespace Expr

structure Lighter (e r : Expr) : Prop where
  weight_lt : r.weight < e.weight
  node_count_le : r.nodeCount ≤ e.nodeCount

def Lightens (e r : Expr) : Prop :=
  r = e ∨ Lighter e r

section Weights

variable {e r r' : Expr}

theorem Lighter.ne (lighter : Lighter e r) : r ≠ e := by
  rintro rfl
  exact Nat.lt_irrefl _ lighter.weight_lt

theorem Lightens.weight_le (lightens : Lightens e r) : r.weight ≤ e.weight := by
  rcases lightens with rfl | lighter
  · exact Nat.le_refl _
  · exact lighter.weight_lt.le

theorem Lightens.node_count_le (lightens : Lightens e r) : r.nodeCount ≤ e.nodeCount := by
  rcases lightens with rfl | lighter
  · exact Nat.le_refl _
  · exact lighter.node_count_le

theorem Lighter.trans (first : Lighter e r) (second : Lightens r r') : Lighter e r' :=
  ⟨Nat.lt_of_le_of_lt second.weight_le first.weight_lt,
    second.node_count_le.trans first.node_count_le⟩

theorem Lightens.trans (first : Lightens e r) (second : Lightens r r') : Lightens e r' := by
  rcases first with rfl | lighter
  · exact second
  · exact .inr (lighter.trans second)

theorem Lightens.eq_of_cycle (first : Lightens e r) (second : Lightens r e) : r = e := by
  rcases first with same | lighter
  · exact same
  · exact absurd rfl (lighter.trans second).ne

end Weights

namespace Lighter

variable {e r : Expr}

theorem operands {S : Type} {s t : S} {as bs : List Expr}
    (through : Through (fun _ e _ r => Lightens e r) s as t bs) :
    bs = as ∨ weights bs < weights as ∧ (nodesOf bs).length ≤ (nodesOf as).length := by
  induction through with
  | nil s => exact .inl rfl
  | cons head tail ih =>
      have lighter := head.weight_le
      have smaller := head.node_count_le
      unfold nodeCount at smaller
      simp only [weights_cons, nodesOf, List.length_append]
      rcases ih with rfl | ⟨below, fewer⟩
      · rcases head with rfl | ⟨below, _⟩
        · exact .inl rfl
        · exact .inr ⟨by omega, by omega⟩
      · exact .inr ⟨by omega, by omega⟩

theorem of_operands {S : Type} {s t : S} {operands : List Expr} (id : NodeId)
    (through : Through (fun _ e _ r => Lightens e r) s e.children t operands)
    (differ : operands ≠ e.children) : Lighter e (e.rebuild id operands) := by
  obtain ⟨_, children⟩ := rebuild_cases id through.length_eq
  rcases Lighter.operands through with same | ⟨lighter, smaller⟩
  · exact absurd same differ
  · constructor
    · rw [weight_eq, weight_eq e, own_weight_rebuild, children]
      omega
    · rw [node_count_eq, node_count_eq e, children]
      omega

theorem inner (inside : r ∈ nodesOf e.children) : Lighter e r := by
  have own := e.own_weight_pos
  have below := weight_le_of_inside inside
  refine ⟨?_, (node_count_lt_of_inside inside).le⟩
  rw [e.weight_eq]
  omega

theorem literal (id : NodeId) (value : Bool) (heavier : 1 < e.weight) :
    Lighter e (.lit id (.ofBool value)) := by
  refine ⟨heavier, ?_⟩
  rw [node_count_eq, e.node_count_eq]
  exact Nat.le_add_left _ _

/-- Two negations weigh more than a comparison with zero. -/
theorem comparison {id id' least equal : NodeId} {a inner : Expr} {c : Literal}
    (negated : a.unparen = .unary id' .lnot inner) :
    Lighter (.unary id .lnot a) (.binary equal .ne inner (.lit least c)) := by
  have part := nodes_sublist a.unparen_mem_nodes
  have fewer : a.unparen.nodes.length ≤ a.nodes.length := part.length_le
  have lighter : a.unparen.weight ≤ a.weight :=
    (part.map ownWeight).sum_le_sum fun _ _ => Nat.zero_le _
  have own := (Expr.lit least c).own_weight_le
  rw [negated] at fewer lighter
  constructor
  · simp only [weight_eq, ownWeight, children, weights_cons, weights_nil, if_true]
      at own lighter ⊢
    omega
  · simp only [nodeCount, nodes, List.length_cons, List.length_append, List.length_nil]
      at fewer ⊢
    omega

end Lighter

/-- Everything the pass does leaves an expression or makes it lighter. -/
theorem Lightens.transition : Transition fun _ e _ r => Lightens e r where
  refl := fun _ _ => .inl rfl
  trans := trans
  rebuilt := by
    intro next next' e operands through _
    by_cases same : operands = e.children
    · rw [same, rebuild_self]
      exact .inl rfl
    · exact .inr (.of_operands e.id through same)
  renewed := fun through differ => .inr (.of_operands _ through differ)
  inner := fun inside _ => .inr (.inner inside)
  literal := fun value heavier _ _ => .inr (.literal _ value heavier)
  comparison := fun negated _ => .inr (.comparison negated)

end Expr

namespace Pass

variable {σ : Type} {s t : Session σ} {condition e r : Expr} {stage : Stage}

/-- A round that returns another id has made the expression lighter. -/
theorem weight_lt_of_round (run : round condition stage e s = (.ok r, t)) (moved : r.id ≠ e.id) :
    r.weight < e.weight := by
  rcases (Expr.Lightens.transition.round run).1 with rfl | lighter
  · exact absurd rfl moved
  · exact lighter.weight_lt

/-- As many rounds as an expression weighs are enough. -/
theorem rounds_settle {stage' : Stage} {limit : Nat} {settled : Bool}
    (enough : e.weight ≤ limit)
    (run : rounds condition stage e limit s = (.ok (r, stage', settled), t)) : settled = true := by
  induction limit generalizing stage e s with
  | zero =>
      have least := e.weight_pos
      omega
  | succ limit ih =>
      obtain ⟨e', u, once, ending | ⟨moved, more⟩⟩ := rounds_eq_ok run
      · exact ending.2.2.1
      · have lighter := weight_lt_of_round once moved
        exact ih (by omega) more

theorem Settling.count_le_weight {count : Nat} (settling : Settling condition count stage s e t r) :
    count ≤ e.weight := by
  induction settling with
  | last run same => exact Expr.weight_pos _
  | next run moved rest ih =>
      have lighter := weight_lt_of_round run moved
      omega

end Pass

/-- Whatever the solver and the history of the session: a round that returns another id
makes the expression lighter, and an expression weighs at most twice its number of nodes. A
simplification has a result with no more nodes; where as many rounds as that are allowed, its
rounds do not run out, but settle in no more of them than the condition weighs. -/
theorem Expr.simplify_converges {σ : Type} (solver : Solver σ) (memory : σ) (nodes : Nodes)
    (options : Options) (operations : List Operation) (condition : Expr) :
    let session := (Session.start solver memory nodes options).after operations
    (∀ e : Expr, e.weight ≤ 2 * e.nodeCount) ∧
    (∀ (stage : Stage) (e result : Expr) (before after : Session σ),
      Pass.round condition stage e before = (.ok result, after) → result.id ≠ e.id →
        result.weight < e.weight) ∧
    ∃ result after, condition.simplify session = (.ok result, after) ∧
      result.nodeCount ≤ condition.nodeCount ∧
      (2 * condition.nodeCount ≤ session.options.maxIterations.toNat →
        ∃ count ≤ condition.weight, condition.SettlesIn count session result after) := by
  intro session
  have sequenced := Session.after_sequenced solver memory nodes options operations
  rcases condition.simplify_succeeds sequenced with ⟨result, after, run, _⟩
  have smaller := (Expr.Lightens.transition.simplify run).1.node_count_le
  refine ⟨weight_le, fun _ _ _ _ _ => Pass.weight_lt_of_round, result, after, run, smaller, ?_⟩
  intro enough
  rcases Pass.simplify_ends run with ⟨stage, last, _, rounds, _⟩
  have settles := Pass.rounds_settle (condition.weight_le.trans enough) rounds
  rcases (settles_iff_settles_in run).mp settles with ⟨count, settled⟩
  rcases settled.rounds with ⟨_, settling, _⟩
  exact ⟨count, settling.count_le_weight, settled⟩

/-- `!!x` becomes `x != 0`, with as many nodes, and then stays, for a solver that never
knows. -/
theorem Expr.simplify_converges_double_negation :
    let solver : Solver Unit := .stateless fun _ _ => ⟨.ok .unknown, []⟩
    let x : Expr := .var 1 ⟨"x", .int 8 false⟩
    let condition : Expr := .unary 3 .lnot (.unary 2 .lnot x)
    let session := (Session.start solver () ⟨4, {}⟩ {}).after [.condition x]
    (∃ result after, Pass.round condition .unvisited condition session = (.ok result, after) ∧
      result.id = 5 ∧ result.weight < condition.weight) ∧
    2 * condition.nodeCount ≤ session.options.maxIterations.toNat ∧
    ∃ result after, condition.simplify session = (.ok result, after) ∧ result.nodeCount ≤ 3 ∧
      ∃ count ≤ 6, condition.SettlesIn count session result after := by
  intro solver x condition session
  rcases Expr.simplify_converges solver () ⟨4, {}⟩ {} [.condition x] condition with
    ⟨_, lighter, result, after, run, small, settles⟩
  have moved : (Pass.round condition .unvisited condition session).1.toOption.map Expr.id
      = some 5 := by decide +kernel
  refine ⟨?_, by decide +kernel, result, after, run, small, settles (by decide +kernel)⟩
  rcases run : Pass.round condition .unvisited condition session with ⟨fault | result, after⟩
  · rw [run] at moved
    cases moved
  · rw [run] at moved
    have renamed : result.id = 5 := Option.some.inj moved
    refine ⟨result, after, rfl, renamed, lighter _ _ _ _ _ run ?_⟩
    rw [renamed]
    decide

end Condense
