import Condense.Proofs.Outcomes

/-!
# Runs of the pass, taken apart

What a successful run of each part of the pass consists of: the sessions and expressions
between one act and the next, and what was asked of the prover on the way. For a traversal
this is a relation between an expression and its result that holds as soon as it holds at
every node whose operands have it. Nothing is said about whether a run succeeds.
-/

namespace Condense

set_option autoImplicit false

namespace Expr

/-- A condition that may be put to the prover: no literal, and without a call. -/
def IsOpen (e : Expr) : Prop :=
  e.asBool = none ∧ e.hasCall = false

def IsProvable (e : Expr) : Prop :=
  e.ty.isBool = true ∧ e.IsOpen

theorem not_is_open_iff {e : Expr} : ¬e.IsOpen ↔ (e.asBool.isSome || e.hasCall) = true := by
  unfold IsOpen
  cases e.asBool <;> cases e.hasCall <;> simp

theorem not_is_provable_iff {e : Expr} :
    ¬e.IsProvable ↔ (!e.ty.isBool || e.asBool.isSome || e.hasCall) = true := by
  rw [IsProvable, Bool.or_assoc, Bool.or_eq_true, ← not_is_open_iff]
  cases e.ty.isBool <;> simp

theorem IsOpen.ne_literal {e : Expr} (isOpen : e.IsOpen) (id : NodeId) (value : Bool) :
    .lit id (.ofBool value) ≠ e := by
  rintro rfl
  cases isOpen.1

/-- Whether the rounds of a simplification end because one of them changes nothing, and
not because they run out. -/
def settles {σ : Type} (condition : Expr) (session : Session σ) : Bool :=
  match (Pass.rounds condition .unvisited condition session.options.maxIterations.toNat
    { session with visited := session.visited + 1 }).1 with
  | .ok (_, _, settled) => settled
  | .error _ => false

end Expr

def Session.told {σ : Type} (s : Session σ) (journal : List Event) : Session σ :=
  { s with prover := { s.prover with oracle := { s.prover.oracle with journal } } }

theorem Nodes.inherit_of_eq {target source : NodeId} (same : target = source) (nodes : Nodes) :
    (inherit target source nodes).2 = nodes := by
  unfold inherit Provenance.inherit
  rw [if_pos same]

namespace Pass

variable {σ : Type} {α β : Type} {s t : Session σ}

theorem bind_eq_ok {act : Pass σ α} {next : α → Pass σ β} {b : β}
    (run : (act >>= next) s = (.ok b, t)) :
    ∃ a u, act s = (.ok a, u) ∧ next a u = (.ok b, t) := by
  rcases first : act s with ⟨fault | a, u⟩
  · rw [ExceptT.bind_run_error first] at run
    cases run
  · rw [ExceptT.bind_run_ok first] at run
    exact ⟨a, u, rfl, run⟩

theorem pure_eq_ok {a b : α} (run : (pure a : Pass σ α) s = (.ok b, t)) : b = a ∧ t = s := by
  have same : ((.ok a : Except Fault α), s) = (.ok b, t) := run
  cases same
  exact ⟨rfl, rfl⟩

theorem modify_eq_ok {change : Session σ → Session σ}
    (run : (modify change : Pass σ Unit) s = (.ok (), t)) : t = change s := by
  have same : ((.ok () : Except Fault Unit), change s) = (.ok (), t) := run
  cases same
  rfl

theorem on_nodes_bind (act : StateM Nodes α) (next : α → StateM Nodes β) :
    (onNodes (act >>= next) : Pass σ β) = onNodes act >>= fun a => onNodes (next a) := rfl

theorem on_nodes_eq_ok {act : StateM Nodes α} {a : α} (run : onNodes act s = (.ok a, t)) :
    a = (act s.nodes).1 ∧ t = { s with nodes := (act s.nodes).2 } := by
  have same : ((.ok (act s.nodes).1 : Except Fault α), { s with nodes := (act s.nodes).2 })
      = (.ok a, t) := run
  cases same
  exact ⟨rfl, rfl⟩

abbrev renew (id : NodeId) (changed : Bool) : Pass σ NodeId :=
  onNodes (Nodes.renew id changed)

theorem on_nodes_bottom_up_all {step : Expr → StateM Nodes Expr} {args : List Expr}
    (each : ∀ arg ∈ args, (onNodes (arg.bottomUp Nodes.renew step) : Pass σ Expr)
      = arg.bottomUp renew fun e => onNodes (step e)) :
    (onNodes (Expr.bottomUpAll Nodes.renew step args) : Pass σ (List Expr))
      = Expr.bottomUpAll renew (fun e => onNodes (step e)) args := by
  induction args with
  | nil => rfl
  | cons first rest ih =>
      rw [Expr.bottomUpAll, Expr.bottomUpAll, on_nodes_bind, each first (by simp)]
      congr 1
      funext first'
      rw [on_nodes_bind, ih fun arg member => each arg (by simp [member])]
      rfl

theorem on_nodes_bottom_up (step : Expr → StateM Nodes Expr) (e : Expr) :
    (onNodes (e.bottomUp Nodes.renew step) : Pass σ Expr)
      = e.bottomUp renew fun e => onNodes (step e) := by
  induction e using Expr.children_induction with
  | node e ih =>
      rw [Expr.bottom_up_eq fun _ => rfl, Expr.bottom_up_eq fun _ => rfl, on_nodes_bind,
        on_nodes_bottom_up_all ih]
      rfl

section Traversal

variable {step : Expr → Pass σ Expr} {related : Session σ → Expr → Session σ → Expr → Prop}

theorem through_of_bottom_up_all {args results : List Expr}
    (each : ∀ arg ∈ args, ∀ s r t, arg.bottomUp renew step s = (.ok r, t) → related s arg t r)
    (run : Expr.bottomUpAll renew step args s = (.ok results, t)) :
    Through related s args t results := by
  induction args generalizing s results with
  | nil =>
      obtain ⟨rfl, rfl⟩ := pure_eq_ok run
      exact .nil t
  | cons first rest ih =>
      obtain ⟨first', u, head, run⟩ := bind_eq_ok run
      obtain ⟨rest', v, tail, run⟩ := bind_eq_ok run
      obtain ⟨rfl, rfl⟩ := pure_eq_ok run
      exact .cons (each first (by simp) _ _ _ head)
        (ih (fun arg member => each arg (by simp [member])) tail)

/-- A relation holds for a traversal if it holds for every node of which it holds for the
operands. -/
theorem related_of_bottom_up
    (node : ∀ {s u v t : Session σ} {e r : Expr} {operands : List Expr} {id : NodeId},
      Through related s e.children u operands →
        renew e.id (operands.map Expr.id != e.children.map Expr.id) u = (.ok id, v) →
          step (e.rebuild id operands) v = (.ok r, t) → related s e t r)
    {e r : Expr} (run : e.bottomUp renew step s = (.ok r, t)) : related s e t r := by
  induction e using Expr.children_induction generalizing s r t with
  | node e ih =>
      rw [Expr.bottom_up_eq fun _ => rfl] at run
      obtain ⟨operands, u, below, run⟩ := bind_eq_ok run
      obtain ⟨id, v, renewed, run⟩ := bind_eq_ok run
      exact node (through_of_bottom_up_all (fun arg member s r t => ih arg member) below)
        renewed run

end Traversal

section Acts

variable {e r : Expr}

theorem on_prover_eq_ok {act : ExceptT Fault (StateM (Prover σ)) α} {a : α}
    (run : onProver act s = (.ok a, t)) :
    ∃ prover, act s.prover = (.ok a, prover) ∧ t = { s with prover } := by
  have steps : onProver act s = ((act s.prover).1, { s with prover := (act s.prover).2 }) := rfl
  rw [steps] at run
  obtain ⟨first, second⟩ := Prod.mk.inj run
  exact ⟨(act s.prover).2, Prod.ext first rfl, second.symm⟩

theorem note_eq_ok {event : Event} (run : note event s = (.ok (), t)) :
    ∃ journal, t = s.told journal := by
  obtain ⟨prover, told, rfl⟩ := on_prover_eq_ok run
  cases told
  exact ⟨_, rfl⟩

/-- A verdict is the prover's, with a note in the journal when it decides. -/
theorem verdict_eq_ok {answer : Verdict} (run : verdict e s = (.ok answer, t)) :
    ∃ prover journal, Prover.verdict e s.prover = (.ok answer, prover) ∧
      t = Session.told { s with prover } journal := by
  obtain ⟨answer', u, asked, run⟩ := bind_eq_ok run
  obtain ⟨prover, known, rfl⟩ := on_prover_eq_ok asked
  by_cases decides : answer' ≠ .unknown
  · rw [if_pos decides] at run
    obtain ⟨_, v, noted, run⟩ := bind_eq_ok run
    obtain ⟨journal, rfl⟩ := note_eq_ok noted
    obtain ⟨rfl, rfl⟩ := pure_eq_ok run
    exact ⟨prover, journal, known, rfl⟩
  · rw [if_neg decides] at run
    obtain ⟨rfl, rfl⟩ := pure_eq_ok run
    exact ⟨prover, prover.oracle.journal, known, rfl⟩

/-- An expression stays without a verdict, or a literal is made to take its place. -/
theorem decided_eq_ok {result : Option Expr} (run : decided? e s = (.ok result, t)) :
    result = none ∧ verdict e s = (.ok .unknown, t) ∨
      ∃ answer u value, verdict e s = (.ok answer, u) ∧
        result = some (Nodes.literal value e.id s.nodes).1 ∧
        t = { u with nodes := (Nodes.literal value e.id s.nodes).2 } := by
  obtain ⟨answer, u, asked, run⟩ := bind_eq_ok run
  have supply : u.nodes = s.nodes := by
    obtain ⟨prover, journal, _, rfl⟩ := verdict_eq_ok asked
    rfl
  have made {value : Bool}
      (run : (do return some (← onNodes (Nodes.literal value e.id)) : Pass σ (Option Expr)) u
        = (.ok result, t)) :
      result = some (Nodes.literal value e.id s.nodes).1 ∧
        t = { u with nodes := (Nodes.literal value e.id s.nodes).2 } := by
    obtain ⟨literal, v, made, run⟩ := bind_eq_ok run
    obtain ⟨rfl, rfl⟩ := on_nodes_eq_ok made
    obtain ⟨rfl, rfl⟩ := pure_eq_ok run
    rw [supply]
    exact ⟨rfl, rfl⟩
  cases answer with
  | isTrue => exact .inr ⟨_, u, true, asked, made run⟩
  | isFalse => exact .inr ⟨_, u, false, asked, made run⟩
  | unknown =>
      obtain ⟨rfl, rfl⟩ := pure_eq_ok run
      exact .inl ⟨rfl, asked⟩

/-- What becomes of an expression that is put to the prover if it is `fit` for it. -/
inductive Tried (fit : Prop) (s : Session σ) (e : Expr) : Session σ → Expr → Prop where
  | skipped (unfit : ¬fit) : Tried fit s e s e
  | unknown {t : Session σ} (fits : fit) (asked : verdict e s = (.ok .unknown, t)) :
      Tried fit s e t e
  | decided {answer : Verdict} {u : Session σ} (fits : fit) (asked : verdict e s = (.ok answer, u))
      (value : Bool) : Tried fit s e { u with nodes := (Nodes.literal value e.id s.nodes).2 }
        (.lit s.nodes.next (.ofBool value))

theorem Tried.stays {fit : Prop} (isOpen : fit → e.IsOpen) (tried : Tried fit s e t r)
    (same : r = e) : ¬fit ∧ t = s ∨ fit ∧ verdict e s = (.ok .unknown, t) := by
  cases tried with
  | skipped unfit => exact .inl ⟨unfit, rfl⟩
  | unknown fits asked => exact .inr ⟨fits, asked⟩
  | decided fits asked value => exact absurd same ((isOpen fits).ne_literal _ value)

theorem operand_eq_ok {proven : Bool} (run : operand e s = (.ok (r, proven), t)) :
    Tried e.IsProvable s e t r ∧ (proven = true ∧ r ≠ e ∨ proven = false ∧ r = e) := by
  unfold operand at run
  by_cases fits : e.IsProvable
  · rw [if_neg fun unfit => Expr.not_is_provable_iff.mpr unfit fits] at run
    obtain ⟨result, u, asked, run⟩ := bind_eq_ok run
    rcases decided_eq_ok asked with ⟨rfl, unknown⟩ | ⟨answer, v, value, known, rfl, rfl⟩
    · obtain ⟨same, rfl⟩ := pure_eq_ok run
      cases same
      exact ⟨.unknown fits unknown, .inr ⟨rfl, rfl⟩⟩
    · obtain ⟨same, rfl⟩ := pure_eq_ok run
      cases same
      exact ⟨.decided fits known value, .inl ⟨rfl, fits.2.ne_literal _ value⟩⟩
  · rw [if_pos (Expr.not_is_provable_iff.mp fits)] at run
    obtain ⟨same, rfl⟩ := pure_eq_ok run
    cases same
    exact ⟨.skipped fits, .inr ⟨rfl, rfl⟩⟩

inductive Folded (s : Session σ) : Expr → Session σ → Expr → Prop where
  | other {e : Expr} (plain : ∀ id op l r, e = .binary id op l r → op.isLogical = false) :
      Folded s e s e
  | unproven {u t : Session σ} {id : NodeId} {op : BinaryOp} {l r : Expr}
      (logical : op.isLogical = true) (left : Tried l.IsProvable s l u l)
      (right : Tried r.IsProvable u r t r) :
      Folded s (.binary id op l r) t (.binary id op l r)
  | proven {u v t : Session σ} {id : NodeId} {op : BinaryOp} {l r l' r' result : Expr}
      (logical : op.isLogical = true) (left : Tried l.IsProvable s l u l')
      (right : Tried r.IsProvable u r v r') (changed : [l', r'] ≠ [l, r])
      (reduced : onNodes (Identities.atNode (.binary v.nodes.next op l' r'))
        { v with nodes := (Nodes.renew id true v.nodes).2 } = (.ok result, t)) :
      Folded s (.binary id op l r) t result

theorem fold_node_eq_ok (run : foldNode e s = (.ok r, t)) : Folded s e t r := by
  have kept (plain : ∀ id op l r, e = .binary id op l r → op.isLogical = false)
      (run : (pure e : Pass σ Expr) s = (.ok r, t)) : Folded s e t r := by
    obtain ⟨rfl, rfl⟩ := pure_eq_ok run
    exact .other plain
  cases e with
  | binary id op left right =>
      rw [foldNode] at run
      cases logical : op.isLogical with
      | false =>
          rw [logical, Bool.not_false, if_pos rfl] at run
          apply kept _ run
          intro _ _ _ _ same
          cases same
          exact logical
      | true =>
          rw [logical, if_neg (by decide)] at run
          obtain ⟨⟨left', proven⟩, u, first, run⟩ := bind_eq_ok run
          obtain ⟨⟨right', proven'⟩, v, second, run⟩ := bind_eq_ok run
          obtain ⟨tried, changed⟩ := operand_eq_ok first
          obtain ⟨tried', changed'⟩ := operand_eq_ok second
          dsimp only at run
          -- The node is made anew exactly if one of the operands has changed.
          have renewed (noted : (proven || proven') = true)
              (differ : [left', right'] ≠ [left, right]) :
              Folded s (.binary id op left right) t r := by
            rw [if_pos noted] at run
            obtain ⟨id', w, fresh, run⟩ := bind_eq_ok run
            obtain ⟨rfl, rfl⟩ := on_nodes_eq_ok fresh
            exact .proven logical tried tried' differ run
          rcases changed with ⟨rfl, differs⟩ | ⟨rfl, rfl⟩
          · exact renewed rfl (by simp [differs])
          rcases changed' with ⟨rfl, differs⟩ | ⟨rfl, rfl⟩
          · exact renewed rfl (by simp [differs])
          obtain ⟨rfl, rfl⟩ := pure_eq_ok run
          exact .unproven logical tried tried'
  | _ => exact kept (by intro _ _ _ _ same; cases same) run

theorem evaluate_eq_ok (run : evaluate e s = (.ok r, t)) :
    Tried (Identities.collapse e s.nodes).1.1.IsOpen
      { s with nodes := (Identities.collapse e s.nodes).2 }
      (Identities.collapse e s.nodes).1.1 t r := by
  obtain ⟨⟨e', changed⟩, u, collapsed, run⟩ := bind_eq_ok run
  obtain ⟨same, rfl⟩ := on_nodes_eq_ok collapsed
  rw [← same]
  dsimp only at run ⊢
  by_cases fits : e'.IsOpen
  · rw [if_neg fun unfit => Expr.not_is_open_iff.mpr unfit fits] at run
    obtain ⟨result, v, asked, run⟩ := bind_eq_ok run
    obtain ⟨rfl, rfl⟩ := pure_eq_ok run
    rcases decided_eq_ok asked with ⟨rfl, unknown⟩ | ⟨answer, w, value, known, rfl, rfl⟩
    · exact .unknown fits unknown
    · exact .decided fits known value
  · rw [if_pos (Expr.not_is_open_iff.mp fits)] at run
    obtain ⟨rfl, rfl⟩ := pure_eq_ok run
    exact .skipped fits

theorem advance_eq_ok {condition : Expr} {before after : Stage}
    (run : advance condition before after s = (.ok (), t)) :
    ∃ journal, t = s.told journal := by
  unfold advance at run
  split at run
  · obtain ⟨_, rfl⟩ := pure_eq_ok run
    exact ⟨t.prover.oracle.journal, rfl⟩
  · exact note_eq_ok run

theorem round_run (condition : Expr) (stage : Stage) (e : Expr) (s : Session σ) :
    round condition stage e s = (do
      let reduced ← onNodes e.reduce
      let bare ← onNodes reduced.unwrap
      let folded ← if (← get).options.foldOperands then fold bare else pure bare
      advance condition stage .childrenSimplified
      let evaluated ← evaluate folded
      advance condition .childrenSimplified .conditionEvaluated
      return evaluated : Pass σ Expr) { s with iterations := s.iterations + 1 } := rfl

/-- A round is one act after another; between them only the journal grows. -/
theorem round_eq_ok {condition : Expr} {stage : Stage}
    (run : round condition stage e s = (.ok r, t)) :
    ∃ (reduced bare folded : Expr) (u v w x : Session σ) (journal journal' : List Event),
      onNodes e.reduce { s with iterations := s.iterations + 1 } = (.ok reduced, u) ∧
      onNodes reduced.unwrap u = (.ok bare, v) ∧
      (v.options.foldOperands = true ∧ fold bare v = (.ok folded, w) ∨
        v.options.foldOperands = false ∧ folded = bare ∧ w = v) ∧
      evaluate folded (w.told journal) = (.ok r, x) ∧ t = x.told journal' := by
  have finish {folded : Expr} {w : Session σ}
      (run : (do
        advance condition stage .childrenSimplified
        let evaluated ← evaluate folded
        advance condition .childrenSimplified .conditionEvaluated
        return evaluated : Pass σ Expr) w = (.ok r, t)) :
      ∃ (x : Session σ) (journal journal' : List Event),
        evaluate folded (w.told journal) = (.ok r, x) ∧ t = x.told journal' := by
    obtain ⟨_, _, moved, run⟩ := bind_eq_ok run
    obtain ⟨journal, rfl⟩ := advance_eq_ok moved
    obtain ⟨evaluated, x, proven, run⟩ := bind_eq_ok run
    obtain ⟨_, _, moved, run⟩ := bind_eq_ok run
    obtain ⟨journal', rfl⟩ := advance_eq_ok moved
    obtain ⟨rfl, rfl⟩ := pure_eq_ok run
    exact ⟨x, journal, journal', proven, rfl⟩
  rw [round_run] at run
  obtain ⟨reduced, u, first, run⟩ := bind_eq_ok run
  obtain ⟨bare, v, second, run⟩ := bind_eq_ok run
  rw [ExceptT.get_bind_run] at run
  dsimp only at run
  cases folds : v.options.foldOperands with
  | true =>
      rw [folds, if_pos rfl] at run
      obtain ⟨folded, w, third, run⟩ := bind_eq_ok run
      obtain ⟨x, journal, journal', rest⟩ := finish run
      exact ⟨reduced, bare, folded, u, v, w, x, journal, journal', first, second,
        .inl ⟨folds, third⟩, rest⟩
  | false =>
      rw [folds, if_neg (by decide)] at run
      obtain ⟨folded, w, third, run⟩ := bind_eq_ok run
      obtain ⟨rfl, rfl⟩ := pure_eq_ok third
      obtain ⟨x, journal, journal', rest⟩ := finish run
      exact ⟨reduced, folded, folded, u, w, w, x, journal, journal', first, second,
        .inr ⟨folds, rfl, rfl⟩, rest⟩

/-- The first of several rounds is the last, or others follow it. -/
theorem rounds_eq_ok {condition : Expr} {stage stage' : Stage} {limit : Nat} {settled : Bool}
    (run : rounds condition stage e (limit + 1) s = (.ok (r, stage', settled), t)) :
    ∃ e' u, round condition stage e s = (.ok e', u) ∧
      (e'.id = e.id ∧ r = e' ∧ settled = true ∧ t = u ∨
        e'.id ≠ e.id ∧
          rounds condition .conditionEvaluated e' limit u = (.ok (r, stage', settled), t)) := by
  rw [rounds] at run
  obtain ⟨e', u, once, run⟩ := bind_eq_ok run
  refine ⟨e', u, once, ?_⟩
  by_cases same : e'.id = e.id
  · rw [if_pos same] at run
    obtain ⟨result, rfl⟩ := pure_eq_ok run
    cases result
    exact .inl ⟨same, rfl, rfl, rfl⟩
  · rw [if_neg same] at run
    exact .inr ⟨same, run⟩

theorem simplify_run (condition : Expr) (s : Session σ) :
    condition.simplify s = (do
      let (result, stage, settled) ← rounds condition .unvisited condition
        s.options.maxIterations.toNat
      if !settled then note (.gaveUp condition s.options.maxIterations.toNat result)
      if result.id ≠ condition.id then
        onNodes (Nodes.inherit result.id condition.id)
        modify fun session => { session with changed := session.changed + 1 }
        advance condition stage .settled
        note (.replaced condition result)
      return result : Pass σ Expr) { s with visited := s.visited + 1 } := rfl

/-- A simplification is its rounds. After them an expression with a new id takes over the
origins of the condition and is counted; nothing else but the journal changes. -/
theorem simplify_ends {condition : Expr} (run : condition.simplify s = (.ok r, t)) :
    ∃ (stage : Stage) (u : Session σ) (journal : List Event),
      rounds condition .unvisited condition s.options.maxIterations.toNat
        { s with visited := s.visited + 1 } = (.ok (r, stage, condition.settles s), u) ∧
      t = { u.told journal with
        nodes := (Nodes.inherit r.id condition.id u.nodes).2
        changed := u.changed + if r.id = condition.id then 0 else 1 } := by
  rw [simplify_run] at run
  obtain ⟨⟨result, stage, settled⟩, u, rounds, run⟩ := bind_eq_ok run
  have finish {v : Session σ} (run : (do
      if result.id ≠ condition.id then
        onNodes (Nodes.inherit result.id condition.id)
        modify fun session => { session with changed := session.changed + 1 }
        advance condition stage .settled
        note (.replaced condition result)
      return result : Pass σ Expr) v = (.ok r, t)) :
      r = result ∧ ∃ journal, t = { v.told journal with
        nodes := (Nodes.inherit result.id condition.id v.nodes).2
        changed := v.changed + if result.id = condition.id then 0 else 1 } := by
    by_cases same : result.id = condition.id
    · rw [if_neg (not_not.mpr same)] at run
      obtain ⟨rfl, rfl⟩ := pure_eq_ok run
      rw [Nodes.inherit_of_eq same, if_pos same]
      exact ⟨rfl, t.prover.oracle.journal, rfl⟩
    · rw [if_pos same] at run
      obtain ⟨_, w, inherited, run⟩ := bind_eq_ok run
      obtain ⟨_, rfl⟩ := on_nodes_eq_ok inherited
      obtain ⟨_, w, counted, run⟩ := bind_eq_ok run
      obtain rfl := modify_eq_ok counted
      obtain ⟨_, w, moved, run⟩ := bind_eq_ok run
      obtain ⟨journal, rfl⟩ := advance_eq_ok moved
      obtain ⟨_, w, noted, run⟩ := bind_eq_ok run
      obtain ⟨journal', rfl⟩ := note_eq_ok noted
      obtain ⟨rfl, rfl⟩ := pure_eq_ok run
      rw [if_neg same]
      exact ⟨rfl, journal', rfl⟩
  -- The rounds were run once, so what they say of their end is what `settles` says.
  have ending : condition.settles s = settled := by
    unfold Expr.settles
    rw [rounds]
  rw [ending]
  cases settled with
  | true =>
      obtain ⟨rfl, journal, rfl⟩ := finish run
      exact ⟨stage, u, journal, rounds, rfl⟩
  | false =>
      obtain ⟨_, v, noted, run⟩ := bind_eq_ok run
      obtain ⟨journal, rfl⟩ := note_eq_ok noted
      obtain ⟨rfl, journal', rfl⟩ := finish run
      exact ⟨stage, u, journal', rounds, rfl⟩

/-- What follows the rounds changes no expression and makes no node. -/
theorem simplify_eq_ok {condition : Expr} (run : condition.simplify s = (.ok r, t)) :
    ∃ (stage : Stage) (u : Session σ) (oracle : Oracle σ) (provenance : Provenance)
      (changed : Nat),
      rounds condition .unvisited condition s.options.maxIterations.toNat
        { s with visited := s.visited + 1 } = (.ok (r, stage, condition.settles s), u) ∧
      t = { u with
        prover := { u.prover with oracle }
        nodes := { u.nodes with provenance }
        changed } := by
  obtain ⟨stage, u, journal, rounds, rfl⟩ := simplify_ends run
  exact ⟨stage, u, _, _, _, rounds, rfl⟩

end Acts

end Pass

end Condense
