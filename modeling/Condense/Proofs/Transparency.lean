import Condense.Proofs.Lockstep
import Condense.Proofs.Sessions

/-!
# What was simplified before does not show

With a solver whose answer depends on the term alone, a verdict depends on the condition
alone, whether it comes from the cache or from the oracle. A session with any history and a
new one therefore simplify a condition in lockstep: after every step they hold the same
expression up to the ids of new nodes, and they stop after the same number of rounds.
-/

namespace Condense

set_option autoImplicit false

namespace Identities

variable {first second : NodeId}

def AlikeNoted (first second : NodeId) (left right : Expr × Bool) : Prop :=
  Alike first second left.1 right.1 ∧ left.2 = right.2

theorem AlikeNoted.bind {m : Type → Type} [Monad m] (logic : Lockstep m) {γ δ : Type}
    {left right : m (Expr × Bool)} {next : Expr × Bool → m γ} {next' : Expr × Bool → m δ}
    {wanted : γ → δ → Prop} (agreed : logic.agree left right (AlikeNoted first second))
    (rest : ∀ a b noted, Alike first second a b →
      logic.agree (next (a, noted)) (next' (b, noted)) wanted) :
    logic.agree (left >>= next) (right >>= next') wanted := by
  apply logic.bind agreed
  intro found found' noted
  rcases found with ⟨a, changed⟩
  rcases found' with ⟨b, changed'⟩
  rcases noted with ⟨alike, same⟩
  dsimp only at same
  rw [same]
  exact rest a b changed' alike

theorem collapse_agree {a b : Expr} (alike : Alike first second a b) :
    (Nodes.lockstep first second).agree (collapse a) (collapse b)
      (AlikeNoted first second) := by
  have kept : (Nodes.lockstep first second).agree (pure (a, false)) (pure (b, false))
      (AlikeNoted first second) := (Nodes.lockstep first second).pure ⟨alike, rfl⟩
  cases alike with
  | @lit i j c same =>
      rw [collapse, collapse]
      split
      · exact kept
      · apply (Nodes.lockstep first second).bind (Nodes.literal_agree _)
        intro l m made
        exact (Nodes.lockstep first second).pure ⟨made, rfl⟩
  | _ => exact kept

theorem negation_agree {i j : NodeId} (same : Corresponds first second i j) {a b : Expr}
    (alike : Alike first second a b) :
    (Nodes.lockstep first second).agree (negation i a) (negation j b)
      (Alike first second) := by
  unfold negation
  rw [alike.as_bool_eq]
  cases a.asBool with
  | some value =>
      apply (Nodes.lockstep first second).bind (Nodes.literal_agree _)
      intro l m made
      exact Nodes.replace_agree made
  | none =>
      dsimp only
      have kept : (Nodes.lockstep first second).agree (pure (.unary i .lnot a))
          (pure (.unary j .lnot b)) (Alike first second) :=
        (Nodes.lockstep first second).pure (.unary same alike)
      have bare := alike.unparen
      revert bare
      generalize a.unparen = a', b.unparen = b'
      intro bare
      cases bare with
      | @unary i' j' op x y same' operand =>
          cases op with
          | lnot =>
              dsimp only
              apply (Nodes.lockstep first second).bind Nodes.inherit_agree
              intro _ _ _
              rw [operand.ty_eq]
              split
              · exact Nodes.replace_agree operand
              apply (Nodes.lockstep first second).bind Nodes.fresh_agree
              intro z z' zero
              apply (Nodes.lockstep first second).bind Nodes.fresh_agree
              intro n n' ne
              apply (Nodes.lockstep first second).bind
                (Nodes.replace_agree (.binary ne operand (.lit zero)))
              intro _ _ made
              exact Nodes.replace_agree made
          | _ => exact kept
      | _ => exact kept

theorem junction_agree {i j : NodeId} (same : Corresponds first second i j) (op : BinaryOp)
    (absorbing : Bool) {l l' r r' : Expr} (left : Alike first second l l')
    (right : Alike first second r r') :
    (Nodes.lockstep first second).agree (junction i op absorbing l r)
      (junction j op absorbing l' r') (Alike first second) := by
  unfold junction
  apply AlikeNoted.bind (Nodes.lockstep first second) (collapse_agree left)
  intro l l' changed left
  apply AlikeNoted.bind (Nodes.lockstep first second) (collapse_agree right)
  intro r r' changed' right
  dsimp only
  rw [left.as_bool_eq, right.as_bool_eq, left.has_call_eq, left.ty_eq, right.ty_eq]
  split
  · exact Nodes.replace_agree left
  split
  · exact Nodes.replace_agree right
  split
  · exact Nodes.replace_agree right
  split
  · exact Nodes.replace_agree left
  · apply (Nodes.lockstep first second).bind (Nodes.renew_agree same _)
    intro i' j' same'
    exact (Nodes.lockstep first second).pure (.binary same' left right)

theorem at_node_agree (a b : Expr) (alike : Alike first second a b) :
    (Nodes.lockstep first second).agree (atNode a) (atNode b) (Alike first second) := by
  have kept : (Nodes.lockstep first second).agree (pure a) (pure b) (Alike first second) :=
    (Nodes.lockstep first second).pure alike
  cases alike with
  | paren same inner =>
      rw [atNode, atNode, inner.is_atomic_eq]
      split
      · exact Nodes.replace_agree inner
      · exact kept
  | cast same operand =>
      rw [atNode, atNode, operand.ty_eq]
      split
      · exact Nodes.replace_agree operand
      · exact kept
  | @unary i j op a b same operand =>
      cases op with
      | lnot =>
          rw [atNode, atNode]
          apply AlikeNoted.bind (Nodes.lockstep first second) (collapse_agree operand)
          intro x y changed collapsed
          exact negation_agree same collapsed
      | _ => exact kept
  | @binary i j op l l' r r' same left right =>
      cases op with
      | land => exact junction_agree same .land false left right
      | lor => exact junction_agree same .lor true left right
      | _ => exact kept
  | _ => exact kept

end Identities

namespace Expr

variable {first second : NodeId}

theorem reduce_agree {a b : Expr} (alike : Alike first second a b) :
    (Nodes.lockstep first second).agree a.reduce b.reduce (Alike first second) :=
  bottom_up_agree (Nodes.lockstep first second)
    (fun _ _ changed same => Nodes.renew_agree same changed) Identities.at_node_agree alike

theorem unwrap_agree {a b : Expr} (alike : Alike first second a b) :
    (Nodes.lockstep first second).agree a.unwrap b.unwrap (Alike first second) := by
  induction a generalizing b with
  | paren id a ih =>
      cases alike with
      | paren same inner =>
          rw [unwrap, unwrap]
          apply (Nodes.lockstep first second).bind Nodes.inherit_agree
          intro _ _ _
          exact ih inner
  | _ =>
      have kept := alike
      cases alike
      exact (Nodes.lockstep first second).pure kept

end Expr

/-- The solver's answer depends on the term alone. -/
def Solver.Answers {σ : Type} (solver : Solver σ) (answer : Term → Except Fault Outcome) :
    Prop :=
  ∀ t strategy memory, (solver.check t strategy memory).1.result = answer t

namespace Evidence

variable {σ : Type} {solver : Solver σ}

def IsDetermined (evidence : Evidence solver) : Prop :=
  ∀ polarity e proven proven', evidence.admits polarity e proven →
    evidence.admits polarity e proven' → proven = proven'

def answerOf (answer : Term → Except Fault Outcome) (polarity : Polarity) (e : Expr) : Bool :=
  match e.encode with
  | .ok t => Reply.refutes { result := answer (polarity.target t) }
  | .error _ => false

theorem answer_of_is_equiv {a b : Expr} (equivalent : a.isEquiv b = true)
    (answer : Term → Except Fault Outcome) (polarity : Polarity) :
    answerOf answer polarity a = answerOf answer polarity b :=
  Oracle.answer_of_is_equiv equivalent
    { solver := .stateless fun t _ => { result := answer t }, memory := () } polarity

def ofAnswers {answer : Term → Except Fault Outcome} (answers : solver.Answers answer) :
    Evidence solver where
  admits polarity e proven := proven = answerOf answer polarity e
  answered := by
    intro oracle polarity e same
    unfold Oracle.answer answerOf
    cases e.encode with
    | error unsupported => rfl
    | ok t =>
        dsimp only
        rw [Reply.refutes, Reply.refutes, same, answers]
  shared := by
    intro a b polarity proven equivalent admitted
    rw [admitted, answer_of_is_equiv equivalent]
  exclusive := by
    intro e always otherwise _
    rw [← always] at otherwise
    cases otherwise

theorem of_answers_is_determined {answer : Term → Except Fault Outcome}
    (answers : solver.Answers answer) : (ofAnswers answers).IsDetermined :=
  fun _ _ _ _ admitted admitted' => admitted.trans admitted'.symm

theorem IsDetermined.verdict_eq {evidence : Evidence solver} (determined : evidence.IsDetermined)
    {a b : Expr} (same : b.canon = a.canon) {verdict verdict' : Verdict}
    (concludes : evidence.Concludes a verdict) (concludes' : evidence.Concludes b verdict') :
    verdict = verdict' := by
  have equivalent : b.isEquiv a = true := (Expr.is_equiv_iff_canon b a).mpr same
  have one (polarity : Polarity) (proven proven' : Bool)
      (admitted : evidence.admits polarity a proven)
      (admitted' : evidence.admits polarity b proven') : proven = proven' :=
    determined polarity a proven proven' admitted (evidence.shared equivalent admitted')
  cases verdict with
  | isTrue =>
      cases verdict' with
      | isTrue => rfl
      | isFalse => exact absurd (one _ _ _ concludes concludes'.1) (by decide)
      | unknown => exact absurd (one _ _ _ concludes concludes'.1) (by decide)
  | isFalse =>
      cases verdict' with
      | isTrue => exact absurd (one _ _ _ concludes.1 concludes') (by decide)
      | isFalse => rfl
      | unknown => exact absurd (one _ _ _ concludes.2 concludes'.2) (by decide)
  | unknown =>
      cases verdict' with
      | isTrue => exact absurd (one _ _ _ concludes.1 concludes') (by decide)
      | isFalse => exact absurd (one _ _ _ concludes.2 concludes'.2) (by decide)
      | unknown => rfl

end Evidence

/-- Two sessions, come from `start` and `start'`, that have done the same work since. -/
structure Session.InStep {σ : Type} {solver : Solver σ} (evidence : Evidence solver)
    (start start' left right : Session σ) : Prop where
  nodes : Nodes.Paired start.nodes.next start'.nodes.next left.nodes right.nodes
  options : right.options = left.options
  trusts : evidence.Trusts left.prover
  trusts' : evidence.Trusts right.prover
  rounds : ∃ count, left.iterations = start.iterations + count ∧
    right.iterations = start'.iterations + count

namespace Pass

variable {σ : Type} {solver : Solver σ} {evidence : Evidence solver} {start start' : Session σ}

/-- Both acts succeed wherever the sessions are in step, and keep them so. -/
def Agree (evidence : Evidence solver) (start start' : Session σ) {α β : Type}
    (left : Pass σ α) (right : Pass σ β) (related : α → β → Prop) : Prop :=
  ∀ session session', Session.InStep evidence start start' session session' →
    ∃ a b after after', left session = (.ok a, after) ∧ right session' = (.ok b, after') ∧
      Session.InStep evidence start start' after after' ∧ related a b

def lockstep (evidence : Evidence solver) (start start' : Session σ) : Lockstep (Pass σ) where
  agree := Agree evidence start start'
  pure := by
    intro α β a b related holds session session' inStep
    exact ⟨a, b, session, session', rfl, rfl, inStep, holds⟩
  bind := by
    intro α β γ δ left right next next' related wanted agreed rest session session' inStep
    obtain ⟨a, b, after, after', run, run', inStep, holds⟩ := agreed session session' inStep
    rw [ExceptT.bind_run_ok run, ExceptT.bind_run_ok run']
    exact rest a b holds after after' inStep

abbrev Same (start start' : Session σ) : Expr → Expr → Prop :=
  Alike start.nodes.next start'.nodes.next

theorem on_nodes_agree {α β : Type} {left : StateM Nodes α} {right : StateM Nodes β}
    {related : α → β → Prop}
    (agreed : (Nodes.lockstep start.nodes.next start'.nodes.next).agree left right related) :
    (lockstep evidence start start').agree (onNodes left) (onNodes right) related := by
  intro session session' inStep
  obtain ⟨holds, paired⟩ := agreed session.nodes session'.nodes inStep.nodes
  exact ⟨_, _, _, _, rfl, rfl, { inStep with nodes := paired }, holds⟩

theorem on_prover_agree {α β : Type} {left : ExceptT Fault (StateM (Prover σ)) α}
    {right : ExceptT Fault (StateM (Prover σ)) β} {property : α → Prop} {property' : β → Prop}
    (given : ∀ prover, evidence.Trusts prover → ∃ a after, left prover = (.ok a, after) ∧
      evidence.Trusts after ∧ property a)
    (given' : ∀ prover, evidence.Trusts prover → ∃ b after, right prover = (.ok b, after) ∧
      evidence.Trusts after ∧ property' b) :
    (lockstep evidence start start').agree (onProver left) (onProver right)
      fun a b => property a ∧ property' b := by
  intro session session' inStep
  obtain ⟨a, after, run, trusts, holds⟩ := given session.prover inStep.trusts
  obtain ⟨b, after', run', trusts', holds'⟩ := given' session'.prover inStep.trusts'
  refine ⟨a, b, { session with prover := after }, { session' with prover := after' }, ?_, ?_,
    ⟨inStep.nodes, inStep.options, trusts, trusts', inStep.rounds⟩, holds, holds'⟩
  · show ((left session.prover).1, { session with prover := (left session.prover).2 }) = _
    rw [run]
  · show ((right session'.prover).1, { session' with prover := (right session'.prover).2 }) = _
    rw [run']

theorem note_agree (event event' : Event) :
    (lockstep evidence start start').agree (note event) (note event') fun _ _ => True := by
  intro session session' inStep
  exact ⟨(), (), _, _, rfl, rfl,
    ⟨inStep.nodes, inStep.options, ⟨inStep.trusts.solver, inStep.trusts.entries⟩,
      ⟨inStep.trusts'.solver, inStep.trusts'.entries⟩, inStep.rounds⟩, trivial⟩

theorem modify_agree {change change' : Session σ → Session σ}
    (keeps : ∀ session session', Session.InStep evidence start start' session session' →
      Session.InStep evidence start start' (change session) (change' session')) :
    (lockstep evidence start start').agree (modify change) (modify change')
      fun _ _ => True := by
  intro session session' inStep
  exact ⟨(), (), change session, change' session', rfl, rfl, keeps session session' inStep,
    trivial⟩

theorem get_agree :
    (lockstep evidence start start').agree (get : Pass σ (Session σ)) (get : Pass σ (Session σ))
      fun session session' => session'.options = session.options := by
  intro session session' inStep
  exact ⟨session, session', session, session', rfl, rfl, inStep, inStep.options⟩

theorem advance_agree (condition condition' : Expr) (before after : Stage) :
    (lockstep evidence start start').agree (advance condition before after)
      (advance condition' before after) fun _ _ => True := by
  unfold advance
  split
  · exact (lockstep evidence start start').pure trivial
  · exact note_agree _ _

section Determined

variable (determined : evidence.IsDetermined) {a b : Expr}

include determined

theorem verdict_agree (alike : Same start start' a b) :
    (lockstep evidence start start').agree (verdict a) (verdict b) Eq := by
  have asked : (lockstep evidence start start').agree (onProver (Prover.verdict a))
      (onProver (Prover.verdict b))
      fun answer answer' => evidence.Concludes a answer ∧ evidence.Concludes b answer' :=
    on_prover_agree (fun prover trusts => Prover.verdict_concludes trusts a)
      fun prover trusts => Prover.verdict_concludes trusts b
  unfold verdict
  apply (lockstep evidence start start').bind asked
  intro answer answer' supported
  rcases supported with ⟨concludes, concludes'⟩
  obtain rfl := determined.verdict_eq alike.canon_eq concludes concludes'
  split
  · apply (lockstep evidence start start').bind (note_agree _ _)
    intro _ _ _
    exact (lockstep evidence start start').pure rfl
  · exact (lockstep evidence start start').pure rfl

theorem decided_agree (alike : Same start start' a b) :
    (lockstep evidence start start').agree (decided? a) (decided? b)
      (Option.Rel (Same start start')) := by
  unfold decided?
  apply (lockstep evidence start start').bind (verdict_agree determined alike)
  intro answer _ same
  subst same
  cases answer with
  | isTrue =>
      apply (lockstep evidence start start').bind
        (on_nodes_agree (Nodes.literal_agree true))
      intro _ _ made
      exact (lockstep evidence start start').pure (.some made)
  | isFalse =>
      apply (lockstep evidence start start').bind
        (on_nodes_agree (Nodes.literal_agree false))
      intro _ _ made
      exact (lockstep evidence start start').pure (.some made)
  | unknown => exact (lockstep evidence start start').pure .none

theorem operand_agree (alike : Same start start' a b) :
    (lockstep evidence start start').agree (operand a) (operand b)
      (Identities.AlikeNoted start.nodes.next start'.nodes.next) := by
  unfold operand
  rw [alike.ty_eq, alike.as_bool_eq, alike.has_call_eq]
  split
  · exact (lockstep evidence start start').pure ⟨alike, rfl⟩
  apply (lockstep evidence start start').bind (decided_agree determined alike)
  intro result result' made
  cases made with
  | some made => exact (lockstep evidence start start').pure ⟨made, rfl⟩
  | none => exact (lockstep evidence start start').pure ⟨alike, rfl⟩

theorem fold_node_agree (a b : Expr) (alike : Same start start' a b) :
    (lockstep evidence start start').agree (foldNode a) (foldNode b) (Same start start') := by
  have kept : (lockstep evidence start start').agree (pure a) (pure b) (Same start start') :=
    (lockstep evidence start start').pure alike
  cases alike with
  | @binary i j op l l' r r' same left right =>
      rw [foldNode, foldNode]
      split
      · exact kept
      apply Identities.AlikeNoted.bind (lockstep evidence start start')
        (operand_agree determined left)
      intro x x' proven first
      apply Identities.AlikeNoted.bind (lockstep evidence start start')
        (operand_agree determined right)
      intro y y' proven' second
      dsimp only
      split
      · apply (lockstep evidence start start').bind
          (on_nodes_agree (Nodes.renew_agree same true))
        intro i' j' same'
        exact on_nodes_agree (Identities.at_node_agree _ _ (.binary same' first second))
      · exact kept
  | _ => exact kept

theorem fold_agree (alike : Same start start' a b) :
    (lockstep evidence start start').agree (fold a) (fold b) (Same start start') :=
  Expr.bottom_up_agree (lockstep evidence start start')
    (fun _ _ changed same => on_nodes_agree (Nodes.renew_agree same changed))
    (fold_node_agree determined) alike

theorem evaluate_agree (alike : Same start start' a b) :
    (lockstep evidence start start').agree (evaluate a) (evaluate b) (Same start start') := by
  unfold evaluate
  apply Identities.AlikeNoted.bind (lockstep evidence start start')
    (on_nodes_agree (Identities.collapse_agree alike))
  intro x y changed collapsed
  dsimp only
  rw [collapsed.as_bool_eq, collapsed.has_call_eq]
  split
  · exact (lockstep evidence start start').pure collapsed
  apply (lockstep evidence start start').bind (decided_agree determined collapsed)
  intro result result' made
  apply (lockstep evidence start start').pure
  cases made with
  | some made => exact made
  | none => exact collapsed

theorem round_agree (condition condition' : Expr) (stage : Stage)
    (alike : Same start start' a b) :
    (lockstep evidence start start').agree (round condition stage a) (round condition' stage b)
      (Same start start') := by
  have counted : (lockstep evidence start start').agree
      (modify fun session : Session σ => { session with iterations := session.iterations + 1 })
      (modify fun session : Session σ => { session with iterations := session.iterations + 1 })
      fun _ _ => True := by
    apply modify_agree
    intro session session' inStep
    obtain ⟨count, left, right⟩ := inStep.rounds
    refine { inStep with rounds := ⟨count + 1, ?_, ?_⟩ }
    · rw [left, Nat.add_assoc]
    · rw [right, Nat.add_assoc]
  have finish (x y : Expr) (folded : Same start start' x y) :
      (lockstep evidence start start').agree
        (do
          advance condition stage .childrenSimplified
          let evaluated ← evaluate x
          advance condition .childrenSimplified .conditionEvaluated
          return evaluated)
        (do
          advance condition' stage .childrenSimplified
          let evaluated ← evaluate y
          advance condition' .childrenSimplified .conditionEvaluated
          return evaluated) (Same start start') := by
    apply (lockstep evidence start start').bind (advance_agree _ _ _ _)
    intro _ _ _
    apply (lockstep evidence start start').bind (evaluate_agree determined folded)
    intro x' y' evaluated
    apply (lockstep evidence start start').bind (advance_agree _ _ _ _)
    intro _ _ _
    exact (lockstep evidence start start').pure evaluated
  unfold round
  apply (lockstep evidence start start').bind counted
  intro _ _ _
  apply (lockstep evidence start start').bind (on_nodes_agree (Expr.reduce_agree alike))
  intro reduced reduced' alike
  apply (lockstep evidence start start').bind (on_nodes_agree (Expr.unwrap_agree alike))
  intro bare bare' alike
  apply (lockstep evidence start start').bind get_agree
  intro session session' same
  dsimp only
  rw [same]
  split
  · exact (lockstep evidence start start').bind (fold_agree determined alike) finish
  · exact (lockstep evidence start start').bind ((lockstep evidence start start').pure alike) finish

theorem rounds_agree (condition condition' : Expr) (stage : Stage) (limit : Nat)
    (alike : Same start start' a b) :
    (lockstep evidence start start').agree (rounds condition stage a limit)
      (rounds condition' stage b limit)
      fun left right => Same start start' left.1 right.1 ∧ left.2 = right.2 := by
  induction limit generalizing stage a b with
  | zero => exact (lockstep evidence start start').pure ⟨alike, rfl⟩
  | succ limit ih =>
      rw [rounds, rounds]
      apply (lockstep evidence start start').bind
        (round_agree determined condition condition' stage alike)
      intro a' b' alike'
      by_cases settled : a'.id = a.id
      · rw [if_pos settled, if_pos ((alike.id.eq_iff alike'.id).mp settled)]
        exact (lockstep evidence start start').pure ⟨alike', rfl⟩
      · rw [if_neg settled, if_neg fun same => settled ((alike.id.eq_iff alike'.id).mpr same)]
        exact ih .conditionEvaluated alike'

theorem simplify_agree (alike : Same start start' a b) :
    (lockstep evidence start start').agree (a.simplify : Pass σ Expr) (b.simplify : Pass σ Expr)
      (Same start start') := by
  unfold Expr.simplify
  refine (lockstep evidence start start').bind
    (modify_agree fun _ _ inStep => ⟨inStep.nodes, inStep.options, inStep.trusts,
      inStep.trusts', inStep.rounds⟩) fun _ _ _ => ?_
  apply (lockstep evidence start start').bind get_agree
  intro session session' same
  rw [same]
  apply (lockstep evidence start start').bind
    (rounds_agree determined a b .unvisited session.options.maxIterations.toNat alike)
  intro settled settled' agreed
  rcases settled with ⟨x, stage, settled⟩
  rcases settled' with ⟨y, _⟩
  rcases agreed with ⟨alike', rfl⟩
  have finish : (lockstep evidence start start').agree
      (do
        if x.id ≠ a.id then
          onNodes (Nodes.inherit x.id a.id)
          modify fun session : Session σ => { session with changed := session.changed + 1 }
          advance a stage .settled
          note (.replaced a x)
        return x)
      (do
        if y.id ≠ b.id then
          onNodes (Nodes.inherit y.id b.id)
          modify fun session : Session σ => { session with changed := session.changed + 1 }
          advance b stage .settled
          note (.replaced b y)
        return y) (Same start start') := by
    have together : x.id ≠ a.id ↔ y.id ≠ b.id := not_congr (alike.id.eq_iff alike'.id)
    by_cases changed : x.id ≠ a.id
    · rw [if_pos changed, if_pos (together.mp changed)]
      apply (lockstep evidence start start').bind (on_nodes_agree Nodes.inherit_agree)
      intro _ _ _
      refine (lockstep evidence start start').bind
        (modify_agree fun _ _ inStep => ⟨inStep.nodes, inStep.options, inStep.trusts,
          inStep.trusts', inStep.rounds⟩) fun _ _ _ => ?_
      apply (lockstep evidence start start').bind (advance_agree _ _ _ _)
      intro _ _ _
      apply (lockstep evidence start start').bind (note_agree _ _)
      intro _ _ _
      exact (lockstep evidence start start').pure alike'
    · rw [if_neg changed, if_neg fun other => changed (together.mpr other)]
      exact (lockstep evidence start start').pure alike'
  dsimp only
  split
  · exact (lockstep evidence start start').bind (note_agree _ _) fun _ _ _ => finish
  · exact finish

end Determined

end Pass

/-- A session with any history and a new one, over a solver whose answers depend on the
term alone, simplify a condition to the same expression up to the ids of nodes, in the same
number of rounds. The ids of the condition's own nodes were given out before. -/
theorem Expr.simplify_transparent {σ : Type} (solver : Solver σ)
    (answer : Term → Except Fault Outcome) (answers : solver.Answers answer) (memory memory' : σ)
    (nodes nodes' : Nodes) (options : Options) (operations : List Operation) (condition : Expr)
    (made : ∀ node ∈ condition.nodes,
      node.id < ((Session.start solver memory nodes options).after operations).nodes.next)
    (made' : ∀ node ∈ condition.nodes, node.id < nodes'.next) :
    let session := (Session.start solver memory nodes options).after operations
    let new := Session.start solver memory' nodes' session.options
    ∃ result result' after after',
      condition.simplify session = (.ok result, after) ∧
      condition.simplify new = (.ok result', after') ∧
      result.anonymous = result'.anonymous ∧
      after.iterations = session.iterations + after'.iterations := by
  intro session new
  have trusts : (Evidence.ofAnswers answers).Trusts session.prover :=
    ((Evidence.ofAnswers answers).trusts_start memory nodes options).after_operations operations
  have inStep : Session.InStep (Evidence.ofAnswers answers) session new session new :=
    ⟨⟨0, rfl, rfl⟩, rfl, trusts, (Evidence.ofAnswers answers).trusts_start _ _ _, 0, rfl, rfl⟩
  have alike : Pass.Same session new condition condition :=
    .refl fun node member => ⟨made node member, made' node member⟩
  obtain ⟨result, result', after, after', run, run', inStep, alike⟩ :=
    Pass.simplify_agree (Evidence.of_answers_is_determined answers) alike session new inStep
  refine ⟨result, result', after, after', run, run', alike.anonymous_eq.symm, ?_⟩
  obtain ⟨count, left, right⟩ := inStep.rounds
  have fresh : new.iterations = 0 := rfl
  omega

/-- A search whose clock never runs out answers by the term alone. -/
theorem Expr.simplify_transparent_byte :
    let exhaustive : Exhaustive := ⟨8, fun _ _ => false⟩
    let byte : Expr := .var 1 ⟨"x", .int 8 false⟩
    let bounded : Expr := .binary 3 .le byte (.lit 2 ⟨255, .int 8 false⟩)
    let condition : Expr := .binary 4 .land (.call 0 "f" .bool []) (.paren 5 bounded)
    let session := (Session.start exhaustive.toSolver () ⟨4, {}⟩ {}).after
      [.condition bounded, .supply ⟨9, {}⟩]
    ∃ result result' after after',
      condition.simplify session = (.ok result, after) ∧
      condition.simplify (Session.start exhaustive.toSolver () ⟨6, {}⟩ session.options)
        = (.ok result', after') ∧
      result.anonymous = result'.anonymous ∧
      after.iterations = session.iterations + after'.iterations := by
  intro exhaustive byte bounded condition session
  have answers : exhaustive.toSolver.Answers fun t => exhaustive.check t .standard := by
    intro t strategy memory
    have punctual (strategy : Strategy) : exhaustive.isLate strategy = fun _ => false := by
      funext number
      unfold Exhaustive.isLate
      cases strategy.timeout with
      | none => rfl
      | some bound => exact Bool.and_false _
    show exhaustive.check t strategy = exhaustive.check t .standard
    rw [Exhaustive.check, Exhaustive.check, punctual, punctual]
  have ids : ∀ node ∈ condition.nodes, node.id < 6 := by
    simp [condition, bounded, byte, Expr.nodes, Expr.nodesOf, Expr.id]
  refine Expr.simplify_transparent exhaustive.toSolver _ answers () () ⟨4, {}⟩ ⟨6, {}⟩ {}
    [.condition bounded, .supply ⟨9, {}⟩] condition ?_ ids
  intro node member
  exact Nat.lt_trans (ids node member) (by decide : 6 < 9)

end Condense
