import Condense.Pass.Simplify
import Condense.Proofs.Constants
import Condense.Proofs.Reduction
import Condense.Proofs.Verdicts

/-!
# Soundness of the pass

With a solver that calls a term unsatisfiable only when no model satisfies it, a verdict
is a fact about the condition: it has the truth value that the verdict names under every
store. A literal put in the place of a proven operand has then the operand's value, and one
put in the place of a proven condition its truth value. Everything else the pass does is
an identity, so a condition keeps its truth value and its effects through any number of
rounds.
-/

namespace Condense

set_option autoImplicit false

def Polarity.Proves (polarity : Polarity) (e : Expr) : Prop :=
  ∃ t, e.encode = .ok t ∧ (polarity.target t).IsRefuted

theorem Expr.model_in_fits {e : Expr} {t : Term} (accepted : e.encode = .ok t) (store : Store)
    (polarity : Polarity) : (e.modelIn store).Fits (polarity.target t) := by
  have occurrences : (polarity.target t).occurrences = t.occurrences := by
    cases polarity <;> rfl
  apply (Expr.compatible_of_encode accepted).model_in_fits
  rw [occurrences, Expr.occurrences_of_encode accepted]

theorem Polarity.Proves.holds {polarity : Polarity} {e : Expr} (proves : polarity.Proves e)
    (store : Store) : Meaning.holds (e.value store) = polarity.truth := by
  obtain ⟨t, accepted, refuted⟩ := proves
  obtain ⟨t', scope, derivation, _⟩ := Expr.encode_eq_ok.mp accepted
  have evaluates := polarity.eval_target
    (Expr.eval_of_encode accepted (derivation.assigns store))
  have untrue := refuted _ (Expr.model_in_fits accepted store polarity)
  rw [evaluates] at untrue
  simpa using untrue

namespace Guarantee

variable {σ : Type}

abbrev logic (guarantee : Guarantee σ) : Logic (Pass σ) :=
  Pass.keeping guarantee.holds

/-- A verdict that decides has been proven. -/
structure IsTruthful (guarantee : Guarantee σ) : Prop where
  isTrue : ∀ {e}, guarantee.concludes e .isTrue → Polarity.positive.Proves e
  isFalse : ∀ {e}, guarantee.concludes e .isFalse → Polarity.negative.Proves e

end Guarantee

namespace Evidence

variable {σ : Type} {solver : Solver σ}

def IsTruthful (evidence : Evidence solver) : Prop :=
  ∀ polarity e, evidence.admits polarity e true → polarity.Proves e

def ofSound (sound : solver.IsSound) : Evidence solver where
  admits polarity e proven := proven = true → polarity.Proves e
  answered := by
    intro oracle polarity e same proven
    unfold Oracle.answer at proven
    cases accepted : e.encode with
    | error unsupported =>
        rw [accepted] at proven
        cases proven
    | ok t =>
        rw [accepted, same] at proven
        exact ⟨t, accepted, sound _ _ _ (Reply.refutes_iff.mp proven)⟩
  shared := by
    intro a b polarity proven equivalent admitted same
    obtain ⟨t, accepted, refuted⟩ := admitted same
    exact ⟨t, (Expr.encode_of_is_equiv equivalent).mp accepted, refuted⟩
  exclusive := by
    intro e always _ never
    have holds := (always rfl).holds Store.zeros
    rw [(never rfl).holds] at holds
    cases holds

theorem of_sound_is_truthful (sound : solver.IsSound) : (ofSound sound).IsTruthful :=
  fun _ _ admitted => admitted rfl

theorem IsTruthful.guarantee {evidence : Evidence solver} (truthful : evidence.IsTruthful) :
    evidence.guarantee.IsTruthful :=
  ⟨fun concludes => truthful _ _ concludes, fun concludes => truthful _ _ concludes.2⟩

end Evidence

namespace Pass

open Condense.Expr

variable {σ : Type} {guarantee : Guarantee σ}

theorem note_gives (event : Event) :
    guarantee.logic.gives (note event) fun _ => True := by
  exact on_prover_gives fun prover holds => ⟨(), _, rfl, guarantee.consulted rfl holds, trivial⟩

theorem verdict_gives (e : Expr) :
    guarantee.logic.gives (verdict e) (guarantee.concludes e) := by
  apply guarantee.logic.bind
    (on_prover_gives fun prover holds => guarantee.decides e holds)
  intro answer concludes
  dsimp only
  split
  · apply guarantee.logic.bind (note_gives _)
    intro _ _
    exact guarantee.logic.pure concludes
  · exact guarantee.logic.pure concludes

/-- `literal` is the boolean that `e` has for a truth value under every store. -/
def IsTruthOf (e literal : Expr) : Prop :=
  ∃ id value, literal = .lit id (.ofBool value) ∧
    ∀ store, Meaning.holds (e.value store) = value

theorem decided_gives (e : Expr) :
    guarantee.logic.gives (decided? e) fun result =>
      ∀ literal ∈ result, guarantee.IsTruthful → IsTruthOf e literal := by
  have decided {value : Bool} (holds : guarantee.IsTruthful → ∀ store,
      Meaning.holds (e.value store) = value) :
      guarantee.logic.gives (onNodes (Nodes.literal value e.id)) fun literal =>
        guarantee.IsTruthful → IsTruthOf e literal :=
    on_nodes_gives (Nodes.literal_gives fun id truthful => ⟨id, value, rfl, holds truthful⟩)
  apply guarantee.logic.bind (verdict_gives e)
  intro answer concludes
  cases answer with
  | isTrue =>
      apply guarantee.logic.bind
        (decided fun truthful => (truthful.isTrue concludes).holds)
      intro literal truth
      apply guarantee.logic.pure
      intro _ returned
      cases returned
      exact truth
  | isFalse =>
      apply guarantee.logic.bind
        (decided fun truthful => (truthful.isFalse concludes).holds)
      intro literal truth
      apply guarantee.logic.pure
      intro _ returned
      cases returned
      exact truth
  | unknown =>
      apply guarantee.logic.pure
      intro _ returned
      cases returned

theorem IsTruthOf.agrees {e literal : Expr} (truth : IsTruthOf e literal)
    (free : e.hasCall = false) : Agrees e literal := by
  obtain ⟨id, value, rfl, holds⟩ := truth
  intro calls store pattern after known
  obtain ⟨rfl, rfl⟩ := run_call_free free known
  refine ⟨_, rfl, ?_⟩
  rw [Literal.pattern_of_bool, Meaning.holds_to_nat, holds]

theorem IsTruthOf.is_masked {e literal : Expr} (truth : IsTruthOf e literal) :
    literal.IsMasked := by
  obtain ⟨id, value, rfl, _⟩ := truth
  exact of_bool_is_masked id value

theorem IsTruthOf.refines {e literal : Expr} (truth : IsTruthOf e literal)
    (boolean : e.ty.isBool = true) (free : e.hasCall = false) : Refines e literal := by
  have agrees := truth.agrees free
  obtain ⟨id, value, rfl, _⟩ := truth
  refine ⟨(Ty.eq_bool boolean).symm, ?_⟩
  intro calls store pattern after known
  obtain ⟨pattern', known', same⟩ := agrees calls store pattern after known
  rw [← to_nat_holds_of_run boolean known, ← same, to_nat_holds_of_run rfl known']
  exact known'

theorem operand_gives (e : Expr) :
    guarantee.logic.gives (operand e) fun result =>
      guarantee.IsTruthful → Simplifies e result.1 := by
  unfold operand
  split
  · exact guarantee.logic.pure fun _ => .refl e
  · next suitable =>
      obtain ⟨⟨boolean, _⟩, free⟩ : (e.ty.isBool = true ∧ e.asBool = none) ∧ e.hasCall = false := by
        simpa using suitable
      apply guarantee.logic.bind (decided_gives e)
      intro result truth
      cases result with
      | none => exact guarantee.logic.pure fun _ => .refl e
      | some literal =>
          apply guarantee.logic.pure
          intro truthful _
          have stands := truth literal rfl truthful
          exact ⟨stands.is_masked, stands.refines boolean free⟩

theorem fold_node_gives (e : Expr) :
    guarantee.logic.gives (foldNode e) fun result =>
      guarantee.IsTruthful → Simplifies e result := by
  cases e with
  | binary id op l r =>
      rw [foldNode]
      split
      · exact guarantee.logic.pure fun _ => .refl _
      apply guarantee.logic.bind (operand_gives l)
      intro lhs left
      rcases lhs with ⟨l', lp⟩
      apply guarantee.logic.bind (operand_gives r)
      intro rhs right
      rcases rhs with ⟨r', rp⟩
      dsimp only
      split
      · apply guarantee.logic.bind (on_nodes_gives (Nodes.renew_gives _ _))
        intro id' _
        apply guarantee.logic.weaken
          (on_nodes_gives (Identities.at_node_simplifies _))
        intro result done truthful
        exact (Simplifies.congruence.binary (left truthful) (right truthful)).trans done
      · exact guarantee.logic.pure fun _ => .refl _
  | _ => exact guarantee.logic.pure fun _ => .refl _

theorem fold_gives (e : Expr) :
    guarantee.logic.gives (fold e) fun result =>
      guarantee.IsTruthful → Simplifies e result := by
  have congruence : Congruence fun a b => guarantee.IsTruthful → Simplifies a b :=
    Simplifies.congruence.under
  exact e.bottom_up_gives guarantee.logic congruence
    (fun _ _ => on_nodes_gives (Nodes.renew_gives _ _)) fold_node_gives

theorem evaluate_gives (e : Expr) :
    guarantee.logic.gives (evaluate e) fun result =>
      guarantee.IsTruthful → Condenses e result := by
  unfold evaluate
  apply guarantee.logic.bind (on_nodes_gives (Identities.collapse_condenses e))
  intro found collapsed
  rcases found with ⟨e', changed⟩
  dsimp only
  split
  · exact guarantee.logic.pure fun _ => collapsed
  · next suitable =>
      obtain ⟨_, free⟩ : e'.asBool = none ∧ e'.hasCall = false := by simpa using suitable
      apply guarantee.logic.bind (decided_gives e')
      intro result truth
      apply guarantee.logic.pure
      intro truthful
      cases result with
      | none => exact collapsed
      | some literal =>
          have stands := truth literal rfl truthful
          exact collapsed.trans fun _ => ⟨stands.is_masked, stands.agrees free⟩

theorem advance_gives (condition : Expr) (before after : Stage) :
    guarantee.logic.gives (advance condition before after) fun _ => True := by
  unfold advance
  split
  · exact guarantee.logic.pure trivial
  · exact note_gives _

theorem round_gives (condition : Expr) (stage : Stage) (e : Expr) :
    guarantee.logic.gives (round condition stage e) fun result =>
      guarantee.IsTruthful → Condenses e result := by
  unfold round
  refine guarantee.logic.bind (modify_gives fun _ => rfl) fun _ _ => ?_
  apply guarantee.logic.bind (on_nodes_gives e.reduce_simplifies)
  intro reduced first
  apply guarantee.logic.bind (on_nodes_gives reduced.unwrap_simplifies)
  intro bare second
  apply guarantee.logic.bind get_gives
  intro session _
  have finish (folded : Expr) (third : guarantee.IsTruthful → Simplifies bare folded) :
      guarantee.logic.gives (do
        advance condition stage .childrenSimplified
        let evaluated ← evaluate folded
        advance condition .childrenSimplified .conditionEvaluated
        return evaluated) fun result => guarantee.IsTruthful → Condenses e result := by
    apply guarantee.logic.bind (advance_gives _ _ _)
    intro _ _
    apply guarantee.logic.bind (evaluate_gives folded)
    intro evaluated fourth
    apply guarantee.logic.bind (advance_gives _ _ _)
    intro _ _
    apply guarantee.logic.pure
    intro truthful
    exact ((first.trans second).trans (third truthful)).condenses.trans (fourth truthful)
  dsimp only
  split
  · exact guarantee.logic.bind (fold_gives bare) finish
  · exact guarantee.logic.bind (guarantee.logic.pure fun _ => .refl bare) finish

theorem rounds_gives (condition : Expr) (stage : Stage) (e : Expr) (limit : Nat) :
    guarantee.logic.gives (rounds condition stage e limit) fun result =>
      guarantee.IsTruthful → Condenses e result.1 := by
  induction limit generalizing stage e with
  | zero => exact guarantee.logic.pure fun _ => .refl e
  | succ limit ih =>
      rw [rounds]
      apply guarantee.logic.bind (round_gives condition stage e)
      intro e' once
      split
      · exact guarantee.logic.pure once
      · apply guarantee.logic.weaken (ih .conditionEvaluated e')
        intro result more truthful
        exact (once truthful).trans (more truthful)

/-- Under a guarantee simplification always succeeds and keeps it. Where verdicts are
truthful the result has the condition's truth value and effects. -/
theorem simplify_gives (condition : Expr) :
    guarantee.logic.gives condition.simplify fun result =>
      guarantee.IsTruthful → Condenses condition result := by
  unfold Expr.simplify
  refine guarantee.logic.bind (modify_gives fun _ => rfl) fun _ _ => ?_
  apply guarantee.logic.bind get_gives
  intro session _
  apply guarantee.logic.bind (rounds_gives _ _ _ _)
  intro outcome condensed
  rcases outcome with ⟨result, stage, settled⟩
  have finish : guarantee.logic.gives (do
      if result.id ≠ condition.id then
        onNodes (Nodes.inherit result.id condition.id)
        modify fun session => { session with changed := session.changed + 1 }
        advance condition stage .settled
        note (.replaced condition result)
      return result) fun result => guarantee.IsTruthful → Condenses condition result := by
    split
    · apply guarantee.logic.bind (on_nodes_gives Nodes.inherit_gives)
      intro _ _
      refine guarantee.logic.bind (modify_gives fun _ => rfl) fun _ _ => ?_
      apply guarantee.logic.bind (advance_gives _ _ _)
      intro _ _
      apply guarantee.logic.bind (note_gives _)
      intro _ _
      exact guarantee.logic.pure condensed
    · exact guarantee.logic.pure condensed
  dsimp only
  split
  · exact guarantee.logic.bind (note_gives _) fun _ _ => finish
  · exact finish

end Pass

theorem Expr.simplify_gives {σ : Type} {solver : Solver σ} {evidence : Evidence solver}
    (condition : Expr) :
    evidence.guarantee.logic.gives condition.simplify fun result =>
      evidence.IsTruthful → Condenses condition result := by
  apply evidence.guarantee.logic.weaken (Pass.simplify_gives condition)
  intro result condensed truthful
  exact condensed truthful.guarantee

end Condense
