import Condense.Proofs.Identity

/-!
# What a walk over a program does

A program is its skeleton, in which every condition is `true`, with its conditions put back in
order. A walk leaves the skeleton as it is and simplifies the conditions one after the
other in one session, each of them once, a control statement's own before those inside its
bodies, and puts each result that has another id in the condition's place. The counters of the
session say how many there were, and the flag that is returned whether the program has changed.
-/

namespace Condense

set_option autoImplicit false

namespace Statement

mutual

def parts : Statement → List Statement
  | block body => block body :: partsOf body
  | ifThen c yes => ifThen c yes :: yes.parts
  | ifElse c yes no => ifElse c yes no :: (yes.parts ++ no.parts)
  | whileDo c body => whileDo c body :: body.parts
  | doWhile body c => doWhile body c :: body.parts
  | s => [s]

def partsOf : List Statement → List Statement
  | [] => []
  | s :: rest => s.parts ++ partsOf rest

end

/-- The conditions of all control statements, each before those inside its bodies. -/
def conditions (s : Statement) : List Expr :=
  s.parts.filterMap condition?

def conditionsOf (body : List Statement) : List Expr :=
  (partsOf body).filterMap condition?

mutual

/-- The statement with `true` for every condition. -/
def skeleton : Statement → Statement
  | block body => block (skeletons body)
  | ifThen _ yes => ifThen (.lit 0 (.ofBool true)) yes.skeleton
  | ifElse _ yes no => ifElse (.lit 0 (.ofBool true)) yes.skeleton no.skeleton
  | whileDo _ body => whileDo (.lit 0 (.ofBool true)) body.skeleton
  | doWhile body _ => doWhile body.skeleton (.lit 0 (.ofBool true))
  | s => s

def skeletons : List Statement → List Statement
  | [] => []
  | s :: rest => s.skeleton :: skeletons rest

end

section Conditions

variable (c : Expr) (s s' : Statement) (body : List Statement)

@[simp] theorem conditions_block : (block body).conditions = conditionsOf body := rfl

@[simp] theorem conditions_if_then : (ifThen c s).conditions = c :: s.conditions := rfl

@[simp] theorem conditions_if_else :
    (ifElse c s s').conditions = c :: (s.conditions ++ s'.conditions) :=
  congrArg (c :: ·) List.filterMap_append

@[simp] theorem conditions_while_do : (whileDo c s).conditions = c :: s.conditions := rfl

@[simp] theorem conditions_do_while : (doWhile s c).conditions = c :: s.conditions := rfl

@[simp] theorem conditions_of_cons :
    conditionsOf (s :: body) = s.conditions ++ conditionsOf body :=
  List.filterMap_append

/-- There are as many conditions as control statements. -/
theorem length_conditions : s.conditions.length = s.parts.countP isControl := by
  unfold conditions
  rw [List.length_filterMap_eq_countP]
  congr 1
  funext part
  cases part <;> rfl

end Conditions

section Skeletons

mutual

theorem length_conditions_skeleton :
    (s : Statement) → s.skeleton.conditions.length = s.conditions.length
  | block body => by
      rw [skeleton, conditions_block, conditions_block, length_conditions_skeletons body]
  | ifThen c yes => by
      simp [skeleton, length_conditions_skeleton yes]
  | ifElse c yes no => by
      simp [skeleton, length_conditions_skeleton yes, length_conditions_skeleton no]
  | whileDo c body => by
      simp [skeleton, length_conditions_skeleton body]
  | doWhile body c => by
      simp [skeleton, length_conditions_skeleton body]
  | eval e => rfl
  | ret e => rfl
  | breakLoop => rfl
  | continueLoop => rfl

theorem length_conditions_skeletons :
    (body : List Statement) → (conditionsOf (skeletons body)).length = (conditionsOf body).length
  | [] => rfl
  | s :: rest => by
      simp [skeletons, length_conditions_skeleton s, length_conditions_skeletons rest]

end

theorem length_conditions_eq {a b : Statement} (same : a.skeleton = b.skeleton) :
    a.conditions.length = b.conditions.length := by
  rw [← length_conditions_skeleton a, same, length_conditions_skeleton b]

mutual

/-- The skeleton and the conditions make up the statement. -/
theorem eq_of_skeleton : (a b : Statement) → a.skeleton = b.skeleton →
    a.conditions = b.conditions → a = b
  | block body, b, same, conditions => by
      cases b with
      | block body' =>
          simp only [skeleton, block.injEq] at same
          rw [eq_of_skeletons body body' same conditions]
      | _ => simp [skeleton] at same
  | ifThen c yes, b, same, conditions => by
      cases b with
      | ifThen c' yes' =>
          simp only [skeleton, ifThen.injEq, true_and] at same
          obtain ⟨rfl, rest⟩ := List.cons.inj conditions
          rw [eq_of_skeleton yes yes' same rest]
      | _ => simp [skeleton] at same
  | ifElse c yes no, b, same, conditions => by
      cases b with
      | ifElse c' yes' no' =>
          simp only [skeleton, ifElse.injEq, true_and] at same
          simp only [conditions_if_else, List.cons.injEq] at conditions
          obtain ⟨rfl, rest⟩ := conditions
          obtain ⟨first, second⟩ := List.append_inj rest (length_conditions_eq same.1)
          rw [eq_of_skeleton yes yes' same.1 first, eq_of_skeleton no no' same.2 second]
      | _ => simp [skeleton] at same
  | whileDo c body, b, same, conditions => by
      cases b with
      | whileDo c' body' =>
          simp only [skeleton, whileDo.injEq, true_and] at same
          obtain ⟨rfl, rest⟩ := List.cons.inj conditions
          rw [eq_of_skeleton body body' same rest]
      | _ => simp [skeleton] at same
  | doWhile body c, b, same, conditions => by
      cases b with
      | doWhile body' c' =>
          simp only [skeleton, doWhile.injEq, and_true] at same
          obtain ⟨rfl, rest⟩ := List.cons.inj conditions
          rw [eq_of_skeleton body body' same rest]
      | _ => simp [skeleton] at same
  | eval e, b, same, _ => by cases b <;> simp_all [skeleton]
  | ret e, b, same, _ => by cases b <;> simp_all [skeleton]
  | breakLoop, b, same, _ => by cases b <;> simp_all [skeleton]
  | continueLoop, b, same, _ => by cases b <;> simp_all [skeleton]

theorem eq_of_skeletons : (as bs : List Statement) → skeletons as = skeletons bs →
    conditionsOf as = conditionsOf bs → as = bs
  | [], bs, same, _ => by cases bs <;> simp_all [skeletons]
  | a :: as, bs, same, conditions => by
      cases bs with
      | nil => simp [skeletons] at same
      | cons b bs =>
          simp only [skeletons, List.cons.injEq] at same
          simp only [conditions_of_cons] at conditions
          obtain ⟨first, rest⟩ := List.append_inj conditions (length_conditions_eq same.1)
          rw [eq_of_skeleton a b same.1 first, eq_of_skeletons as bs same.2 rest]

end

end Skeletons

end Statement

namespace Routine

def conditions (r : Routine) : List Expr :=
  r.body.conditions

def skeleton (r : Routine) : Routine :=
  { r with body := r.body.skeleton }

theorem eq_of_skeleton {a b : Routine} (same : a.skeleton = b.skeleton)
    (conditions : a.conditions = b.conditions) : a = b := by
  obtain ⟨name, body, address⟩ := a
  obtain ⟨name', body', address'⟩ := b
  obtain ⟨rfl, bodies, rfl⟩ := Routine.mk.inj same
  rw [Statement.eq_of_skeleton body body' bodies conditions]

theorem all_eq_of_skeleton {as bs : List Routine}
    (same : as.map skeleton = bs.map skeleton)
    (conditions : as.flatMap Routine.conditions = bs.flatMap Routine.conditions) : as = bs := by
  induction as generalizing bs with
  | nil => exact (List.map_eq_nil_iff.mp same.symm).symm
  | cons a as ih =>
      cases bs with
      | nil => cases same
      | cons b bs =>
          obtain ⟨head, tail⟩ := List.cons.inj same
          rw [List.flatMap_cons, List.flatMap_cons] at conditions
          have bodies : a.body.skeleton = b.body.skeleton := congrArg Routine.body head
          obtain ⟨first, rest⟩ :=
            List.append_inj conditions (Statement.length_conditions_eq bodies)
          rw [eq_of_skeleton head first, ih tail rest]

end Routine

namespace Program

def parts (p : Program) : List Statement :=
  p.routines.flatMap fun r => r.body.parts

def conditions (p : Program) : List Expr :=
  p.routines.flatMap Routine.conditions

def skeleton (p : Program) : Program :=
  ⟨p.routines.map Routine.skeleton⟩

theorem length_conditions (p : Program) :
    p.conditions.length = p.parts.countP Statement.isControl := by
  unfold conditions parts
  rw [List.length_flatMap, List.countP_flatMap]
  congr 2
  funext r
  exact r.body.length_conditions

theorem eq_of_skeleton {p q : Program} (same : p.skeleton = q.skeleton)
    (conditions : p.conditions = q.conditions) : p = q :=
  congrArg Program.mk (Routine.all_eq_of_skeleton (Program.mk.inj same) conditions)

end Program

section Counters

variable {σ : Type} {s t : Session σ}

def Session.counters (s : Session σ) : Nat × Nat :=
  (s.visited, s.changed)

theorem counters_evolution :
    Evolution fun (s : Session σ) (_ : Expr) (t : Session σ) (_ : Expr) =>
      t.counters = s.counters where
  toCourse := .of_view Session.counters fun _ _ _ => rfl
  counted := fun _ _ _ => rfl

theorem Expr.simplify_counts {c r : Expr} (run : c.simplify s = (.ok r, t)) :
    t.visited = s.visited + 1 ∧ t.changed = s.changed + if r.id = c.id then 0 else 1 := by
  obtain ⟨stage, u, journal, rounds, rfl⟩ := Pass.simplify_ends run
  obtain ⟨visited, changed⟩ := Prod.mk.inj (counters_evolution.rounds rounds)
  exact ⟨visited, congrArg (· + _) changed⟩

end Counters

/-- How many expressions of the first list have another id in the second. -/
def Expr.renamed (before after : List Expr) : Nat :=
  (before.zip after).countP fun pair => pair.2.id != pair.1.id

theorem Expr.renamed_cons (c r : Expr) (cs rs : List Expr) :
    renamed (c :: cs) (r :: rs) = renamed cs rs + if r.id = c.id then 0 else 1 := by
  have step : renamed (c :: cs) (r :: rs)
      = renamed cs rs + if (r.id != c.id) = true then 1 else 0 := List.countP_cons
  rw [step]
  by_cases same : r.id = c.id <;> simp [same]

/-- What stands in the place of a condition after its simplification. -/
def Expr.stored (condition result : Expr) : Expr :=
  if result.id = condition.id then condition else result

theorem Expr.stored_id (c r : Expr) : (stored c r).id = r.id := by
  unfold stored
  split
  case isTrue same => exact same.symm
  case isFalse => rfl

theorem Expr.stored_eq_iff {c r : Expr} : stored c r = c ↔ r.id = c.id := by
  constructor
  · intro kept
    rw [← stored_id c r, kept]
  · intro same
    rw [stored, if_pos same]

theorem Expr.renamed_stored {cs rs : List Expr} (lengths : rs.length = cs.length) :
    renamed cs (List.zipWith stored cs rs) = renamed cs rs := by
  induction cs generalizing rs with
  | nil => rfl
  | cons c cs ih =>
      cases rs with
      | nil => cases lengths
      | cons r rs =>
          rw [List.zipWith_cons_cons, renamed_cons, renamed_cons, stored_id,
            ih (Nat.succ.inj lengths)]

theorem Expr.stored_all_iff {cs rs : List Expr} (lengths : rs.length = cs.length) :
    List.zipWith stored cs rs = cs ↔ renamed cs rs = 0 := by
  induction cs generalizing rs with
  | nil => exact ⟨fun _ => rfl, fun _ => rfl⟩
  | cons c cs ih =>
      cases rs with
      | nil => cases lengths
      | cons r rs =>
          rw [List.zipWith_cons_cons, List.cons.injEq, stored_eq_iff, ih (Nat.succ.inj lengths),
            renamed_cons, Nat.add_eq_zero_iff, and_comm]
          by_cases same : r.id = c.id <;> simp [same]

/-- Conditions simplified one after the other, each once, in one session; between them
something may be noted in the journal. -/
inductive Visits {σ : Type} : Session σ → List Expr → Session σ → List Expr → Prop where
  | nil (s : Session σ) : Visits s [] s []
  | cons {s u t : Session σ} {c r : Expr} {cs rs : List Expr}
      (run : c.simplify s = (.ok r, u)) (rest : Visits u cs t rs) :
      Visits s (c :: cs) t (r :: rs)
  | told {s t : Session σ} {cs rs : List Expr} (journal : List Event)
      (rest : Visits (s.told journal) cs t rs) : Visits s cs t rs

namespace Visits

variable {σ : Type} {s u t : Session σ} {as as' bs bs' : List Expr}

theorem length_eq (visits : Visits s as t as') : as'.length = as.length := by
  induction visits with
  | nil s => rfl
  | cons run rest ih => rw [List.length_cons, List.length_cons, ih]
  | told journal rest ih => exact ih

theorem append (first : Visits s as u as') (second : Visits u bs t bs') :
    Visits s (as ++ bs) t (as' ++ bs') := by
  induction first with
  | nil s => exact second
  | cons run rest ih => exact .cons run (ih second)
  | told journal rest ih => exact .told journal (ih second)

/-- Each condition is counted, and each that has another id afterwards. -/
theorem counts (visits : Visits s as t as') :
    t.visited = s.visited + as.length ∧ t.changed = s.changed + Expr.renamed as as' := by
  induction visits with
  | nil s => exact ⟨rfl, rfl⟩
  | @cons s u t c r cs rs run rest ih =>
      obtain ⟨visited, changed⟩ := Expr.simplify_counts run
      constructor
      · rw [ih.1, visited, List.length_cons]
        omega
      · rw [ih.2, changed, Expr.renamed_cons]
        omega
  | told journal rest ih => exact ih

/-- Where ids are used properly, what is stored are the results. -/
theorem stored_eq (visits : Visits s as t as')
    (owned : ∀ c ∈ as, Expr.Owned s.nodes.next [c]) : List.zipWith Expr.stored as as' = as' := by
  induction visits with
  | nil s => rfl
  | @cons s u t c r cs rs run rest ih =>
      rw [List.forall_mem_cons] at owned
      have renews := (Expr.Renews.transition.simplify run).1 owned.1
      have head : c.stored r = r := by
        unfold Expr.stored
        split
        case isTrue same => exact (renews.eq_of_id owned.1 same).symm
        case isFalse => rfl
      rw [List.zipWith_cons_cons, head, ih]
      intro c member
      exact (owned.2 c member).mono renews.later (List.Subset.refl _)
  | told journal rest ih => exact ih owned

end Visits

/-- A walk over conditions: what stands in their places afterwards, and the flag that tells
whether one of them has another id. -/
structure Walk {σ : Type} (s : Session σ) (before : List Expr) (t : Session σ)
    (after : List Expr) (changed : Bool) : Prop where
  visits : ∃ results, Visits s before t results ∧
    after = List.zipWith Expr.stored before results
  flag : changed = decide (0 < Expr.renamed before after)

namespace Walk

variable {σ : Type} {s u t : Session σ} {as as' bs bs' : List Expr} {changed changed' : Bool}

theorem nil (s : Session σ) : Walk s [] s [] false :=
  ⟨⟨[], .nil s, rfl⟩, rfl⟩

theorem single {c r : Expr} (run : c.simplify s = (.ok r, t)) :
    Walk s [c] t [c.stored r] (r.id != c.id) := by
  refine ⟨⟨[r], .cons run (.nil t), rfl⟩, ?_⟩
  rw [Expr.renamed_cons, Expr.stored_id]
  by_cases same : r.id = c.id <;> simp [same, Expr.renamed]

theorem length_eq (walk : Walk s as t as' changed) : as'.length = as.length := by
  rcases walk.visits with ⟨results, visits, rfl⟩
  rw [List.length_zipWith, visits.length_eq, Nat.min_self]

theorem append (first : Walk s as u as' changed) (second : Walk u bs t bs' changed') :
    Walk s (as ++ bs) t (as' ++ bs') (changed || changed') := by
  constructor
  · rcases first.visits with ⟨results, visits, rfl⟩
    rcases second.visits with ⟨results', visits', rfl⟩
    refine ⟨results ++ results', visits.append visits', ?_⟩
    rw [List.zipWith_append visits.length_eq.symm]
  · have sum : Expr.renamed (as ++ bs) (as' ++ bs')
        = Expr.renamed as as' + Expr.renamed bs bs' := by
      unfold Expr.renamed
      rw [List.zip_append first.length_eq.symm, List.countP_append]
    rw [first.flag, second.flag, sum]
    simp

theorem told (walk : Walk s as t as' changed) (journal : List Event) :
    Walk s as (t.told journal) as' changed := by
  rcases walk.visits with ⟨results, visits, rfl⟩
  have noted : Visits s (as ++ []) (t.told journal) (results ++ []) :=
    visits.append (.told journal (.nil _))
  rw [List.append_nil, List.append_nil] at noted
  exact ⟨⟨results, noted, rfl⟩, walk.flag⟩

end Walk

section Runs

open Condense.Pass

variable {σ : Type} {session after : Session σ} {changed : Bool}

namespace Statement

theorem set_condition_self {s : Statement} {c : Expr} (own : s.condition? = some c) :
    s.setCondition c = s := by
  cases s <;> cases own <;> rfl

/-- A control statement's condition is simplified, and replaced if the result has another id. -/
theorem simplify_control_eq_ok {s r : Statement} {wanted : Control}
    (run : s.simplifyControl wanted session = (.ok (r, changed), after)) :
    ∃ c c', s.condition? = some c ∧ c.simplify session = (.ok c', after) ∧
      r = s.setCondition (c.stored c') ∧ changed = (c'.id != c.id) := by
  rw [simplifyControl] at run
  split at run
  case isFalse => cases run
  rw [simplifyCondition] at run
  cases own : s.condition? with
  | none =>
      rw [own] at run
      cases run
  | some c =>
      rw [own] at run
      rcases bind_eq_ok run with ⟨c', u, simplified, run⟩
      refine ⟨c, c', rfl, ?_⟩
      by_cases same : c'.id = c.id
      · rw [if_pos same] at run
        rcases pure_eq_ok run with ⟨result, rfl⟩
        cases result
        rw [Expr.stored_eq_iff.mpr same, set_condition_self own]
        exact ⟨simplified, rfl, by simp [same]⟩
      · rw [if_neg same] at run
        rcases pure_eq_ok run with ⟨result, rfl⟩
        cases result
        rw [Expr.stored, if_neg same]
        exact ⟨simplified, rfl, by simp [same]⟩

theorem walk_of_leaf {s r : Statement} (bare : s.conditions = [])
    (run : (pure (s, false) : Pass σ (Statement × Bool)) session = (.ok (r, changed), after)) :
    r.skeleton = s.skeleton ∧ Walk session s.conditions after r.conditions changed := by
  obtain ⟨same, rfl⟩ := pure_eq_ok run
  cases same
  rw [bare]
  exact ⟨rfl, .nil _⟩

/-- A control statement with one body, made of its condition and the body by `make`. -/
theorem walk_of_body {c : Expr} {body r : Statement} {wanted : Control}
    (make : Expr → Statement → Statement)
    (own : ∀ c body, (make c body).condition? = some c)
    (remade : ∀ c body c' body', ((make c body).setCondition c').setBodies [body'] = make c' body')
    (order : ∀ c body, (make c body).conditions = c :: body.conditions)
    (shape : ∀ {c body c' body'}, body'.skeleton = body.skeleton →
      (make c' body').skeleton = (make c body).skeleton)
    (inner : ∀ {session after : Session σ} {r changed},
      body.simplify session = (.ok (r, changed), after) →
        r.skeleton = body.skeleton ∧ Walk session body.conditions after r.conditions changed)
    (run : (do
      let (own, changed) ← (make c body).simplifyControl wanted
      let (body, bodyChanged) ← body.simplify
      return (own.setBodies [body], changed || bodyChanged) : Pass σ (Statement × Bool)) session
        = (.ok (r, changed), after)) :
    r.skeleton = (make c body).skeleton ∧
      Walk session (make c body).conditions after r.conditions changed := by
  rcases bind_eq_ok run with ⟨⟨_, _⟩, u, controlled, run⟩
  rcases bind_eq_ok run with ⟨⟨body', _⟩, v, walked, run⟩
  rcases pure_eq_ok run with ⟨same, rfl⟩
  cases same
  rcases simplify_control_eq_ok controlled with ⟨_, c', condition, simplified, rfl, rfl⟩
  cases (own c body).symm.trans condition
  rcases inner walked with ⟨skeleton, walk⟩
  rw [remade, order, order]
  exact ⟨shape skeleton, (Walk.single simplified).append walk⟩

mutual

/-- A walk over a statement changes nothing but conditions. -/
theorem walk : (s : Statement) → {session : Session σ} → {r : Statement} → {changed : Bool} →
    {after : Session σ} → s.simplify session = (.ok (r, changed), after) →
    r.skeleton = s.skeleton ∧ Walk session s.conditions after r.conditions changed
  | block body, _, _, _, _, run => by
      rw [simplify] at run
      obtain ⟨⟨body', changed'⟩, u, walked, run⟩ := bind_eq_ok run
      obtain ⟨same, rfl⟩ := pure_eq_ok run
      cases same
      obtain ⟨skeletons, walk⟩ := walk_all body walked
      exact ⟨congrArg block skeletons, walk⟩
  | ifThen c yes, _, _, _, _, run => by
      rw [simplify] at run
      exact walk_of_body ifThen (fun _ _ => rfl) (fun _ _ _ _ => rfl) conditions_if_then
        (fun same => by rw [skeleton, skeleton, same]) (walk yes) run
  | ifElse c yes no, _, _, _, _, run => by
      rw [simplify] at run
      rcases bind_eq_ok run with ⟨⟨_, _⟩, u, controlled, run⟩
      rcases bind_eq_ok run with ⟨⟨yes', yesChanged⟩, v, walked, run⟩
      rcases bind_eq_ok run with ⟨⟨no', noChanged⟩, w, walked', run⟩
      rcases pure_eq_ok run with ⟨same, rfl⟩
      cases same
      rcases simplify_control_eq_ok controlled with ⟨_, c', own, simplified, rfl, rfl⟩
      cases own
      obtain ⟨positive, first⟩ := walk yes walked
      obtain ⟨negative, second⟩ := walk no walked'
      rw [setCondition, setBodies]
      constructor
      · rw [skeleton, skeleton, positive, negative]
      · rw [conditions_if_else, conditions_if_else]
        exact ((Walk.single simplified).append first).append second
  | whileDo c body, _, _, _, _, run => by
      rw [simplify] at run
      exact walk_of_body whileDo (fun _ _ => rfl) (fun _ _ _ _ => rfl) conditions_while_do
        (fun same => by rw [skeleton, skeleton, same]) (walk body) run
  | doWhile body c, _, _, _, _, run => by
      rw [simplify] at run
      exact walk_of_body (fun c body => doWhile body c) (fun _ _ => rfl) (fun _ _ _ _ => rfl)
        conditions_do_while (fun same => by rw [skeleton, skeleton, same]) (walk body) run
  | eval _, _, _, _, _, run => walk_of_leaf rfl run
  | ret _, _, _, _, _, run => walk_of_leaf rfl run
  | breakLoop, _, _, _, _, run => walk_of_leaf rfl run
  | continueLoop, _, _, _, _, run => walk_of_leaf rfl run

theorem walk_all : (body : List Statement) → {session : Session σ} → {result : List Statement} →
    {changed : Bool} → {after : Session σ} →
    simplifyAll body session = (.ok (result, changed), after) →
    skeletons result = skeletons body ∧
      Walk session (conditionsOf body) after (conditionsOf result) changed
  | [], _, _, _, _, run => by
      rw [simplifyAll] at run
      obtain ⟨same, rfl⟩ := pure_eq_ok run
      cases same
      exact ⟨rfl, .nil _⟩
  | s :: rest, _, _, _, _, run => by
      rw [simplifyAll] at run
      obtain ⟨⟨s', changed'⟩, u, walked, run⟩ := bind_eq_ok run
      obtain ⟨⟨rest', restChanged⟩, v, walked', run⟩ := bind_eq_ok run
      obtain ⟨same, rfl⟩ := pure_eq_ok run
      cases same
      obtain ⟨head, first⟩ := walk s walked
      obtain ⟨tail, second⟩ := walk_all rest walked'
      constructor
      · rw [skeletons, skeletons, head, tail]
      · rw [conditions_of_cons, conditions_of_cons]
        exact first.append second

end

end Statement

theorem Routine.walk {r result : Routine}
    (run : r.simplify session = (.ok (result, changed), after)) :
    result.skeleton = r.skeleton ∧ Walk session r.conditions after result.conditions changed := by
  obtain ⟨⟨body, changed'⟩, u, walked, run⟩ := bind_eq_ok run
  obtain ⟨_, v, noted, run⟩ := bind_eq_ok run
  obtain ⟨journal, rfl⟩ := note_eq_ok noted
  obtain ⟨same, rfl⟩ := pure_eq_ok run
  cases same
  obtain ⟨skeleton, walk⟩ := r.body.walk walked
  refine ⟨?_, walk.told journal⟩
  unfold Routine.skeleton
  rw [skeleton]

theorem Routine.walk_all {routines results : List Routine}
    (run : Routine.simplifyAll routines session = (.ok (results, changed), after)) :
    results.map skeleton = routines.map skeleton ∧
      Walk session (routines.flatMap Routine.conditions) after
        (results.flatMap Routine.conditions) changed := by
  induction routines generalizing session results changed with
  | nil =>
      obtain ⟨same, rfl⟩ := pure_eq_ok run
      cases same
      exact ⟨rfl, .nil _⟩
  | cons r rest ih =>
      obtain ⟨⟨r', changed'⟩, u, walked, run⟩ := bind_eq_ok run
      obtain ⟨⟨rest', restChanged⟩, v, walked', run⟩ := bind_eq_ok run
      obtain ⟨same, rfl⟩ := pure_eq_ok run
      cases same
      obtain ⟨head, first⟩ := r.walk walked
      obtain ⟨tail, second⟩ := ih walked'
      rw [List.map_cons, List.map_cons, head, tail, List.flatMap_cons, List.flatMap_cons]
      exact ⟨rfl, first.append second⟩

theorem Program.walk {p result : Program}
    (run : p.simplify session = (.ok (result, changed), after)) :
    result.skeleton = p.skeleton ∧ Walk session p.conditions after result.conditions changed := by
  obtain ⟨⟨routines, changed'⟩, u, walked, run⟩ := bind_eq_ok run
  obtain ⟨same, rfl⟩ := pure_eq_ok run
  cases same
  obtain ⟨skeletons, walk⟩ := Routine.walk_all walked
  exact ⟨congrArg Program.mk skeletons, walk⟩

/-- An operation visits some conditions, or it simplifies nothing. -/
theorem Operation.run_visits (sequenced : session.prover.Sequenced) (operation : Operation) :
    (∃ conditions results, Visits session conditions (operation.run session) results) ∨
      (∃ polarity e, operation = .query polarity e) ∨ (∃ strategy, operation = .follow strategy) ∨
      ∃ nodes, operation = .supply nodes := by
  have succeeds {α : Type} {act : Pass σ α} {property : α → Prop}
      (given : Guarantee.sequenced.logic.gives act property) :
      ∃ a, act session = (.ok a, (act session).2) := by
    obtain ⟨a, after, run, _⟩ := given session sequenced
    exact ⟨a, by rw [run]⟩
  cases operation with
  | condition e =>
      obtain ⟨r, run⟩ := succeeds (Pass.simplify_gives e)
      exact .inl ⟨[e], [r], .cons run (.nil _)⟩
  | control wanted s =>
      by_cases control : s.control? = some wanted
      · obtain ⟨result, run⟩ := succeeds (Statement.simplify_control_gives control)
        rcases Statement.simplify_control_eq_ok run with ⟨c, r, _, simplified, _⟩
        exact .inl ⟨[c], [r], .cons simplified (.nil _)⟩
      · rw [Operation.run, Statement.simplifyControl, if_neg control]
        exact .inl ⟨[], [], .nil session⟩
  | statement s =>
      obtain ⟨result, run⟩ := succeeds s.simplify_gives
      rcases (s.walk run).2.visits with ⟨results, visits, _⟩
      exact .inl ⟨_, results, visits⟩
  | routine r =>
      obtain ⟨result, run⟩ := succeeds r.simplify_gives
      rcases (r.walk run).2.visits with ⟨results, visits, _⟩
      exact .inl ⟨_, results, visits⟩
  | program p =>
      obtain ⟨result, run⟩ := succeeds p.simplify_gives
      rcases (p.walk run).2.visits with ⟨results, visits, _⟩
      exact .inl ⟨_, results, visits⟩
  | query polarity e => exact .inr (.inl ⟨polarity, e, rfl⟩)
  | follow strategy => exact .inr (.inr (.inl ⟨strategy, rfl⟩))
  | supply nodes => exact .inr (.inr (.inr ⟨nodes, rfl⟩))

end Runs

/-- For any solver and in a session with any history, a walk over a program succeeds and
changes nothing but conditions. They are simplified in order, each once, in the one session, and
each result with another id takes its condition's place. The session counts each control
statement and each condition with another id; the flag tells whether there is one, and whether
the program has changed. Where in each condition an id stands for one content and was handed out
before, the conditions of the result are the results. -/
theorem Program.simplify_visits_conditions {σ : Type} (solver : Solver σ) (memory : σ)
    (nodes : Nodes) (options : Options) (operations : List Operation) (p : Program) :
    let session := (Session.start solver memory nodes options).after operations
    ∃ result changed after results, p.simplify session = (.ok (result, changed), after) ∧
      result.skeleton = p.skeleton ∧
      Visits session p.conditions after results ∧
      result.conditions = List.zipWith Expr.stored p.conditions results ∧
      after.statistics.conditionsVisited
        = session.statistics.conditionsVisited + p.parts.countP Statement.isControl ∧
      after.statistics.conditionsChanged
        = session.statistics.conditionsChanged + Expr.renamed p.conditions results ∧
      (changed = true ↔ 0 < Expr.renamed p.conditions results) ∧
      (changed = true ↔ result ≠ p) ∧
      ((∀ c ∈ p.conditions, Expr.Identified [c] ∧ ∀ node ∈ c.nodes, node.id < session.nodes.next) →
        result.conditions = results) := by
  intro session
  have sequenced := Session.after_sequenced solver memory nodes options operations
  obtain ⟨⟨result, changed⟩, after, run, _⟩ :=
    (p.simplify_gives : Guarantee.sequenced.logic.gives _ _) session sequenced
  obtain ⟨skeleton, walk⟩ := p.walk run
  rcases walk.visits with ⟨results, visits, stored⟩
  obtain ⟨visited, counted⟩ := visits.counts
  rw [p.length_conditions] at visited
  have flag : changed = true ↔ 0 < Expr.renamed p.conditions results := by
    rw [walk.flag, decide_eq_true_iff, stored, Expr.renamed_stored visits.length_eq]
  have same : result = p ↔ Expr.renamed p.conditions results = 0 := by
    rw [← Expr.stored_all_iff visits.length_eq, ← stored]
    exact ⟨congrArg Program.conditions, Program.eq_of_skeleton skeleton⟩
  refine ⟨result, changed, after, results, run, skeleton, visits, stored, visited, counted, flag,
    ?_, ?_⟩
  · rw [flag, Nat.pos_iff_ne_zero, ne_eq, ne_eq, same]
  · intro handed
    rw [stored]
    apply visits.stored_eq
    intro c member
    rcases handed c member with ⟨identified, made⟩
    exact ⟨identified, by simpa using made⟩

/-- In a `do` statement around an `if` around a `while`, the condition of the `do` comes
first. -/
theorem Program.simplify_visits_nested_conditions :
    let solver : Solver Unit := (⟨8, fun bound _ => bound == 0⟩ : Exhaustive).toSolver
    let bounded : Expr :=
      .binary 3 .le (.var 1 ⟨"x", .int 8 false⟩) (.lit 2 ⟨255, .int 8 false⟩)
    let negated : Expr := .unary 5 .lnot (.var 4 ⟨"y", .bool⟩)
    let wrapped : Expr := .paren 7 (.var 6 ⟨"z", .bool⟩)
    let body : Statement := .block [.ifElse bounded (.whileDo negated .breakLoop) (.eval bounded)]
    let p : Program := ⟨[{ name := "main", body := .doWhile body wrapped, address := some 0x1000 }]⟩
    let session := (Session.start solver () ⟨4, {}⟩ {}).after [.supply ⟨8, {}⟩]
    (∀ c ∈ p.conditions, Expr.Identified [c] ∧ ∀ node ∈ c.nodes, node.id < session.nodes.next) ∧
    ∃ result changed after, p.simplify session = (.ok (result, changed), after) ∧
      Visits session [wrapped, bounded, negated] after result.conditions ∧
      after.statistics.conditionsVisited = 3 ∧ (changed = true ↔ result ≠ p) := by
  intro solver bounded negated wrapped body p session
  have order : p.conditions = [wrapped, bounded, negated] := rfl
  have handed : ∀ c ∈ p.conditions, Expr.Identified [c] ∧ ∀ node ∈ c.nodes, node.id < 8 := by
    rw [order]
    simp [Expr.Identified, bounded, negated, wrapped, Expr.nodesOf, Expr.nodes, Expr.id,
      Expr.anonymous]
  obtain ⟨result, changed, after, results, run, _, visits, _, counted, _, _, flag, kept⟩ :=
    Program.simplify_visits_conditions solver () ⟨4, {}⟩ {} [.supply ⟨8, {}⟩] p
  rw [← kept handed] at visits
  exact ⟨handed, result, changed, after, run, visits, counted, flag⟩

end Condense
