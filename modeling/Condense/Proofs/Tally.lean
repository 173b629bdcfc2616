import Mathlib.Data.Finset.Card
import Condense.Proofs.Consistency
import Condense.Solver.Exhaustive

/-!
# Counting the questions of the cache

What is looked up is a topic: a class of equivalent expressions and one of the two opposite
facts. Over any questions of which none fails, each lookup is a hit or files an entry, each
entry was one consultation of the oracle, and there is one entry for each topic. So the
oracle is consulted once for each topic, and what it says then is the answer to every lookup of
the topic. An id has to stand for one content; nothing is asked of the solver.
-/

namespace Condense

set_option autoImplicit false

section Topics

def Expr.equivalence : Setoid Expr where
  r a b := a.isEquiv b = true
  iseqv := {
    refl := Expr.is_equiv_refl
    symm := fun {a b} equivalent => (Expr.is_equiv_comm b a).trans equivalent
    trans := Expr.is_equiv_trans }

abbrev Expr.Class : Type :=
  Quotient Expr.equivalence

instance : DecidableEq Expr.Class :=
  @Quotient.decidableEq _ Expr.equivalence fun a b =>
    inferInstanceAs (Decidable (a.isEquiv b = true))

def Expr.classOf (e : Expr) : Expr.Class :=
  Quotient.mk Expr.equivalence e

theorem Expr.class_of_eq {a b : Expr} : a.classOf = b.classOf ↔ a.isEquiv b = true :=
  Quotient.eq (r := Expr.equivalence)

/-- What a lookup is about: one of two opposite facts about a class. -/
abbrev Topic : Type :=
  Polarity × Expr.Class

/-- A lookup that was made: the prover at the time, the question and the answer. -/
structure Lookup (σ : Type) where
  prover : Prover σ
  polarity : Polarity
  e : Expr
  answer : Bool

def Lookup.topic {σ : Type} (lookup : Lookup σ) : Topic :=
  (lookup.polarity, lookup.e.classOf)

def Lookup.first? {σ : Type} (made : List (Lookup σ)) (topic : Topic) : Option (Lookup σ) :=
  made.find? fun lookup => lookup.topic = topic

def Entry.topic (polarity : Polarity) (entry : Entry) : Topic :=
  (polarity, entry.representative.classOf)

def Cache.topics (cache : Cache) : List Topic :=
  cache.positive.map (Entry.topic .positive) ++ cache.negative.map (Entry.topic .negative)

end Topics

section Lookups

variable {σ : Type}

theorem Except.bind_eq_ok {α β : Type} {value : Except Fault α} {next : α → Except Fault β}
    {b : β} (run : value >>= next = .ok b) : ∃ a, value = .ok a ∧ next a = .ok b := by
  cases value with
  | error fault => cases run
  | ok a => exact ⟨a, rfl, run⟩

/-- The lookups that a question makes, if it does not fail. A verdict asks about falsity
when truth is not proven. -/
def Question.lookups (prover : Prover σ) : Question → Except Fault (List (Lookup σ))
  | proven polarity e => do
      let answer ← (Prover.lookup polarity e prover).1
      return [⟨prover, polarity, e, answer⟩]
  | verdict e => do
      let verdict ← (Prover.verdict e prover).1
      let middle := (Prover.lookup .positive e prover).2
      match verdict with
      | .isTrue => return [⟨prover, .positive, e, true⟩]
      | .isFalse => return [⟨prover, .positive, e, false⟩, ⟨middle, .negative, e, true⟩]
      | .unknown => return [⟨prover, .positive, e, false⟩, ⟨middle, .negative, e, false⟩]
  | contains _ _ => return []

def Prover.lookups (prover : Prover σ) : List Question → Except Fault (List (Lookup σ))
  | [] => return []
  | question :: rest => do
      let first ← question.lookups prover
      return first ++ (← (question.ask prover).lookups rest)

end Lookups

section Consultations

variable {σ : Type}

/-- How often the oracle was asked, whether the condition had a term or not. -/
def Oracle.consultations (oracle : Oracle σ) : Nat :=
  oracle.queries + oracle.failures

theorem Oracle.refutes_consultations (t : Term) (e : Expr) (claim : Claim) (oracle : Oracle σ) :
    (refutes t e claim oracle).2.consultations = oracle.consultations + 1 := by
  have asked : (ask t oracle).2.consultations = oracle.consultations + 1 :=
    Nat.add_right_comm _ _ _
  unfold refutes
  rw [StateM.bind_run]
  cases (ask t oracle).1 with
  | ok outcome => cases outcome <;> exact asked
  | error fault => cases fault <;> exact asked

theorem Oracle.query_consultations (polarity : Polarity) (e : Expr) (oracle : Oracle σ) :
    (query polarity e oracle).2.consultations = oracle.consultations + 1 := by
  rw [query_eq, StateM.bind_run]
  unfold encode
  cases e.encode with
  | ok t => exact refutes_consultations _ e _ _
  | error unsupported => rfl

/-- The oracle is consulted exactly if the class has no answer. -/
theorem Prover.lookup_consultations (prover : Prover σ) (polarity : Polarity) (e : Expr) :
    (lookup polarity e prover).2.oracle.consultations = prover.oracle.consultations +
      if prover.kept? polarity e = none then 1 else 0 := by
  unfold kept? lookup
  rw [ExceptT.lift_bind_run, ExceptT.get_bind_run]
  cases (digest e prover).2.find? polarity (digest e prover).1 e with
  | some proven => rfl
  | none =>
      have asked : (consult (Oracle.query polarity e) (digest e prover).2).2.oracle.consultations
          = prover.oracle.consultations + 1 :=
        Oracle.query_consultations polarity e prover.oracle
      dsimp only
      rw [ExceptT.lift_bind_run, ExceptT.get_bind_run, if_pos rfl]
      split <;> exact asked

end Consultations

namespace Prover

variable {σ : Type} {table : NodeId → UInt64} {oracle : Oracle σ} {made : List (Lookup σ)}
  {prover after : Prover σ} {polarity : Polarity} {e : Expr}

theorem size_insert (cache : Cache) (polarity : Polarity) (entry : Entry) :
    (cache.insert polarity entry).size = cache.size + 1 := by
  cases polarity with
  | positive => exact Nat.add_right_comm _ _ _
  | negative => exact (Nat.add_assoc _ _ _).symm

structure Tallied (table : NodeId → UInt64) (oracle : Oracle σ) (made : List (Lookup σ))
    (prover : Prover σ) : Prop where
  consistent : prover.Consistent table
  counted : made.length = prover.cache.hits + prover.cache.size
  consulted : prover.oracle.consultations = oracle.consultations + prover.cache.size
  answered : ∀ lookup ∈ made, ∃ entry ∈ prover.cache.entries lookup.polarity,
    entry.representative.isEquiv lookup.e = true ∧ entry.proven = lookup.answer
  first : ∀ polarity, ∀ entry ∈ prover.cache.entries polarity, ∃ lookup,
    Lookup.first? made (entry.topic polarity) = some lookup ∧
      entry.proven = lookup.prover.oracle.answer polarity lookup.e

theorem mem_of_first {topic : Topic} {lookup : Lookup σ}
    (found : Lookup.first? made topic = some lookup) : lookup ∈ made ∧ lookup.topic = topic := by
  unfold Lookup.first? at found
  exact ⟨List.mem_of_find?_eq_some found, of_decide_eq_true (List.find?_some found :)⟩

theorem first_append {topic : Topic} {lookup : Lookup σ}
    (found : Lookup.first? made topic = some lookup) (more : List (Lookup σ)) :
    Lookup.first? (made ++ more) topic = some lookup := by
  unfold Lookup.first? at found ⊢
  rw [List.find?_append, found, Option.some_or]

theorem first_of_new {topic : Topic} {lookup : Lookup σ}
    (unasked : Lookup.first? made topic = none) (about : lookup.topic = topic) :
    Lookup.first? (made ++ [lookup]) topic = some lookup := by
  unfold Lookup.first? at unasked ⊢
  rw [List.find?_append, unasked, Option.none_or]
  exact List.find?_cons_of_pos (decide_eq_true about)

theorem start_tallied (oracle : Oracle σ) : Tallied table oracle [] { oracle } where
  consistent := start_consistent oracle
  counted := rfl
  consulted := rfl
  answered := by simp
  first := by simp

/-- A hit leaves the entries as they are. -/
theorem Tallied.hit (tallied : Tallied table oracle made prover) (tabled : e.Tabled table)
    {proven : Bool} (recalled : prover.kept? polarity e = some proven)
    (consistent : after.Consistent table)
    (cache : after.cache = { prover.cache with hits := prover.cache.hits + 1 })
    (consulted : after.oracle.consultations = prover.oracle.consultations) :
    Tallied table oracle (made ++ [⟨prover, polarity, e, proven⟩]) after := by
  have entries (polarity : Polarity) :
      after.cache.entries polarity = prover.cache.entries polarity := by
    rw [cache]
    exact entries_hit _ _ polarity
  have size : after.cache.size = prover.cache.size := by
    rw [cache]
    rfl
  constructor
  case consistent => exact consistent
  case counted =>
    have hits : after.cache.hits = prover.cache.hits + 1 := by rw [cache]
    rw [List.length_append, List.length_singleton, tallied.counted, size, hits]
    exact Nat.add_right_comm _ _ _
  case consulted => rw [consulted, tallied.consulted, size]
  case answered =>
    intro lookup member
    rw [entries]
    rcases List.mem_append.mp member with earlier | new
    · exact tallied.answered lookup earlier
    · rw [List.mem_singleton.mp new]
      exact (tallied.consistent.kept_eq_some tabled).mp recalled
  case first =>
    intro other entry member
    rw [entries] at member
    obtain ⟨lookup, found, same⟩ := tallied.first other entry member
    exact ⟨lookup, first_append found _, same⟩

/-- A miss is the first lookup of its topic, and files what the oracle says. -/
theorem Tallied.miss (tallied : Tallied table oracle made prover) (tabled : e.Tabled table)
    (unasked : prover.kept? polarity e = none) (consistent : after.Consistent table)
    (looked : Looked prover polarity e after (.ok (prover.oracle.answer polarity e)))
    (cache : after.cache = prover.cache.insert polarity
      ⟨(digest e prover).1, e, prover.oracle.answer polarity e⟩)
    (consulted : after.oracle.consultations = prover.oracle.consultations + 1) :
    Tallied table oracle
      (made ++ [⟨prover, polarity, e, prover.oracle.answer polarity e⟩]) after := by
  have size : after.cache.size = prover.cache.size + 1 := by
    rw [cache]
    exact size_insert _ _ _
  -- An earlier lookup of the topic would have left an entry for it.
  have new : Lookup.first? made (polarity, e.classOf) = none := by
    refine List.find?_eq_none.mpr fun lookup member => ?_
    rw [decide_eq_true_iff]
    intro same
    obtain ⟨rfl, classes⟩ := Prod.mk.inj same
    obtain ⟨entry, filed, equivalent, _⟩ := tallied.answered lookup member
    have found : entry.representative.isEquiv e = true :=
      Expr.is_equiv_trans equivalent (Expr.class_of_eq.mp classes)
    rw [(tallied.consistent.kept_eq_none tabled).mp unasked entry filed] at found
    cases found
  constructor
  case consistent => exact consistent
  case counted =>
    have hits : after.cache.hits = prover.cache.hits := by
      rw [cache]
      cases polarity <;> rfl
    rw [List.length_append, List.length_singleton, tallied.counted, size, hits, Nat.add_assoc]
  case consulted => rw [consulted, tallied.consulted, size, Nat.add_assoc]
  case answered =>
    intro lookup member
    rcases List.mem_append.mp member with earlier | new
    · obtain ⟨entry, filed, same⟩ := tallied.answered lookup earlier
      exact ⟨entry, looked.subset _ filed, same⟩
    · rw [List.mem_singleton.mp new, cache, entries_insert, if_pos rfl]
      exact ⟨_, List.mem_cons_self, Expr.is_equiv_refl e, rfl⟩
  case first =>
    intro other entry member
    rcases looked.mem_entries member with earlier | ⟨rfl, _, _, rfl⟩
    · obtain ⟨lookup, found, same⟩ := tallied.first other entry earlier
      exact ⟨lookup, first_append found _, same⟩
    · exact ⟨_, first_of_new new rfl, rfl⟩

theorem Tallied.lookup (tallied : Tallied table oracle made prover) (tabled : e.Tabled table)
    {answer : Bool} (run : lookup polarity e prover = (.ok answer, after)) :
    Tallied table oracle (made ++ [⟨prover, polarity, e, answer⟩]) after := by
  have consistent := lookup_consistent tallied.consistent tabled polarity
  have consulted := lookup_consultations prover polarity e
  obtain ⟨result, after', run', looked, _⟩ := lookup_cases prover polarity e
  rw [run] at run' consistent consulted
  cases run'
  cases looked with
  | hit recalled cache =>
      rw [recalled] at consulted
      exact tallied.hit tabled recalled consistent cache consulted
  | miss unasked unopposed cache =>
      rw [if_pos unasked] at consulted
      exact tallied.miss tabled unasked consistent (.miss unasked unopposed cache) cache consulted

theorem Tallied.ask (tallied : Tallied table oracle made prover) {question : Question}
    (tabled : question.about.Tabled table) {more : List (Lookup σ)}
    (run : question.lookups prover = .ok more) :
    Tallied table oracle (made ++ more) (question.ask prover) := by
  cases question with
  | proven polarity e =>
      obtain ⟨answer, given, run⟩ := Except.bind_eq_ok run
      cases run
      exact tallied.lookup tabled (Prod.ext given rfl)
  | verdict e =>
      obtain ⟨verdict, given, run⟩ := Except.bind_eq_ok run
      have asked : Prover.verdict e prover = (.ok verdict, Question.ask prover (.verdict e)) :=
        Prod.ext given rfl
      rcases verdict_eq_ok asked with ⟨rfl, first⟩ | ⟨middle, fails, first, second, rfl⟩
      · cases run
        exact tallied.lookup tabled first
      · have both := (tallied.lookup tabled first).lookup tabled second
        rw [List.append_assoc] at both
        rw [first] at run
        cases fails with
        | true =>
            cases run
            exact both
        | false =>
            cases run
            exact both
  | contains polarity e =>
      cases run
      rw [List.append_nil]
      exact ⟨digest_consistent tallied.consistent tabled, tallied.counted, tallied.consulted,
        tallied.answered, tallied.first⟩

theorem Tallied.asked (tallied : Tallied table oracle made prover) {questions : List Question}
    (tabled : ∀ question ∈ questions, question.about.Tabled table) {more : List (Lookup σ)}
    (run : prover.lookups questions = .ok more) :
    Tallied table oracle (made ++ more) (prover.asked questions) := by
  induction questions generalizing prover made more with
  | nil =>
      cases run
      rw [List.append_nil]
      exact tallied
  | cons question rest ih =>
      rw [List.forall_mem_cons] at tabled
      obtain ⟨first, asked, run⟩ := Except.bind_eq_ok run
      obtain ⟨others, later, run⟩ := Except.bind_eq_ok run
      cases run
      rw [← List.append_assoc]
      exact ih (tallied.ask tabled.1 asked) tabled.2 later

theorem mem_topics {cache : Cache} {topic : Topic} :
    topic ∈ cache.topics ↔ ∃ entry ∈ cache.entries topic.1, entry.topic topic.1 = topic := by
  obtain ⟨polarity, cls⟩ := topic
  cases polarity <;> simp [Cache.topics, Cache.entries, Entry.topic]

/-- There is one entry for each topic that was looked up. -/
theorem Tallied.size_eq (tallied : Tallied table oracle made prover) :
    prover.cache.size = (made.map Lookup.topic).toFinset.card := by
  have distinct (polarity : Polarity) :
      ((prover.cache.entries polarity).map (Entry.topic polarity)).Nodup := by
    have classes := tallied.consistent.distinct polarity
    rw [List.Nodup, List.pairwise_map] at classes ⊢
    apply classes.imp
    intro a b differ same
    have equivalent := Expr.class_of_eq.mp (Prod.mk.inj same).2
    exact differ ((Expr.is_equiv_iff_canon _ _).mp equivalent)
  have nodup : prover.cache.topics.Nodup := by
    refine List.Nodup.append (distinct .positive) (distinct .negative) ?_
    intro topic left right
    obtain ⟨a, _, rfl⟩ := List.mem_map.mp left
    obtain ⟨b, _, same⟩ := List.mem_map.mp right
    cases (Prod.mk.inj same).1
  have same : (made.map Lookup.topic).toFinset = prover.cache.topics.toFinset := by
    ext topic
    rw [List.mem_toFinset, List.mem_toFinset, mem_topics, List.mem_map]
    constructor
    · rintro ⟨lookup, member, rfl⟩
      obtain ⟨entry, filed, equivalent, _⟩ := tallied.answered lookup member
      exact ⟨entry, filed, congrArg _ (Expr.class_of_eq.mpr equivalent)⟩
    · rintro ⟨entry, filed, about⟩
      obtain ⟨lookup, found, _⟩ := tallied.first topic.1 entry filed
      exact ⟨lookup, (mem_of_first found).1, (mem_of_first found).2.trans about⟩
  rw [same, List.toFinset_card_of_nodup nodup]
  simp [Cache.topics, Cache.size]

/-- Every lookup gets what the oracle said at the first lookup of its topic. -/
theorem Tallied.answer_eq (tallied : Tallied table oracle made prover) {lookup : Lookup σ}
    (member : lookup ∈ made) :
    ∃ first, Lookup.first? made lookup.topic = some first ∧
      lookup.answer = (Oracle.query first.polarity first.e first.prover.oracle).1 := by
  obtain ⟨entry, filed, equivalent, proven⟩ := tallied.answered lookup member
  obtain ⟨first, found, answer⟩ := tallied.first lookup.polarity entry filed
  have topic : entry.topic lookup.polarity = lookup.topic :=
    congrArg (Prod.mk lookup.polarity) (Expr.class_of_eq.mpr equivalent)
  rw [topic] at found
  have polarity : first.polarity = lookup.polarity := (Prod.mk.inj (mem_of_first found).2).1
  refine ⟨first, found, ?_⟩
  rw [← proven, answer, (Oracle.query_run first.polarity first.e first.prover.oracle).1, polarity]

/-- For any solver and any questions in which an id stands for one content, put to a new
cache and none of them failing: the lookups are the hits and the entries, each entry is one
consultation of the oracle, there is one for each topic, and each lookup is answered with
what the oracle said at the first lookup of its topic. -/
theorem consults_once_per_topic (oracle : Oracle σ) (questions : List Question)
    (identified : Expr.Identified (questions.map Question.about)) (made : List (Lookup σ))
    (run : ({ oracle } : Prover σ).lookups questions = .ok made) :
    let prover := ({ oracle } : Prover σ).asked questions
    made.length = prover.cache.hits + prover.cache.size ∧
    prover.oracle.queries + prover.oracle.failures
      = oracle.queries + oracle.failures + prover.cache.size ∧
    prover.cache.size = (made.map Lookup.topic).toFinset.card ∧
    ∀ lookup ∈ made, ∃ first, Lookup.first? made lookup.topic = some first ∧
      lookup.answer = (Oracle.query first.polarity first.e first.prover.oracle).1 := by
  obtain ⟨table, tabled⟩ := identified.exists_table
  have tallied : Tallied table oracle made (({ oracle } : Prover σ).asked questions) := by
    apply (start_tallied oracle).asked _ run
    intro question member
    exact tabled _ (List.mem_map_of_mem member)
  exact ⟨tallied.counted, tallied.consulted, tallied.size_eq, fun _ => tallied.answer_eq⟩

/-- Verdicts about `x`, `(x)` and `x` again: two topics, and the oracle is consulted twice. -/
theorem consults_once_per_topic_wrapped :
    let oracle : Oracle Unit := { solver := ({} : Exhaustive).toSolver, memory := () }
    let x : Expr := .var 1 ⟨"x", .bool⟩
    let questions : List Question := [.verdict x, .verdict (.paren 2 x), .proven .negative x]
    let prover := ({ oracle } : Prover Unit).asked questions
    Expr.Identified (questions.map Question.about) ∧
    ∃ made, ({ oracle } : Prover Unit).lookups questions = .ok made ∧ made.length = 5 ∧
      (made.map Lookup.topic).toFinset.card = 2 ∧
      prover.oracle.queries + prover.oracle.failures = 2 := by
  intro oracle x questions prover
  have identified : Expr.Identified (questions.map Question.about) := by
    simp [Expr.Identified, questions, x, Question.about, Expr.nodesOf, Expr.nodes, Expr.id,
      Expr.anonymous]
  have succeeds : (({ oracle } : Prover Unit).lookups questions).toBool = true := by
    decide +kernel
  have hits : prover.cache.hits = 3 := by decide +kernel
  have size : prover.cache.size = 2 := by decide +kernel
  refine ⟨identified, ?_⟩
  cases run : ({ oracle } : Prover Unit).lookups questions with
  | error fault =>
      rw [run] at succeeds
      cases succeeds
  | ok made =>
      obtain ⟨lookups, consulted, topics, _⟩ :=
        consults_once_per_topic oracle questions identified made run
      refine ⟨made, rfl, ?_, topics.symm.trans size, ?_⟩
      · rw [lookups, hits, size]
      · have unused : oracle.queries + oracle.failures = 0 := rfl
        rw [consulted, size, unused]

end Prover

end Condense
