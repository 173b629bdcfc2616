import Condense.Proofs.Enumeration
import Condense.Proofs.Fixpoints
import Condense.Proofs.Walks

/-!
# What is reached when the rounds settle

Where a simplification ends because a round changes nothing, no identity applies at any
node of the result, and what may be put to the prover has no verdict. With a solver that
enumerates, and no time bound that ever passes, no verdict means that there is none: an
answer in the cache, from this call or from an earlier one, says exactly whether the fact
is one that enumeration proves. So neither the result nor an operand of `&&` or `||` in it
is always or never true, as far as it can be decided at all.
-/

namespace Condense

set_option autoImplicit false

open Condense.Identities

namespace Expr

variable {e : Expr}

/-- No identity applies at any node, nor would the whole be taken out of parentheses or made
a boolean literal. -/
structure IsNormal (e : Expr) : Prop where
  irreducible : ∀ node ∈ e.nodes, ¬IsRedex node
  bare : ∀ id a, e ≠ .paren id a
  boolean : ¬e.IsInteger

theorem IsIdle.irreducible (idle : e.IsIdle) : ¬IsRedex e := by
  have outcome := at_node_outcome e ⟨0, {}⟩
  rw [idle] at outcome
  exact (idle_of_outcome outcome rfl).2

theorem Settled.normal {undecided : Expr → Prop} {folds : Bool}
    (settled : Settled undecided folds e) : e.IsNormal where
  irreducible := fun node inside => (settled.idle node inside).irreducible
  bare := settled.bare
  boolean := not_integer_of_collapse settled.boolean

def IsConstant (e : Expr) : Prop :=
  ∃ truth, ∀ store, Meaning.holds (e.value store) = truth

end Expr

namespace Exhaustive

variable {exhaustive : Exhaustive} {prover after : Prover Unit} {polarity : Polarity} {e : Expr}

def Proves (exhaustive : Exhaustive) (polarity : Polarity) (e : Expr) : Prop :=
  exhaustive.Covers e ∧ ∀ store, Meaning.holds (e.value store) = polarity.truth

theorem proves_of_is_equiv {a b : Expr} (equivalent : a.isEquiv b = true) :
    exhaustive.Proves polarity a ↔ exhaustive.Proves polarity b := by
  -- A strategy without a bound will do, since the facts do not depend on it.
  let oracle : Oracle Unit :=
    { solver := exhaustive.toSolver, memory := (), strategy := .named "smt" }
  have decides (e : Expr) : oracle.answer polarity e = true ↔ exhaustive.Proves polarity e :=
    Oracle.answer_eq_true rfl (fun _ => rfl) polarity e
  rw [← decides, ← decides, Oracle.answer_of_is_equiv equivalent]

/-- No time bound passes under the strategy. -/
def IsPunctual (exhaustive : Exhaustive) (strategy : Strategy) : Prop :=
  ∀ number, exhaustive.isLate strategy number = false

/-- The prover enumerates without time bounds that pass, and every answer that it keeps says
whether enumeration proves the fact. -/
structure Backs (exhaustive : Exhaustive) (prover : Prover Unit) : Prop where
  solver : prover.oracle.solver = exhaustive.toSolver
  punctual : exhaustive.IsPunctual prover.oracle.strategy
  entries : ∀ polarity, ∀ entry ∈ prover.cache.entries polarity,
    (entry.proven = true ↔ exhaustive.Proves polarity entry.representative)

namespace Backs

theorem consulted {oracle : Oracle Unit} (backs : exhaustive.Backs prover)
    (kept : Oracle.Kept prover.oracle oracle) : exhaustive.Backs { prover with oracle } where
  solver := kept.solver.trans backs.solver
  punctual := by
    show exhaustive.IsPunctual oracle.strategy
    rw [kept.strategy]
    exact backs.punctual
  entries := backs.entries

theorem lookup (backs : exhaustive.Backs prover) (polarity : Polarity) (e : Expr) :
    exhaustive.Backs (Prover.lookup polarity e prover).2 := by
  obtain ⟨result, after, run, looked, _, kept⟩ := Prover.lookup_cases prover polarity e
  rw [run]
  constructor
  case solver => exact kept.solver.trans backs.solver
  case punctual =>
    rw [kept.strategy]
    exact backs.punctual
  case entries =>
    intro other entry member
    rcases looked.mem_entries member with earlier | ⟨rfl, _, _, rfl⟩
    · exact backs.entries other entry earlier
    · exact Oracle.answer_eq_true backs.solver backs.punctual other e

theorem verdict (backs : exhaustive.Backs prover) (e : Expr) :
    exhaustive.Backs (Prover.verdict e prover).2 := by
  rcases Prover.verdict_after e prover with same | same
  · rw [same]
    exact backs.lookup .positive e
  · rw [same]
    exact (backs.lookup .positive e).lookup .negative e

/-- What is answered in the negative is not proven by enumeration. -/
theorem not_proves (backs : exhaustive.Backs prover)
    (answered : prover.Answered polarity e false) : ¬exhaustive.Proves polarity e := by
  obtain ⟨entry, member, _, equivalent, unproven⟩ := Prover.find_some answered.kept
  rw [← proves_of_is_equiv equivalent, ← backs.entries polarity entry member, unproven]
  exact Bool.false_ne_true

theorem not_constant (backs : exhaustive.Backs prover) (undecided : prover.Undecided e)
    (covers : exhaustive.Covers e) : ¬e.IsConstant := by
  rintro ⟨truth, constant⟩
  cases truth with
  | true => exact backs.not_proves undecided.positive ⟨covers, constant⟩
  | false => exact backs.not_proves undecided.negative ⟨covers, constant⟩

/-- Nothing that the pass does makes an answer wrong. -/
theorem evolution (exhaustive : Exhaustive) :
    Evolution fun (s : Session Unit) (_ : Expr) (t : Session Unit) (_ : Expr) =>
      exhaustive.Backs s.prover → exhaustive.Backs t.prover where
  refl := fun _ _ backs => backs
  trans := fun first second backs => second (first backs)
  counted := fun _ _ _ backs => backs
  told := fun _ _ _ backs => backs.consulted ⟨rfl, rfl⟩
  asked := by
    intro s e answer prover run backs
    have asked := backs.verdict e
    rwa [run] at asked
  rebuilt := fun below _ =>
    below.keeps (fun s : Session Unit => exhaustive.Backs s.prover) fun step => step
  renewed := fun below _ =>
    (below.keeps (fun s : Session Unit => exhaustive.Backs s.prover) fun step => step :)
  acted := fun _ backs => backs

variable {s t : Session Unit}

theorem simplify {c r : Expr} (backs : exhaustive.Backs s.prover)
    (run : c.simplify s = (.ok r, t)) : exhaustive.Backs t.prover := by
  obtain ⟨stage, u, journal, rounds, rfl⟩ := Pass.simplify_ends run
  exact ((evolution exhaustive).rounds rounds backs).consulted ⟨rfl, rfl⟩

theorem visits {conditions results : List Expr} (backs : exhaustive.Backs s.prover)
    (visits : Visits s conditions t results) : exhaustive.Backs t.prover := by
  induction visits with
  | nil s => exact backs
  | cons run rest ih => exact ih (backs.simplify run)
  | told journal rest ih => exact ih (backs.consulted ⟨rfl, rfl⟩)

end Backs

end Exhaustive

def Operation.followed? : Operation → Option Strategy
  | follow strategy => some strategy
  | _ => none

namespace Exhaustive

variable {exhaustive : Exhaustive} {session : Session Unit}

theorem Backs.operation (backs : exhaustive.Backs session.prover)
    (sequenced : session.prover.Sequenced) {operation : Operation}
    (punctual : ∀ strategy, operation.followed? = some strategy → exhaustive.IsPunctual strategy) :
    exhaustive.Backs (operation.run session).prover := by
  rcases Operation.run_visits sequenced operation with
    ⟨conditions, results, visits⟩ | ⟨polarity, e, rfl⟩ | ⟨strategy, rfl⟩ | ⟨nodes, rfl⟩
  · exact backs.visits visits
  · exact backs.consulted (Oracle.query_run polarity e session.prover.oracle).2
  · exact ⟨backs.solver, punctual strategy rfl, backs.entries⟩
  · exact backs

theorem Backs.operations (backs : exhaustive.Backs session.prover)
    (sequenced : session.prover.Sequenced) {operations : List Operation}
    (punctual : ∀ strategy ∈ operations.filterMap Operation.followed?,
      exhaustive.IsPunctual strategy) :
    exhaustive.Backs (session.after operations).prover := by
  induction operations generalizing session with
  | nil => exact backs
  | cons operation rest ih =>
      have now : ∀ strategy, operation.followed? = some strategy →
          exhaustive.IsPunctual strategy := by
        intro strategy followed
        exact punctual strategy (List.mem_filterMap.mpr ⟨operation, List.mem_cons_self, followed⟩)
      apply ih (backs.operation sequenced now)
      · exact Guarantee.sequenced.after_operation sequenced operation
      · intro strategy member
        obtain ⟨later, inside, followed⟩ := List.mem_filterMap.mp member
        exact punctual strategy
          (List.mem_filterMap.mpr ⟨later, List.mem_cons_of_mem _ inside, followed⟩)

theorem start_backs (nodes : Nodes) {options : Options}
    (punctual : exhaustive.IsPunctual options.strategy) :
    exhaustive.Backs (Session.start exhaustive.toSolver () nodes options).prover :=
  ⟨rfl, punctual, by simp [Session.start]⟩

end Exhaustive

/-- Over enumeration, in a session with any history under strategies of which no bound passes,
and with operands folded: where a simplification ends because a round changes nothing, its
result is normal. Neither the result nor an operand of `&&` or `||` anywhere in it is always or
never true, if it may be put to the prover and enumeration covers it. -/
theorem Expr.simplify_exhausts (exhaustive : Exhaustive) (nodes : Nodes) (options : Options)
    (operations : List Operation) (condition : Expr) (identified : Identified [condition])
    (made : ∀ node ∈ condition.nodes, node.id
      < ((Session.start exhaustive.toSolver () nodes options).after operations).nodes.next)
    (punctual : ∀ strategy ∈ options.strategy :: operations.filterMap Operation.followed?,
      exhaustive.IsPunctual strategy)
    (folds : ((Session.start exhaustive.toSolver () nodes options).after
      operations).options.foldOperands = true)
    (settles : condition.settles
      ((Session.start exhaustive.toSolver () nodes options).after operations) = true) :
    let session := (Session.start exhaustive.toSolver () nodes options).after operations
    ∃ result after, condition.simplify session = (.ok result, after) ∧ result.IsNormal ∧
      (result.IsOpen → exhaustive.Covers result → ¬result.IsConstant) ∧
      ∀ id op l r, .binary id op l r ∈ result.nodes → op.isLogical = true →
        ∀ operand ∈ [l, r], operand.IsProvable → exhaustive.Covers operand →
          ¬operand.IsConstant := by
  intro session
  rw [List.forall_mem_cons] at punctual
  have sequenced : session.prover.Sequenced :=
    Session.after_sequenced exhaustive.toSolver () nodes options operations
  have backs : exhaustive.Backs session.prover :=
    (Exhaustive.start_backs nodes punctual.1).operations (Prover.start_sequenced _) punctual.2
  obtain ⟨result, after, run, _⟩ := condition.simplify_succeeds sequenced
  obtain ⟨settled, _⟩ :=
    Pass.settled_of_simplify ⟨identified, by simpa using made⟩ sequenced settles run
  have backs' : exhaustive.Backs after.prover := backs.simplify run
  refine ⟨result, after, run, settled.normal, ?_, ?_⟩
  · intro isOpen
    exact backs'.not_constant (settled.whole isOpen)
  · intro id op l r inside logical operand member provable
    obtain ⟨left, right⟩ := settled.operands folds _ inside id op l r rfl logical
    simp only [List.mem_cons, List.not_mem_nil, or_false] at member
    rcases member with rfl | rfl
    · exact backs'.not_constant (left provable)
    · exact backs'.not_constant (right provable)

/-- In `f() && (!!x || y)` the call stays, and nothing beside it is always or never true. -/
theorem Expr.simplify_exhausts_with_call :
    let exhaustive : Exhaustive := { maxBits := 9 }
    let x : Expr := .var 1 ⟨"x", .int 8 false⟩
    let choice : Expr :=
      .binary 5 .lor (.unary 3 .lnot (.unary 2 .lnot x)) (.var 4 ⟨"y", .bool⟩)
    let condition : Expr := .binary 7 .land (.call 0 "f" .bool []) (.paren 6 choice)
    let operations : List Operation := [.condition x, .follow (.named "smt"), .supply ⟨8, {}⟩]
    let session := (Session.start exhaustive.toSolver () ⟨2, {}⟩ {}).after operations
    Identified [condition] ∧ (∀ node ∈ condition.nodes, node.id < session.nodes.next) ∧
    (∀ strategy ∈ [.standard, .named "smt"], exhaustive.IsPunctual strategy) ∧
    session.options.foldOperands = true ∧ condition.settles session = true ∧
    ∃ result after, condition.simplify session = (.ok result, after) ∧ result.IsNormal ∧
      ∀ id l r, .binary id .land l r ∈ result.nodes → r.IsProvable → exhaustive.Covers r →
        ¬r.IsConstant := by
  intro exhaustive x choice condition operations session
  have identified : Identified [condition] := by
    simp [Identified, condition, choice, x, nodesOf, nodes, Expr.id, anonymous]
  have made : ∀ node ∈ condition.nodes, node.id < session.nodes.next := by
    have supplied : session.nodes.next = 8 := rfl
    rw [supplied]
    simp [condition, choice, x, nodes, nodesOf, Expr.id]
  have punctual : ∀ strategy ∈ [.standard, .named "smt"], exhaustive.IsPunctual strategy := by
    refine List.forall_mem_cons.mpr ⟨fun number => ?_, List.forall_mem_singleton.mpr fun _ => rfl⟩
    have clock : exhaustive.isLate .standard number
        = (number % 1024 == 0 && (1000 : UInt64) == 0) := rfl
    rw [clock, Bool.and_eq_false_iff]
    exact .inr (by decide)
  have settles : condition.settles session = true := by decide +kernel
  obtain ⟨result, after, run, normal, _, operands⟩ := Expr.simplify_exhausts exhaustive ⟨2, {}⟩ {}
    operations condition identified made punctual (by decide +kernel) settles
  refine ⟨identified, made, punctual, by decide +kernel, settles, result, after, run, normal, ?_⟩
  intro id l r inside provable covers
  exact operands id .land l r inside rfl r (by simp) provable covers

end Condense
