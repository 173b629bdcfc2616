import Condense.Solver.Basic
import Condense.Term.Eval

/-!
# Deciding by enumeration

Tries every assignment of the free constants in turn. Assignments are numbered: the
lowest bits of the number are the value of the first constant by name, the next bits that
of the second, and so on. A query with too many free bits is refused.
-/

namespace Condense

set_option autoImplicit false

def SmtSort.value (sort : SmtSort) (number : Nat) : Value :=
  match sort with
  | bool => .bool (number != 0)
  | bitVec bits => .ofWord number.toUInt64 bits

namespace Constants

def bits : Constants → Nat
  | [] => 0
  | (_, sort) :: rest => sort.bits + Constants.bits rest

/-- The number of models that give each constant a value of its sort. -/
def count : Constants → Nat
  | [] => 1
  | (_, sort) :: rest => Constants.count rest <<< sort.bits

/-- The model with the given number. -/
def model : Constants → Nat → Model
  | [], _, _ => none
  | (constant, sort) :: rest, number, name =>
      if name = constant then some (sort.value (number % (1 <<< sort.bits)))
      else Constants.model rest (number >>> sort.bits) name

end Constants

structure Exhaustive where
  /-- The widest query accepted, in free bits. -/
  maxBits : Nat := 20
  /-- The clock: whether a bound of so many milliseconds has passed when the assignment
  of a given number is reached. By default only a bound of zero ever passes. -/
  expired : UInt64 → Nat → Bool := fun bound _ => bound == 0

namespace Exhaustive

/-- The clock is read at every 1024th assignment. -/
def isLate (solver : Exhaustive) (strategy : Strategy) (number : Nat) : Bool :=
  match strategy.timeout with
  | some bound => number % 1024 == 0 && solver.expired bound number
  | none => false

/-- Tries `left` assignments, from the one numbered `number` on. -/
def search (late : Nat → Bool) (t : Term) (constants : Constants) (number : Nat) :
    Nat → Except Fault Outcome
  | 0 => .ok .unsat
  | left + 1 =>
      if late number then
        .error (.exhausted "enumeration exceeded the tactic's time bound")
      else match t.eval (constants.model number) with
        | .ok (.bool true) => .ok .sat
        | .ok (.bool false) => search late t constants (number + 1) left
        | .ok (.bitVec _ _) => .error (.sort ("assertion " ++ t.text ++ " is not a Bool"))
        | .error fault => .error fault

def check (solver : Exhaustive) (t : Term) (strategy : Strategy) : Except Fault Outcome :=
  let constants := t.constants
  let bits := constants.bits
  if solver.maxBits < bits ∨ 64 ≤ bits then
    .error (.exhausted
      (toString bits ++ " free bits exceeds the limit of " ++ toString solver.maxBits))
  else search (solver.isLate strategy) t constants 0 constants.count

def toSolver (solver : Exhaustive) : Solver Unit :=
  .stateless fun t strategy => { result := solver.check t strategy }

end Exhaustive

end Condense
