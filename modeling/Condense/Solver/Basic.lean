import Condense.Journal
import Condense.Strategy

/-!
# Solvers

A solver decides whether one `Bool` term can be satisfied. It may keep a memory from
query to query, may fail, and nothing is assumed about its answers.
-/

namespace Condense

set_option autoImplicit false

inductive Outcome where
  | sat
  | unsat
  /-- The solver gave up. -/
  | unknown
  deriving DecidableEq

def Outcome.text : Outcome → String
  | sat => "sat"
  | unsat => "unsat"
  | unknown => "unknown"

/-- The answer to a query, with what the solver wrote to the journal meanwhile. -/
structure Reply where
  result : Except Fault Outcome
  events : List Event := []

structure Solver (σ : Type) where
  check : Term → Strategy → σ → Reply × σ

def Solver.stateless (check : Term → Strategy → Reply) : Solver Unit :=
  ⟨fun t strategy memory => (check t strategy, memory)⟩

end Condense
