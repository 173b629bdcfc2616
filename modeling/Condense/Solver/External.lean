import Condense.Solver.Basic
import Condense.Term.Sorting
import Condense.Text.Blank

/-!
# Deciding by an external program

Writes an SMT-LIB2 script for a query and reads the program's answer. The program itself
is a function from the script to its output; time bounds stay with the strategy unless a
bound on every query is set.
-/

namespace Condense

set_option autoImplicit false

structure External where
  path : String := "z3"
  /-- A bound on every query, in milliseconds. -/
  timeout : Option UInt64 := none

namespace External

def arguments (solver : External) : List String :=
  ["-smt2", "-in"] ++
    match solver.timeout with
    | some milliseconds => ["-t:" ++ toString milliseconds.toNat]
    | none => []

def declaration (constant : String × SmtSort) : String :=
  "(declare-const " ++ Term.symbol constant.1 ++ " " ++ constant.2.text ++ ")"

/-- Declares every free constant, asserts the term and asks for a decision. -/
def script (t : Term) (strategy : Strategy) : String :=
  "\n".intercalate (t.constants.map declaration ++
    ["(assert " ++ t.text ++ ")", "(check-sat-using " ++ strategy.text ++ ")", "(exit)\n"])

def readLine (line : List Char) : Option (Except Fault Outcome) :=
  let content := Text.trim line
  let said := String.ofList content
  if said = "sat" then some (.ok .sat)
  else if said = "unsat" then some (.ok .unsat)
  else if said = "unknown" ∨ said = "timeout" then some (.ok .unknown)
  else if Text.contains "error".toList content then some (.error (.solver said))
  else none

/-- The first line that says something decides. -/
def readOutput (output : String) : Except Fault Outcome :=
  match (Text.lines output.toList).findSome? readLine with
  | some answer => answer
  | none => .error (.solver
      ("no result in solver output: " ++ String.ofList (Text.trim output.toList)))

def check (respond : String → Except Fault String) (t : Term) (strategy : Strategy) :
    Reply :=
  let query := script t strategy
  { result := respond query >>= readOutput, events := [.sent query] }

/-- The solver whose program answers a script with `respond`. -/
def toSolver (respond : String → Except Fault String) : Solver Unit :=
  .stateless (check respond)

end External

end Condense
