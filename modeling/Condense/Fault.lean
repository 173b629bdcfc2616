/-!
# Faults

Everything that can go wrong, by cause, and the one place where a cause becomes a
message. The detail is prose that names the offending expression, term or text.
-/

namespace Condense

set_option autoImplicit false

inductive Fault where
  /-- The expression has no meaning in the solver's theory. -/
  | unsupported (detail : String)
  /-- The solver could not decide the query. -/
  | inconclusive
  /-- A limit on width or time was reached. -/
  | exhausted (detail : String)
  /-- One class of expressions was proven both true and false. -/
  | inconsistent (detail : String)
  | solver (detail : String)
  | unexpectedStatement (detail : String)
  | sort (detail : String)
  /-- A free constant has no value in the model. -/
  | missingValue (name : String)
  /-- The solver's process could not be run. -/
  | io (detail : String)
  | json
  | custom (detail : String)
  deriving DecidableEq

def Fault.message : Fault → String
  | unsupported detail => "Expression cannot be translated to a formula: " ++ detail
  | inconclusive => "Solver could not decide the query"
  | exhausted detail => "Solver resources exhausted: " ++ detail
  | inconsistent detail => "Expression proven both true and false: " ++ detail
  | solver detail => "Solver error: " ++ detail
  | unexpectedStatement detail => "Unexpected statement: " ++ detail
  | sort detail => "Sort mismatch: " ++ detail
  | missingValue name => "Free constant " ++ name ++ " has no value in the model"
  | io detail => detail
  | json => "invalid JSON"
  | custom detail => detail

end Condense
