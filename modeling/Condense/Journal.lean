import Condense.Expr.Text
import Condense.Fault
import Condense.Term.Basic

/-!
# The journal

What happens while a condition is simplified is kept as events. An event has a level of
importance and a text; the text is made only when somebody reads the journal.
-/

namespace Condense

set_option autoImplicit false

inductive Verdict where
  /-- It holds under every assignment. -/
  | isTrue
  /-- It holds under none. -/
  | isFalse
  | unknown
  deriving DecidableEq

def Verdict.text : Verdict → String
  | isTrue => "proven true"
  | isFalse => "proven false"
  | unknown => "unknown"

inductive Claim where
  | truth
  | falsity
  | equivalence
  deriving DecidableEq

def Claim.text : Claim → String
  | truth => "true"
  | falsity => "false"
  | equivalence => "equivalent"

inductive Polarity where
  | positive
  | negative
  deriving DecidableEq

def Polarity.text : Polarity → String
  | positive => "True"
  | negative => "False"

inductive Stage where
  | unvisited
  /-- Identities and operand folding have run. -/
  | childrenSimplified
  /-- The whole condition has been put to the cache. -/
  | conditionEvaluated
  /-- A new expression stands in the condition's place. -/
  | settled
  deriving DecidableEq

def Stage.text : Stage → String
  | unvisited => "unvisited"
  | childrenSimplified => "children simplified"
  | conditionEvaluated => "condition evaluated"
  | settled => "rewritten"

inductive Level where
  | trace
  | debug
  | info
  | warn
  | error
  deriving DecidableEq

inductive Event where
  | encoded (e : Expr) (t : Term)
  | notEncoded (e : Expr) (fault : Fault)
  | proven (e : Expr) (claim : Claim)
  | notProven (e : Expr) (claim : Claim)
  | solverFailed (e : Expr) (claim : Claim) (fault : Fault)
  | sent (script : String)
  | hit (e : Expr) (polarity : Polarity) (answer : Bool)
  | conflict (e : Expr)
  | decided (e : Expr) (verdict : Verdict)
  | moved (condition : Expr) (before after : Stage)
  | gaveUp (condition : Expr) (limit : Nat) (result : Expr)
  | replaced (condition result : Expr)
  | finished (name : String) (changed : Bool)

namespace Event

def level : Event → Level
  | encoded .. | notProven .. | sent _ | hit .. | moved .. => .trace
  | notEncoded .. | proven .. | solverFailed .. | decided .. | replaced .. | finished .. =>
      .debug
  | gaveUp .. => .warn
  | conflict _ => .error

def text : Event → String
  | encoded e t => "translated " ++ e.text ++ " to " ++ t.text
  | notEncoded e fault => "not proving " ++ e.text ++ ": " ++ fault.message
  | proven e claim => e.text ++ " proven " ++ claim.text
  | notProven e claim => e.text ++ " not proven " ++ claim.text
  | solverFailed e claim fault =>
      e.text ++ " not proven " ++ claim.text ++ ": " ++ fault.message
  | sent script => "z3 script:\n" ++ script
  | hit e polarity answer =>
      "cache hit for " ++ e.text ++ " (" ++ polarity.text ++ "): "
        ++ (if answer then "true" else "false")
  | conflict e => e.text ++ " proven both true and false, refusing to cache"
  | decided e verdict => e.text ++ " is " ++ verdict.text
  | moved condition before after =>
      condition.text ++ ": " ++ before.text ++ " -> " ++ after.text
  | gaveUp condition limit result =>
      condition.text ++ " did not reach a fixpoint within " ++ toString limit
        ++ " iterations, stopping at " ++ result.text
  | replaced condition result => "rewrote " ++ condition.text ++ " to " ++ result.text
  | finished name changed => name ++ ": " ++ (if changed then "simplified" else "unchanged")

end Event

end Condense
