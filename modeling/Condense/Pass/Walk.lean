import Condense.Pass.Simplify
import Condense.Statement

/-!
# Simplifying statements and programs

Every condition of a statement is simplified once, a control statement's own before
those inside its bodies; nothing but conditions changes. A condition is replaced only if its
simplification has another id. Each function also tells whether any condition was.
-/

namespace Condense

set_option autoImplicit false

variable {σ : Type}

namespace Statement

def simplifyCondition (s : Statement) : Pass σ (Statement × Bool) := do
  match s.condition? with
  | some condition =>
      let result ← condition.simplify
      if result.id = condition.id then return (s, false)
      else return (s.setCondition result, true)
  | none => throw (.unexpectedStatement (s.kindName ++ " has no condition"))

/-- Simplifies the condition of a control statement of the wanted kind. -/
def simplifyControl (wanted : Control) (s : Statement) : Pass σ (Statement × Bool) :=
  if s.control? = some wanted then s.simplifyCondition
  else throw (.unexpectedStatement
    ("expected " ++ wanted.text ++ ", found " ++ s.kindName))

mutual

def simplify : Statement → Pass σ (Statement × Bool)
  | block body => do
      let (body, changed) ← simplifyAll body
      return (block body, changed)
  | ifThen c yes => do
      let (own, changed) ← (ifThen c yes).simplifyControl .branch
      let (yes, yesChanged) ← yes.simplify
      return (own.setBodies [yes], changed || yesChanged)
  | ifElse c yes no => do
      let (own, changed) ← (ifElse c yes no).simplifyControl .branch
      let (yes, yesChanged) ← yes.simplify
      let (no, noChanged) ← no.simplify
      return (own.setBodies [yes, no], changed || yesChanged || noChanged)
  | whileDo c body => do
      let (own, changed) ← (whileDo c body).simplifyControl .whileLoop
      let (body, bodyChanged) ← body.simplify
      return (own.setBodies [body], changed || bodyChanged)
  | doWhile body c => do
      let (own, changed) ← (doWhile body c).simplifyControl .doLoop
      let (body, bodyChanged) ← body.simplify
      return (own.setBodies [body], changed || bodyChanged)
  | s => return (s, false)

def simplifyAll : List Statement → Pass σ (List Statement × Bool)
  | [] => return ([], false)
  | s :: rest => do
      let (s, changed) ← s.simplify
      let (rest, restChanged) ← simplifyAll rest
      return (s :: rest, changed || restChanged)

end

end Statement

def Routine.simplify (r : Routine) : Pass σ (Routine × Bool) := do
  let (body, changed) ← r.body.simplify
  Pass.note (.finished r.name changed)
  return ({ r with body }, changed)

def Routine.simplifyAll : List Routine → Pass σ (List Routine × Bool)
  | [] => return ([], false)
  | r :: rest => do
      let (r, changed) ← r.simplify
      let (rest, restChanged) ← Routine.simplifyAll rest
      return (r :: rest, changed || restChanged)

def Program.simplify (p : Program) : Pass σ (Program × Bool) := do
  let (routines, changed) ← Routine.simplifyAll p.routines
  return ({ routines }, changed)

end Condense
