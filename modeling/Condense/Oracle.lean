import Condense.Encode
import Condense.Solver.Basic

/-!
# The oracle

Proves conditions with a solver: a condition holds always when its negation cannot be
satisfied. A condition that has no term, a satisfiable negation, a solver that gives up
and a solver that fails all come to the same answer, "not proven"; none of them is a
fault of the caller.
-/

namespace Condense

set_option autoImplicit false

structure Oracle (σ : Type) where
  solver : Solver σ
  /-- What the solver remembers from earlier queries. -/
  memory : σ
  strategy : Strategy := .standard
  /-- Queries put to the solver. -/
  queries : Nat := 0
  /-- Conditions that had no term. -/
  failures : Nat := 0
  /-- Everything that has happened, the latest first. -/
  journal : List Event := []

namespace Oracle

variable {σ : Type}

def note (event : Event) : StateM (Oracle σ) Unit :=
  modify fun oracle => { oracle with journal := event :: oracle.journal }

def encode (e : Expr) : StateM (Oracle σ) (Option Term) := do
  match e.encode with
  | .ok t =>
      note (.encoded e t)
      return some t
  | .error unsupported =>
      modify fun oracle => { oracle with failures := oracle.failures + 1 }
      note (.notEncoded e unsupported.toFault)
      return none

def ask (t : Term) : StateM (Oracle σ) (Except Fault Outcome) := fun oracle =>
  let (reply, memory) := oracle.solver.check t oracle.strategy oracle.memory
  (reply.result, { oracle with
    memory
    queries := oracle.queries + 1
    journal := reply.events.reverse ++ oracle.journal })

/-- Whether the solver finds `t` unsatisfiable, which proves the claim about `e`. -/
def refutes (t : Term) (e : Expr) (claim : Claim) : StateM (Oracle σ) Bool := do
  match ← ask t with
  | .ok .unsat =>
      note (.proven e claim)
      return true
  | .ok _ | .error .inconclusive =>
      note (.notProven e claim)
      return false
  | .error fault =>
      note (.solverFailed e claim fault)
      return false

/-- Whether the condition is proven to hold always. -/
def prove (e : Expr) : StateM (Oracle σ) Bool := do
  match ← encode e with
  | some t => refutes (.not t) e .truth
  | none => return false

def proveFalse (e : Expr) : StateM (Oracle σ) Bool := do
  match ← encode e with
  | some t => refutes t e .falsity
  | none => return false

def verdict (e : Expr) : StateM (Oracle σ) Verdict := do
  if ← prove e then return .isTrue
  else if ← proveFalse e then return .isFalse
  else return .unknown

/-- Whether two conditions are proven to agree always. -/
def proveEquivalent (lhs rhs : Expr) : StateM (Oracle σ) Bool := do
  let l ← encode lhs
  let r ← encode rhs
  match l, r with
  | some l, some r => refutes (.not (.eq l r)) lhs .equivalence
  | _, _ => return false

def query (polarity : Polarity) (e : Expr) : StateM (Oracle σ) Bool :=
  match polarity with
  | .positive => prove e
  | .negative => proveFalse e

end Oracle

end Condense
