/-!
# Solving strategies

How a solver is told to go about a query, with time bounds. The text is the form that
`check-sat-using` takes.
-/

namespace Condense

set_option autoImplicit false

inductive Strategy where
  /-- A primitive tactic, such as `simplify` or `smt`. -/
  | named (name : String)
  /-- Each strategy in turn. -/
  | andThen (steps : List Strategy)
  /-- Each strategy in turn until one succeeds. -/
  | orElse (choices : List Strategy)
  /-- Gives up after a number of milliseconds. -/
  | tryFor (inner : Strategy) (milliseconds : UInt64)

namespace Strategy

mutual

def decEq : (a b : Strategy) → Decidable (a = b)
  | named a, named b => decidable_of_iff (a = b) (by simp)
  | andThen a, andThen b =>
      have := decEqs a b
      decidable_of_iff (a = b) (by simp)
  | orElse a, orElse b =>
      have := decEqs a b
      decidable_of_iff (a = b) (by simp)
  | tryFor a m, tryFor b n =>
      have := decEq a b
      decidable_of_iff (a = b ∧ m = n) (by simp)
  | named _, andThen _ | named _, orElse _ | named _, tryFor _ _
  | andThen _, named _ | andThen _, orElse _ | andThen _, tryFor _ _
  | orElse _, named _ | orElse _, andThen _ | orElse _, tryFor _ _
  | tryFor _ _, named _ | tryFor _ _, andThen _ | tryFor _ _, orElse _ => isFalse (by simp)

def decEqs : (a b : List Strategy) → Decidable (a = b)
  | [], [] => isTrue rfl
  | a :: as, b :: bs =>
      have := decEq a b
      have := decEqs as bs
      decidable_of_iff (a = b ∧ as = bs) (by simp)
  | [], _ :: _ | _ :: _, [] => isFalse (by simp)

end

instance : DecidableEq Strategy :=
  decEq

/-- Simplify, solve equations, then decide, within one second. -/
def standard : Strategy :=
  tryFor (andThen [named "simplify", named "solve-eqs", named "smt"]) 1000

def tighter : Option UInt64 → Option UInt64 → Option UInt64
  | some a, some b => some (min a b)
  | some a, none => some a
  | none, b => b

mutual

/-- The tightest time bound anywhere in the strategy, in milliseconds. -/
def timeout : Strategy → Option UInt64
  | named _ => none
  | andThen steps => timeoutOf steps
  | orElse choices => timeoutOf choices
  | tryFor inner milliseconds => tighter inner.timeout (some milliseconds)

def timeoutOf : List Strategy → Option UInt64
  | [] => none
  | s :: rest => tighter s.timeout (timeoutOf rest)

end

/-- Strategies under a combinator; none is `skip`, and a single one needs no name. -/
def combined (name : String) : List String → String
  | [] => "skip"
  | [one] => one
  | many => "(" ++ name ++ " " ++ " ".intercalate many ++ ")"

mutual

def text : Strategy → String
  | named name => name
  | andThen steps => combined "then" (textOf steps)
  | orElse choices => combined "or-else" (textOf choices)
  | tryFor inner milliseconds =>
      "(try-for " ++ inner.text ++ " " ++ toString milliseconds.toNat ++ ")"

def textOf : List Strategy → List String
  | [] => []
  | s :: rest => s.text :: textOf rest

end

end Strategy

end Condense
