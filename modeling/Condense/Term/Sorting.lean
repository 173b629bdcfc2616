import Condense.Fault
import Condense.Term.Basic

/-!
# Sorts and free constants of terms

`Term.sort` accepts exactly the well-sorted terms and says where any other term goes
wrong. `Term.constants` lists the free constants by name; of two occurrences of a name
the later one decides the sort.
-/

namespace Condense

set_option autoImplicit false

namespace Term

def demand (t : Term) (wanted actual : SmtSort) : Except Fault Unit :=
  if actual = wanted then .ok ()
  else .error (.sort ("expected " ++ wanted.text ++ " but " ++ t.text ++ " has sort "
    ++ actual.text))

def demandBits (t : Term) : SmtSort → Except Fault Nat
  | .bitVec bits => .ok bits
  | .bool => .error (.sort ("expected a bit-vector, got " ++ t.text))

def sort : Term → Except Fault SmtSort
  | bool _ => .ok .bool
  | bitVec _ bits => .ok (.bitVec bits)
  | const _ sort => .ok sort
  | not t => do
      t.demand .bool (← t.sort)
      return .bool
  | and l r | or l r | xor l r => do
      l.demand .bool (← l.sort)
      r.demand .bool (← r.sort)
      return .bool
  | eq l r => do
      let wanted ← l.sort
      r.demand wanted (← r.sort)
      return .bool
  | ite c yes no => do
      c.demand .bool (← c.sort)
      let wanted ← yes.sort
      no.demand wanted (← no.sort)
      return wanted
  | bvUnary _ t => do
      return .bitVec (← t.demandBits (← t.sort))
  | bvBinary _ l r => do
      let bits ← l.demandBits (← l.sort)
      r.demand (.bitVec bits) (← r.sort)
      return .bitVec bits
  | bvCompare _ l r => do
      let bits ← l.demandBits (← l.sort)
      r.demand (.bitVec bits) (← r.sort)
      return .bool
  | extract high low t => do
      let bits ← t.demandBits (← t.sort)
      if low ≤ high ∧ high < bits then return .bitVec (high - low + 1)
      else throw (.sort ("invalid extract in " ++ (extract high low t).text))
  | zeroExtend extra t | signExtend extra t => do
      return .bitVec ((← t.demandBits (← t.sort)) + extra)

end Term

/-- Free constants with their sorts, in the order of their names. -/
abbrev Constants := List (String × SmtSort)

def Constants.set (name : String) (sort : SmtSort) : Constants → Constants
  | [] => [(name, sort)]
  | (other, existing) :: rest =>
      if name = other then (name, sort) :: rest
      else if name < other then (name, sort) :: (other, existing) :: rest
      else (other, existing) :: Constants.set name sort rest

namespace Term

def collect : Term → Constants → Constants
  | bool _, found | bitVec _ _, found => found
  | const name sort, found => found.set name sort
  | not t, found | bvUnary _ t, found | extract _ _ t, found
  | zeroExtend _ t, found | signExtend _ t, found => t.collect found
  | and l r, found | or l r, found | xor l r, found | eq l r, found
  | bvBinary _ l r, found | bvCompare _ l r, found => r.collect (l.collect found)
  | ite c yes no, found => no.collect (yes.collect (c.collect found))

def constants (t : Term) : Constants :=
  t.collect []

end Term

end Condense
