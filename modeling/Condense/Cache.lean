import Condense.Expr.Memo
import Condense.Oracle

/-!
# Proofs remembered by class

One answer serves a whole class of equivalent conditions: the first condition of a class
to be asked about stands for it, and each class is put to the oracle at most once for
truth and once for falsity. No class is ever kept as both always and never true; an
oracle that claims so is reported as inconsistent.
-/

namespace Condense

set_option autoImplicit false

/-- The answer for one class. -/
structure Entry where
  digest : UInt64
  representative : Expr
  proven : Bool

structure Cache where
  /-- Answers to "does it hold always?", the latest first. -/
  positive : List Entry := []
  /-- Answers to "does it hold never?", the latest first. -/
  negative : List Entry := []
  /-- Questions answered without the oracle. -/
  hits : Nat := 0

namespace Cache

def size (cache : Cache) : Nat :=
  cache.positive.length + cache.negative.length

def isEmpty (cache : Cache) : Bool :=
  cache.size == 0

def entries (cache : Cache) : Polarity → List Entry
  | .positive => cache.positive
  | .negative => cache.negative

def insert (cache : Cache) (polarity : Polarity) (entry : Entry) : Cache :=
  match polarity with
  | .positive => { cache with positive := entry :: cache.positive }
  | .negative => { cache with negative := entry :: cache.negative }

/-- The answer kept for the class of `e`, whose digest is given. -/
def find? (cache : Cache) (memo : Memo) (polarity : Polarity) (digest : UInt64) (e : Expr) :
    Option Bool :=
  ((cache.entries polarity).find? fun entry =>
    entry.digest == digest && memo.isEquiv entry.representative e).map Entry.proven

end Cache

def Polarity.opposite : Polarity → Polarity
  | positive => negative
  | negative => positive

/-- An oracle with the answers it has given and the digests they are filed under. -/
structure Prover (σ : Type) where
  oracle : Oracle σ
  memo : Memo := {}
  cache : Cache := {}

namespace Prover

variable {σ : Type}

def consult {α : Type} (act : StateM (Oracle σ) α) : StateM (Prover σ) α := fun prover =>
  let (a, oracle) := act prover.oracle
  (a, { prover with oracle })

def digest (e : Expr) : StateM (Prover σ) UInt64 := fun prover =>
  let (digest, memo) := Memo.digest e prover.memo
  (digest, { prover with memo })

def find? (prover : Prover σ) (polarity : Polarity) (digest : UInt64) (e : Expr) :
    Option Bool :=
  prover.cache.find? prover.memo polarity digest e

def contains (polarity : Polarity) (e : Expr) : StateM (Prover σ) Bool := do
  let digest ← digest e
  return ((← get).find? polarity digest e).isSome

/-- Answers from the cache, or asks the oracle and keeps the answer. -/
def lookup (polarity : Polarity) (e : Expr) : ExceptT Fault (StateM (Prover σ)) Bool := do
  let digest ← ExceptT.lift (digest e)
  match (← get).find? polarity digest e with
  | some proven =>
      ExceptT.lift (consult (Oracle.note (.hit e polarity proven)))
      modify fun prover =>
        { prover with cache := { prover.cache with hits := prover.cache.hits + 1 } }
      return proven
  | none =>
      let proven ← ExceptT.lift (consult (Oracle.query polarity e))
      if proven && (← get).find? polarity.opposite digest e == some true then
        ExceptT.lift (consult (Oracle.note (.conflict e)))
        throw (.inconsistent e.text)
      modify fun prover =>
        { prover with cache := prover.cache.insert polarity ⟨digest, e, proven⟩ }
      return proven

def verdict (e : Expr) : ExceptT Fault (StateM (Prover σ)) Verdict := do
  if ← lookup .positive e then return .isTrue
  else if ← lookup .negative e then return .isFalse
  else return .unknown

end Prover

end Condense
