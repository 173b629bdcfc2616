import Condense.Expr.Digest
import Std.Data.TreeMap

/-!
# Digests remembered by node

A memo keeps the digest of every node it has been asked about, so each node is digested
once. Of a run of wrappers the outermost and the wrapped node are remembered, the
wrappers between them are passed over.
-/

namespace Condense

set_option autoImplicit false

structure Memo where
  known : Std.TreeMap NodeId UInt64 := ∅

namespace Memo

def size (memo : Memo) : Nat :=
  memo.known.size

def get? (memo : Memo) (id : NodeId) : Option UInt64 :=
  memo.known[id]?

def insert (memo : Memo) (id : NodeId) (digest : UInt64) : Memo :=
  ⟨memo.known.insert id digest⟩

/-- Answers from the memo, or computes the digest and keeps it. -/
def remember (id : NodeId) (compute : StateM Memo UInt64) : StateM Memo UInt64 := do
  match (← get).get? id with
  | some digest => return digest
  | none =>
      let digest ← compute
      modify (·.insert id digest)
      return digest

mutual

/-- The digest of a node; `wrapped` tells that the walk has come through a wrapper. -/
def walk (wrapped : Bool) : Expr → StateM Memo UInt64
  | .var id v => remember id (return Digest.ofVar v)
  | .lit id c => remember id (return Digest.ofLit c)
  | .unary id op e => remember id do
      return Digest.ofUnary op (← walk false e)
  | .binary id op l r => remember id do
      let lhs ← walk false l
      let rhs ← walk false r
      return Digest.ofBinary op lhs rhs
  | .ternary id c yes no => remember id do
      let condition ← walk false c
      let yes ← walk false yes
      let no ← walk false no
      return Digest.ofTernary condition yes no
  | .paren id e => if wrapped then walk true e else remember id (walk true e)
  | .cast id ty e =>
      if e.ty = ty then
        if wrapped then walk true e else remember id (walk true e)
      else remember id do
        return Digest.ofCast ty (← walk false e)
  | .call id name ty args => remember id do
      return Digest.ofCall name ty (← walkAll args)

def walkAll : List Expr → StateM Memo (List UInt64)
  | [] => return []
  | e :: rest => do
      let digest ← walk false e
      return digest :: (← walkAll rest)

end

def digest (e : Expr) : StateM Memo UInt64 :=
  walk false e

/-- Equivalence, decided at once when both digests are known and differ. -/
def isEquiv (memo : Memo) (a b : Expr) : Bool :=
  match memo.get? a.id, memo.get? b.id with
  | some da, some db => da == db && a.isEquiv b
  | _, _ => a.isEquiv b

end Memo

end Condense
