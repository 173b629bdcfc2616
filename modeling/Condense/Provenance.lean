import Condense.Expr.Basic
import Std.Data.TreeMap

/-!
# Provenance of nodes

For each node, the places it was derived from, such as the addresses of instructions.
When a node takes another's place it takes over the other's origins too.
-/

namespace Condense

set_option autoImplicit false

abbrev Origin := UInt64

namespace Origin

/-- Adds an origin to an ascending list without repetition. -/
def insert (origin : Origin) : List Origin → List Origin
  | [] => [origin]
  | first :: rest =>
      if origin < first then origin :: first :: rest
      else if origin = first then first :: rest
      else first :: insert origin rest

def union (origins known : List Origin) : List Origin :=
  origins.foldl (fun known origin => insert origin known) known

end Origin

structure Provenance where
  /-- The origins of each node that has any, in ascending order. -/
  records : Std.TreeMap NodeId (List Origin) := ∅

namespace Provenance

def size (p : Provenance) : Nat :=
  p.records.size

def isEmpty (p : Provenance) : Bool :=
  p.size == 0

def origins? (p : Provenance) (id : NodeId) : Option (List Origin) :=
  p.records[id]?

def extend (p : Provenance) (id : NodeId) (origins : List Origin) : Provenance :=
  ⟨p.records.insert id (Origin.union origins ((p.origins? id).getD []))⟩

def insert (p : Provenance) (id : NodeId) (origin : Origin) : Provenance :=
  p.extend id [origin]

def insertTree (p : Provenance) (e : Expr) (origin : Origin) : Provenance :=
  e.nodes.foldl (fun p node => p.insert node.id origin) p

/-- Gives `target` every origin of `source`; a source without a record changes nothing. -/
def inherit (p : Provenance) (target source : NodeId) : Provenance :=
  if target = source then p
  else match p.origins? source with
    | some origins => p.extend target origins
    | none => p

end Provenance

end Condense
