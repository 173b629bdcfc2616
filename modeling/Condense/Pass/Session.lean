import Condense.Cache
import Condense.Options
import Condense.Pass.Identities

/-!
# Sessions

A session is everything one simplifier carries from condition to condition: the prover
with its cache, the supply of nodes, the options and the counters. The counters are natural
numbers, so that no work is ever too much to count: sessions in which a counter of 64 bits would
wrap around or overflow are left out.
-/

namespace Condense

set_option autoImplicit false

structure Statistics where
  conditionsVisited : Nat := 0
  conditionsChanged : Nat := 0
  oracleQueries : Nat := 0
  cacheHits : Nat := 0
  iterations : Nat := 0
  deriving DecidableEq

structure Session (σ : Type) where
  prover : Prover σ
  nodes : Nodes
  options : Options
  visited : Nat := 0
  changed : Nat := 0
  iterations : Nat := 0

/-- A step of the pass: it works on a session and may fail, keeping what it has done. -/
abbrev Pass (σ : Type) := ExceptT Fault (StateM (Session σ))

namespace Session

variable {σ : Type}

/-- A session that has done nothing yet; its oracle follows the options' strategy. -/
def start (solver : Solver σ) (memory : σ) (nodes : Nodes) (options : Options) : Session σ where
  prover := { oracle := { solver, memory, strategy := options.strategy } }
  nodes
  options

def setStrategy (session : Session σ) (strategy : Strategy) : Session σ :=
  { session with
    options := { session.options with strategy }
    prover := { session.prover with oracle := { session.prover.oracle with strategy } } }

def statistics (session : Session σ) : Statistics where
  conditionsVisited := session.visited
  conditionsChanged := session.changed
  oracleQueries := session.prover.oracle.queries
  cacheHits := session.prover.cache.hits
  iterations := session.iterations

end Session

namespace Pass

variable {σ : Type}

/-- Work on nodes never fails. -/
def onNodes {α : Type} (act : StateM Nodes α) : Pass σ α :=
  ExceptT.mk fun session =>
    let (a, nodes) := act session.nodes
    (.ok a, { session with nodes })

def onProver {α : Type} (act : ExceptT Fault (StateM (Prover σ)) α) : Pass σ α :=
  ExceptT.mk fun session =>
    let (a, prover) := act.run session.prover
    (a, { session with prover })

def note (event : Event) : Pass σ Unit :=
  onProver (ExceptT.lift (Prover.consult (Oracle.note event)))

def verdict (e : Expr) : Pass σ Verdict := do
  let verdict ← onProver (Prover.verdict e)
  if verdict ≠ .unknown then note (.decided e verdict)
  return verdict

end Pass

end Condense
