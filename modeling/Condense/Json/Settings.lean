import Condense.Json.Form
import Condense.Options
import Condense.Pass.Session

/-!
# Strategies, options and statistics as JSON

Every option that is missing takes its default.
-/

namespace Condense

set_option autoImplicit false

namespace Strategy

mutual

def toJson : Strategy → Json
  | named name => .tagged "Named" (.text name)
  | andThen steps => .tagged "Then" (.array (toJsons steps))
  | orElse choices => .tagged "OrElse" (.array (toJsons choices))
  | tryFor inner milliseconds =>
      .tagged "TryFor" (.array [inner.toJson, .natural milliseconds])

def toJsons : List Strategy → List Json
  | [] => []
  | s :: rest => s.toJson :: toJsons rest

end

def ofJson? : Nat → Json → Option Strategy
  | _ + 1, .object [("Named", .text name)] => some (named name)
  | depth + 2, .object [("Then", .array items)] => (items.mapM (ofJson? depth)).map andThen
  | depth + 2, .object [("OrElse", .array items)] => (items.mapM (ofJson? depth)).map orElse
  | depth + 2, .object [("TryFor", .array [inner, .natural milliseconds])] =>
      (ofJson? depth inner).map (tryFor · milliseconds)
  | _, _ => none

end Strategy

namespace Options

def toJson (options : Options) : Json :=
  .object [("max_iterations", .natural options.maxIterations),
    ("tactic", options.strategy.toJson), ("fold_operands", .bool options.foldOperands)]

def rounds? : Option Json → Option UInt64
  | none => some 8
  | some (.natural n) => some n
  | some _ => none

def strategy? (depth : Nat) : Option Json → Option Strategy
  | none => some .standard
  | some j => Strategy.ofJson? depth j

def folding? : Option Json → Option Bool
  | none => some true
  | some (.bool b) => some b
  | some _ => none

def ofJson? : Nat → Json → Option Options
  | depth + 1, j =>
    match j.looseRecord ["max_iterations", "tactic", "fold_operands"] with
    | some [rounds, strategy, folding] => do
        return ⟨← rounds? rounds, ← strategy? depth strategy, ← folding? folding⟩
    | _ => none
  | 0, _ => none

def read? (j : Json) : Option Options :=
  ofJson? j.depth j

def readText? (s : String) : Option Options :=
  (Json.parse? s).bind (ofJson? Json.nesting)

end Options

namespace Statistics

def toJson (s : Statistics) : Json :=
  .object [("conditions_visited", .ofNat s.conditionsVisited),
    ("conditions_rewritten", .ofNat s.conditionsChanged),
    ("oracle_queries", .ofNat s.oracleQueries),
    ("cache_hits", .ofNat s.cacheHits),
    ("iterations", .ofNat s.iterations)]

def ofJson? : Nat → Json → Option Statistics
  | _ + 1, j =>
    match j.record ["conditions_visited", "conditions_rewritten", "oracle_queries",
      "cache_hits", "iterations"] with
    | some [some (.natural a), some (.natural b), some (.natural c), some (.natural d),
        some (.natural e)] => some ⟨a.toNat, b.toNat, c.toNat, d.toNat, e.toNat⟩
    | _ => none
  | 0, _ => none

end Statistics

end Condense
