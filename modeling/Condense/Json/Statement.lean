import Condense.Json.Expr

/-!
# Statements and programs as JSON

Like expressions: reading numbers the nodes of all expressions anew, so that no two of
them share an id.
-/

namespace Condense

set_option autoImplicit false

namespace Statement

mutual

def toJson : Statement → Json
  | block body => .tagged "Compound" (.array (toJsons body))
  | ifThen c yes =>
      .tagged "If" (.object [("condition", c.toJson), ("then", yes.toJson), ("else_", .null)])
  | ifElse c yes no =>
      .tagged "If"
        (.object [("condition", c.toJson), ("then", yes.toJson), ("else_", no.toJson)])
  | whileDo c body =>
      .tagged "While" (.object [("condition", c.toJson), ("body", body.toJson)])
  | doWhile body c =>
      .tagged "Do" (.object [("body", body.toJson), ("condition", c.toJson)])
  | eval e => .tagged "Expr" e.toJson
  | ret (some e) => .tagged "Return" e.toJson
  | ret none => .tagged "Return" .null
  | breakLoop => .text "Break"
  | continueLoop => .text "Continue"

def toJsons : List Statement → List Json
  | [] => []
  | s :: rest => s.toJson :: toJsons rest

end

mutual

/-- A statement whose nodes all have the id 0. -/
def unnumbered? : Nat → Json → Option Statement
  | depth + 1, .object [(kind, content)] =>
    match kind with
    | "Expr" => (Expr.unnumbered? depth content).map eval
    | "Return" =>
      match content with
      | .null => some (ret none)
      | content => (Expr.unnumbered? depth content).map fun e => ret (some e)
    | "Break" => if content matches .null then some breakLoop else none
    | "Continue" => if content matches .null then some continueLoop else none
    | _ => ofParts? depth kind content
  | _, .text "Break" => some breakLoop
  | _, .text "Continue" => some continueLoop
  | _, _ => none

def ofParts? : Nat → String → Json → Option Statement
  | depth + 1, "Compound", .array items => (items.mapM (unnumbered? depth)).map block
  | depth + 1, "If", content =>
    match content.record ["condition", "then", "else_"] with
    | some [some c, some yes, none] | some [some c, some yes, some .null] => do
        return ifThen (← Expr.unnumbered? depth c) (← unnumbered? depth yes)
    | some [some c, some yes, some no] => do
        return ifElse (← Expr.unnumbered? depth c) (← unnumbered? depth yes)
          (← unnumbered? depth no)
    | _ => none
  | depth + 1, "While", content =>
    match content.record ["condition", "body"] with
    | some [some c, some body] => do
        return whileDo (← Expr.unnumbered? depth c) (← unnumbered? depth body)
    | _ => none
  | depth + 1, "Do", content =>
    match content.record ["body", "condition"] with
    | some [some body, some c] => do
        return doWhile (← unnumbered? depth body) (← Expr.unnumbered? depth c)
    | _ => none
  | _, _, _ => none

end

end Statement

namespace Routine

def toJson (r : Routine) : Json :=
  .object [("name", .text r.name), ("body", r.body.toJson),
    ("address", .option (r.address.map .natural))]

/-- A missing address is none. -/
def address? : Option Json → Option (Option UInt64)
  | none | some .null => some none
  | some (.natural address) => some (some address)
  | some _ => none

def unnumbered? : Nat → Json → Option Routine
  | depth + 1, j =>
    match j.record ["name", "body", "address"] with
    | some [some (.text name), some body, address] => do
        return ⟨name, ← Statement.unnumbered? depth body, ← address? address⟩
    | _ => none
  | 0, _ => none

end Routine

namespace Program

def toJson (p : Program) : Json :=
  .object [("functions", .array (p.routines.map Routine.toJson))]

def unnumbered? : Nat → Json → Option Program
  | depth + 2, j =>
    match j.record ["functions"] with
    | some [some (.array items)] => (items.mapM (Routine.unnumbered? depth)).map (⟨·⟩)
    | _ => none
  | _, _ => none

end Program

/-! Reading a value goes as deep as the value does; reading a text stops at the nesting
that texts may have. -/

def Expr.read (j : Json) : StateT NodeId Option Expr := do
  let e ← StateT.lift (Expr.unnumbered? j.depth j)
  fun next => some (e.numbered next)

def Expr.readText (s : String) : StateT NodeId Option Expr := do
  let e ← StateT.lift ((Json.parse? s).bind (Expr.unnumbered? Json.nesting))
  fun next => some (e.numbered next)

def Statement.readText (s : String) : StateT NodeId Option Statement := do
  let statement ← StateT.lift ((Json.parse? s).bind (Statement.unnumbered? Json.nesting))
  fun next => some (statement.numbered next)

def Routine.readText (s : String) : StateT NodeId Option Routine := do
  let routine ← StateT.lift ((Json.parse? s).bind (Routine.unnumbered? Json.nesting))
  fun next => some (routine.numbered next)

def Program.read (j : Json) : StateT NodeId Option Program := do
  let program ← StateT.lift (Program.unnumbered? j.depth j)
  fun next => some (program.numbered next)

def Program.readText (s : String) : StateT NodeId Option Program := do
  let program ← StateT.lift ((Json.parse? s).bind (Program.unnumbered? Json.nesting))
  fun next => some (program.numbered next)

end Condense
