import Condense.Json.Form
import Condense.Numbering

/-!
# Expressions, statements and programs as JSON

Writing keeps everything but the sharing of nodes. Reading demands an id of every node,
discards it, and numbers the nodes anew.
-/

namespace Condense

set_option autoImplicit false

namespace Expr

def nodeJson (id : NodeId) (kind : String) (content : Json) : Json :=
  .object [("id", .ofNat id), ("kind", .tagged kind content)]

mutual

def toJson : Expr → Json
  | var id v => nodeJson id "Variable" v.toJson
  | lit id c => nodeJson id "Constant" c.toJson
  | unary id op e => nodeJson id "Unary" (.array [op.toJson, e.toJson])
  | binary id op l r => nodeJson id "Binary" (.array [op.toJson, l.toJson, r.toJson])
  | ternary id c yes no => nodeJson id "Ternary" (.array [c.toJson, yes.toJson, no.toJson])
  | paren id e => nodeJson id "Paren" e.toJson
  | cast id ty e => nodeJson id "Cast" (.array [ty.toJson, e.toJson])
  | call id name ty args =>
      nodeJson id "Call" (.array [.text name, ty.toJson, .array (toJsons args)])

def toJsons : List Expr → List Json
  | [] => []
  | e :: rest => e.toJson :: toJsons rest

end

/-- The content of a node record, demanding that the id is a word. -/
def kindOf? (j : Json) : Option Json :=
  match j.record ["id", "kind"] with
  | some [some (.natural _), some kind] => some kind
  | _ => none

mutual

/-- An expression whose nodes all have the id 0. -/
def unnumbered? : Nat → Json → Option Expr
  | 0, _ => none
  | depth + 1, j => (kindOf? j).bind (ofKind? depth)

def ofKind? : Nat → Json → Option Expr
  | depth + 1, .object [(kind, content)] =>
    match kind with
    | "Variable" => (Variable.ofJson? depth content).map (var 0)
    | "Constant" => (Literal.ofJson? depth content).map (lit 0)
    | "Paren" => (unnumbered? depth content).map (paren 0)
    | _ => ofItems? depth kind content
  | _, _ => none

def ofItems? : Nat → String → Json → Option Expr
  | depth + 1, "Unary", .array [op, e] => do
      return unary 0 (← UnaryOp.ofJson? depth op) (← unnumbered? depth e)
  | depth + 1, "Cast", .array [ty, e] => do
      return cast 0 (← Ty.ofJson? depth ty) (← unnumbered? depth e)
  | depth + 1, "Binary", .array [op, l, r] => do
      return binary 0 (← BinaryOp.ofJson? depth op) (← unnumbered? depth l)
        (← unnumbered? depth r)
  | depth + 1, "Ternary", .array [c, yes, no] => do
      return ternary 0 (← unnumbered? depth c) (← unnumbered? depth yes)
        (← unnumbered? depth no)
  | depth + 2, "Call", .array [.text name, ty, .array args] => do
      return call 0 name (← Ty.ofJson? (depth + 1) ty) (← args.mapM (unnumbered? depth))
  | _, _, _ => none

end

end Expr

end Condense
