import Condense.Expr.Basic
import Condense.Json.Parse

/-!
# The form of records and variants

A record is an object of its fields; it may also be given as an array of them in order.
A variant without content is its name, one with content an object with that one key.
Unknown fields are passed over, a field given twice is refused.

Readers are told how many arrays and objects they may still go into, and fail where that
number runs out.
-/

namespace Condense

set_option autoImplicit false

namespace Json

def nesting : Nat := 127

/-- The value of a field: the outer `none` when it is given twice. -/
def field (fields : List (String × Json)) (name : String) : Option (Option Json) :=
  match fields.filter fun entry => entry.1 == name with
  | [] => some none
  | [entry] => some (some entry.2)
  | _ => none

/-- The values of the named fields of a record. -/
def record (names : List String) : Json → Option (List (Option Json))
  | array items => if items.length = names.length then some (items.map some) else none
  | object fields => names.mapM (field fields)
  | _ => none

/-- A record in which fields may be missing, at the end when it is an array. -/
def looseRecord (names : List String) : Json → Option (List (Option Json))
  | array items =>
      if items.length ≤ names.length then
        some (items.map some ++ List.replicate (names.length - items.length) none)
      else none
  | object fields => names.mapM (field fields)
  | _ => none

def name? : Nat → Json → Option String
  | _, text name => some name
  | _ + 1, object [(name, null)] => some name
  | _, _ => none

def option (content : Option Json) : Json :=
  content.getD null

end Json

namespace UnaryOp

def toName : UnaryOp → String
  | lnot => "LNot"
  | not => "Not"
  | neg => "Neg"

def ofName? (name : String) : Option UnaryOp :=
  [lnot, not, neg].find? fun op => op.toName == name

def toJson (op : UnaryOp) : Json :=
  .text op.toName

def ofJson? (depth : Nat) (j : Json) : Option UnaryOp :=
  (j.name? depth).bind ofName?

end UnaryOp

namespace BinaryOp

def toName : BinaryOp → String
  | add => "Add"
  | sub => "Sub"
  | mul => "Mul"
  | div => "Div"
  | rem => "Rem"
  | and => "And"
  | or => "Or"
  | xor => "Xor"
  | shl => "Shl"
  | shr => "Shr"
  | eq => "Eq"
  | ne => "Ne"
  | lt => "Lt"
  | le => "Le"
  | gt => "Gt"
  | ge => "Ge"
  | land => "LAnd"
  | lor => "LOr"

def ofName? (name : String) : Option BinaryOp :=
  [add, sub, mul, div, rem, and, or, xor, shl, shr, eq, ne, lt, le, gt, ge, land, lor].find?
    fun op => op.toName == name

def toJson (op : BinaryOp) : Json :=
  .text op.toName

def ofJson? (depth : Nat) (j : Json) : Option BinaryOp :=
  (j.name? depth).bind ofName?

end BinaryOp

namespace Ty

def toJson : Ty → Json
  | bool => .text "Bool"
  | int bits signed =>
      .tagged "Int" (.object [("bits", .natural bits), ("signed", .bool signed)])

def ofJson? : Nat → Json → Option Ty
  | _ + 2, .object [("Int", content)] =>
      match content.record ["bits", "signed"] with
      | some [some (.natural bits), some (.bool signed)] => some (int bits signed)
      | _ => none
  | depth, j => if j.name? depth = some "Bool" then some bool else none

end Ty

namespace Literal

def toJson (c : Literal) : Json :=
  .object [("value", .natural c.value), ("ty", c.ty.toJson)]

/-- The value is kept as it stands, also where it does not fit the type. -/
def ofJson? : Nat → Json → Option Literal
  | depth + 1, j =>
      match j.record ["value", "ty"] with
      | some [some (.natural value), some ty] => (Ty.ofJson? depth ty).map (⟨value, ·⟩)
      | _ => none
  | 0, _ => none

end Literal

namespace Variable

def toJson (v : Variable) : Json :=
  .object [("name", .text v.name), ("ty", v.ty.toJson)]

def ofJson? : Nat → Json → Option Variable
  | depth + 1, j =>
      match j.record ["name", "ty"] with
      | some [some (.text name), some ty] => (Ty.ofJson? depth ty).map (⟨name, ·⟩)
      | _ => none
  | 0, _ => none

end Variable

end Condense
