import Condense.Json.Form
import Condense.Term.Basic

/-!
# Terms as JSON
-/

namespace Condense

set_option autoImplicit false

namespace SmtSort

def toJson : SmtSort → Json
  | bool => .text "Bool"
  | bitVec bits => .tagged "BitVec" (.ofNat bits)

def ofJson? : Nat → Json → Option SmtSort
  | _ + 1, .object [("BitVec", .natural bits)] => some (bitVec bits.toNat)
  | depth, j => if j.name? depth = some "Bool" then some bool else none

end SmtSort

namespace BvUnary

def toJson : BvUnary → Json
  | not => .text "Not"
  | neg => .text "Neg"

def ofJson? (depth : Nat) (j : Json) : Option BvUnary :=
  match j.name? depth with
  | some "Not" => some not
  | some "Neg" => some neg
  | _ => none

end BvUnary

namespace BvBinary

def toName : BvBinary → String
  | add => "Add"
  | sub => "Sub"
  | mul => "Mul"
  | udiv => "Udiv"
  | sdiv => "Sdiv"
  | urem => "Urem"
  | srem => "Srem"
  | and => "And"
  | or => "Or"
  | xor => "Xor"
  | shl => "Shl"
  | lshr => "Lshr"
  | ashr => "Ashr"

def ofName? (name : String) : Option BvBinary :=
  [add, sub, mul, udiv, sdiv, urem, srem, and, or, xor, shl, lshr, ashr].find?
    fun op => op.toName == name

def ofJson? (depth : Nat) (j : Json) : Option BvBinary :=
  (j.name? depth).bind ofName?

end BvBinary

namespace BvCompare

def toName : BvCompare → String
  | ult => "Ult"
  | ule => "Ule"
  | ugt => "Ugt"
  | uge => "Uge"
  | slt => "Slt"
  | sle => "Sle"
  | sgt => "Sgt"
  | sge => "Sge"

def ofName? (name : String) : Option BvCompare :=
  [ult, ule, ugt, uge, slt, sle, sgt, sge].find? fun op => op.toName == name

def ofJson? (depth : Nat) (j : Json) : Option BvCompare :=
  (j.name? depth).bind ofName?

end BvCompare

namespace Term

def toJson : Term → Json
  | bool value => .tagged "Bool" (.bool value)
  | bitVec value bits =>
      .tagged "BitVec" (.object [("value", .natural value), ("bits", .ofNat bits)])
  | const name sort => .tagged "Const" (.array [.text name, sort.toJson])
  | not t => .tagged "Not" t.toJson
  | and l r => .tagged "And" (.array [l.toJson, r.toJson])
  | or l r => .tagged "Or" (.array [l.toJson, r.toJson])
  | xor l r => .tagged "Xor" (.array [l.toJson, r.toJson])
  | eq l r => .tagged "Eq" (.array [l.toJson, r.toJson])
  | ite c yes no => .tagged "Ite" (.array [c.toJson, yes.toJson, no.toJson])
  | bvUnary op t => .tagged "BvUnary" (.array [op.toJson, t.toJson])
  | bvBinary op l r => .tagged "BvBinary" (.array [.text op.toName, l.toJson, r.toJson])
  | bvCompare op l r => .tagged "BvCompare" (.array [.text op.toName, l.toJson, r.toJson])
  | extract high low t =>
      .tagged "Extract"
        (.object [("high", .ofNat high), ("low", .ofNat low), ("term", t.toJson)])
  | zeroExtend extra t => .tagged "ZeroExtend" (.array [.ofNat extra, t.toJson])
  | signExtend extra t => .tagged "SignExtend" (.array [.ofNat extra, t.toJson])

mutual

def ofJson? : Nat → Json → Option Term
  | depth + 1, .object [(kind, content)] =>
    match kind, content with
    | "Bool", .bool value => some (bool value)
    | "Not", content => (ofJson? depth content).map not
    | kind, content => ofParts? depth kind content
  | _, _ => none

def ofParts? : Nat → String → Json → Option Term
  | _ + 1, "BitVec", content =>
    match content.record ["value", "bits"] with
    | some [some (.natural value), some (.natural bits)] => some (bitVec value bits.toNat)
    | _ => none
  | depth + 1, "Extract", content =>
    match content.record ["high", "low", "term"] with
    | some [some (.natural high), some (.natural low), some t] =>
        (ofJson? depth t).map (extract high.toNat low.toNat)
    | _ => none
  | depth + 1, "Const", .array [.text name, sort] =>
      (SmtSort.ofJson? depth sort).map (const name)
  | depth + 1, "ZeroExtend", .array [.natural extra, t] =>
      (ofJson? depth t).map (zeroExtend extra.toNat)
  | depth + 1, "SignExtend", .array [.natural extra, t] =>
      (ofJson? depth t).map (signExtend extra.toNat)
  | depth + 1, "BvUnary", .array [op, t] => do
      return bvUnary (← BvUnary.ofJson? depth op) (← ofJson? depth t)
  | depth + 1, "BvBinary", .array [op, l, r] => do
      return bvBinary (← BvBinary.ofJson? depth op) (← ofJson? depth l) (← ofJson? depth r)
  | depth + 1, "BvCompare", .array [op, l, r] => do
      return bvCompare (← BvCompare.ofJson? depth op) (← ofJson? depth l) (← ofJson? depth r)
  | depth + 1, "Ite", .array [c, yes, no] => do
      return ite (← ofJson? depth c) (← ofJson? depth yes) (← ofJson? depth no)
  | depth + 1, kind, .array [l, r] => do
      let make ← connective? kind
      return make (← ofJson? depth l) (← ofJson? depth r)
  | _, _, _ => none
where
  connective? : String → Option (Term → Term → Term)
    | "And" => some and
    | "Or" => some or
    | "Xor" => some xor
    | "Eq" => some eq
    | _ => none

end

def readText? (s : String) : Option Term :=
  (Json.parse? s).bind (ofJson? Json.nesting)

end Term

end Condense
