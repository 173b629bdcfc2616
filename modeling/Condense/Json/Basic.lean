/-!
# JSON values

Values as a reader sees them: the fields of an object in the order of the text, with
repetitions. Two kinds of values have no content here, because nothing in this library is
read from them: numbers other than natural numbers below 2^64, and what holds a text with
an unpaired surrogate.
-/

namespace Condense

set_option autoImplicit false

inductive Json where
  | null
  | bool (value : Bool)
  | natural (value : UInt64)
  /-- Any other number. -/
  | number
  | text (content : String)
  /-- A text, or an object with a key, that is no sequence of characters. -/
  | mangled
  | array (items : List Json)
  | object (fields : List (String × Json))

namespace Json

mutual

def depth : Json → Nat
  | array items => depthOfItems items + 1
  | object fields => depthOfFields fields + 1
  | _ => 0

def depthOfItems : List Json → Nat
  | [] => 0
  | item :: rest => max item.depth (depthOfItems rest)

def depthOfFields : List (String × Json) → Nat
  | [] => 0
  | (_, value) :: rest => max value.depth (depthOfFields rest)

end

/-- A value of a variant with content: an object whose only key is the variant's name. -/
def tagged (name : String) (content : Json) : Json :=
  object [(name, content)]

/-- A natural number as a word; larger numbers wrap. -/
def ofNat (n : Nat) : Json :=
  natural n.toUInt64

end Json

end Condense
