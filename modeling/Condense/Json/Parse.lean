import Condense.Json.Basic

/-!
# Reading JSON text

The strict grammar: no comments, no trailing commas, no leading zeros, no control
characters in texts, and nothing but blanks after the value. Reading works on a list of
characters and gives back what it did not use.
-/

namespace Condense.Json

set_option autoImplicit false

def isSpace (c : Char) : Bool :=
  c == ' ' || c == '\n' || c == '\t' || c == '\r'

def skip (cs : List Char) : List Char :=
  cs.dropWhile isSpace

def hexValue (c : Char) : Option Nat :=
  if '0' ≤ c ∧ c ≤ '9' then some (c.toNat - 48)
  else if 'a' ≤ c ∧ c ≤ 'f' then some (c.toNat - 87)
  else if 'A' ≤ c ∧ c ≤ 'F' then some (c.toNat - 55)
  else none

/-- The code unit written as four hexadecimal digits. -/
def unit (a b c d : Char) : Option Nat := do
  return (((← hexValue a) * 16 + (← hexValue b)) * 16 + (← hexValue c)) * 16 + (← hexValue d)

def isHighSurrogate (n : Nat) : Bool :=
  0xd800 ≤ n && n ≤ 0xdbff

def isLowSurrogate (n : Nat) : Bool :=
  0xdc00 ≤ n && n ≤ 0xdfff

def pairOf (high low : Nat) : Char :=
  Char.ofNat (0x10000 + (high - 0xd800) * 0x400 + (low - 0xdc00))

def escape? (c : Char) : Option Char :=
  if c = '"' then some '"'
  else if c = '\\' then some '\\'
  else if c = '/' then some '/'
  else if c = 'b' then some '\x08'
  else if c = 'f' then some '\x0c'
  else if c = 'n' then some '\n'
  else if c = 'r' then some '\r'
  else if c = 't' then some '\t'
  else none

/-- The pieces of a text, from after its opening quote: characters, and the code units that
are written as numbers. -/
def pieces : List Char → Option (List (Char ⊕ Nat) × List Char)
  | [] => none
  | '"' :: rest => some ([], rest)
  | '\\' :: 'u' :: a :: b :: c :: d :: rest => do
      let n ← unit a b c d
      let (found, rest) ← pieces rest
      return (.inr n :: found, rest)
  | '\\' :: e :: rest => do
      let c ← escape? e
      let (found, rest) ← pieces rest
      return (.inl c :: found, rest)
  | c :: rest =>
      if c.toNat < 0x20 then none
      else do
        let (found, rest) ← pieces rest
        return (.inl c :: found, rest)

/-- The characters that the pieces make up; none when a surrogate stands alone. -/
def assemble : List (Char ⊕ Nat) → Option (List Char)
  | [] => some []
  | .inl c :: rest => (assemble rest).map (c :: ·)
  | .inr n :: rest =>
      if isHighSurrogate n then
        match rest with
        | .inr low :: rest =>
            if isLowSurrogate low then (assemble rest).map (pairOf n low :: ·) else none
        | _ => none
      else if isLowSurrogate n then none
      else (assemble rest).map (Char.ofNat n :: ·)

def string (cs : List Char) : Option (Option String × List Char) := do
  let (found, rest) ← pieces cs
  return ((assemble found).map String.ofList, rest)

def digits (cs : List Char) : List Char × List Char :=
  (cs.takeWhile Char.isDigit, cs.dropWhile Char.isDigit)

def decimal (ds : List Char) : Nat :=
  ds.foldl (fun n d => 10 * n + (d.toNat - 48)) 0

def fraction : List Char → Option (Bool × List Char)
  | '.' :: rest =>
      let (ds, rest) := digits rest
      if ds.isEmpty then none else some (true, rest)
  | rest => some (false, rest)

def exponent : List Char → Option (Bool × List Char)
  | c :: rest =>
      if c = 'e' ∨ c = 'E' then
        let unsigned := match rest with
          | '+' :: rest | '-' :: rest => rest
          | rest => rest
        let (ds, rest) := digits unsigned
        if ds.isEmpty then none else some (true, rest)
      else some (false, c :: rest)
  | [] => some (false, [])

def magnitude (negative : Bool) (cs : List Char) : Option (Json × List Char) := do
  let (ds, rest) := digits cs
  if ds.isEmpty || (ds.head? == some '0' && ds.length != 1) then none
  let (hasFraction, rest) ← fraction rest
  let (hasExponent, rest) ← exponent rest
  let n := decimal ds
  if negative || hasFraction || hasExponent || UInt64.size ≤ n then return (number, rest)
  else return (natural n.toUInt64, rest)

def numeral : List Char → Option (Json × List Char)
  | '-' :: rest => magnitude true rest
  | cs => magnitude false cs

mutual

/-- One value. Each step down or along takes one unit of fuel. -/
def value : Nat → List Char → Option (Json × List Char)
  | 0, _ => none
  | fuel + 1, cs =>
    match skip cs with
    | 'n' :: 'u' :: 'l' :: 'l' :: rest => some (null, rest)
    | 't' :: 'r' :: 'u' :: 'e' :: rest => some (bool true, rest)
    | 'f' :: 'a' :: 'l' :: 's' :: 'e' :: rest => some (bool false, rest)
    | '"' :: rest => do
        let (content, rest) ← string rest
        match content with
        | some content => return (text content, rest)
        | none => return (mangled, rest)
    | '[' :: rest =>
        match skip rest with
        | ']' :: rest => some (array [], rest)
        | rest => do
            let (found, rest) ← items fuel rest
            return (array found, rest)
    | '\x7b' :: rest =>
        match skip rest with
        | '\x7d' :: rest => some (object [], rest)
        | rest => do
            let (found, rest) ← members fuel rest
            match found with
            | some fields => return (object fields, rest)
            | none => return (mangled, rest)
    | cs => numeral cs

def items : Nat → List Char → Option (List Json × List Char)
  | 0, _ => none
  | fuel + 1, cs => do
      let (first, rest) ← value fuel cs
      match skip rest with
      | ',' :: rest =>
          let (others, rest) ← items fuel rest
          return (first :: others, rest)
      | ']' :: rest => return ([first], rest)
      | _ => none

/-- The fields of an object up to its end, at least one; `none` when a key is mangled. -/
def members : Nat → List Char → Option (Option (List (String × Json)) × List Char)
  | 0, _ => none
  | fuel + 1, cs =>
    match skip cs with
    | '"' :: rest => do
        let (key, rest) ← string rest
        match skip rest with
        | ':' :: rest =>
            let (content, rest) ← value fuel rest
            let field := key.map fun key => (key, content)
            match skip rest with
            | ',' :: rest =>
                let (others, rest) ← members fuel rest
                return (do return (← field) :: (← others), rest)
            | '\x7d' :: rest => return (do return [← field], rest)
            | _ => none
        | _ => none
    | _ => none

end

def parse? (s : String) : Option Json := do
  let cs := s.toList
  let (result, rest) ← value (2 * cs.length + 2) cs
  if (skip rest).isEmpty then return result else none

end Condense.Json
