/-!
# Words at a width

Values are 64-bit words read at a stated width. A width of 64 or more covers the
whole word; only the widths 1 to 64 have a sign bit.
-/

namespace Condense.Word

set_option autoImplicit false

def mask (bits : Nat) : UInt64 :=
  if 64 ≤ bits then 0xffffffffffffffff else (1 <<< bits.toUInt64) - 1

/-- The highest bit of a `bits`-bit word, or zero when there is none. -/
def signBit (bits : Nat) : UInt64 :=
  if 1 ≤ bits ∧ bits ≤ 64 then 1 <<< (bits - 1).toUInt64 else 0

def truncate (value : UInt64) (bits : Nat) : UInt64 :=
  value &&& mask bits

def isNegative (value : UInt64) (bits : Nat) : Bool :=
  value &&& signBit bits != 0

def signExtend (value : UInt64) (bits : Nat) : UInt64 :=
  if bits < 64 && isNegative value bits then value ||| ~~~(mask bits) else value

def hex (value : UInt64) : List Char :=
  Nat.toDigits 16 value.toNat

def paddedHex (value : UInt64) (width : Nat) : String :=
  let digits := hex value
  String.ofList (List.replicate (width - digits.length) '0' ++ digits)

def upperHex (value : UInt64) : String :=
  String.ofList ((hex value).map Char.toUpper)

end Condense.Word
