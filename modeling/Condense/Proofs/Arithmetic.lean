import Condense.Proofs.BitVectors
import Condense.Proofs.Meaning

/-!
# Integer meaning of bit-vector operators

The meaning of an operator, which is stated on integers, is the bit-vector operator that
terms use for it. The two sides are compared as operations on bit patterns of the width of
the left operand's type; words do not occur.
-/

namespace Condense

set_option autoImplicit false

namespace Ty

theorem wrap_eq_of_int (ty : Ty) (number : Int) :
    ty.wrap number = (BitVec.ofInt ty.width number).toNat := by
  rw [BitVec.toNat_ofInt, wrap]
  simp

theorem reading_to_nat (ty : Ty) (bits : BitVec ty.width) :
    ty.reading bits.toNat = if ty.isSigned then bits.toInt else bits.toNat := by
  rw [reading, BitVec.toInt_eq_toNat_cond]
  cases ty.isSigned with
  | false => simp
  | true =>
      by_cases low : 2 * bits.toNat < 2 ^ ty.width
      · simp [low, Nat.not_le.mpr low]
      · simp [low, Nat.not_lt.mp low]

theorem of_int_reading (ty : Ty) (bits : BitVec ty.width) :
    BitVec.ofInt ty.width (ty.reading bits.toNat) = bits := by
  rw [reading_to_nat]
  cases ty.isSigned with
  | false => simp
  | true => simp

theorem wrap_reading (ty : Ty) {pattern : Nat} (fits : pattern < 2 ^ ty.width) :
    ty.wrap (ty.reading pattern) = pattern := by
  have whole : (BitVec.ofNat ty.width pattern).toNat = pattern := by
    rw [BitVec.toNat_ofNat, Nat.mod_eq_of_lt fits]
  have kept := of_int_reading ty (BitVec.ofNat ty.width pattern)
  rw [whole] at kept
  rw [wrap_eq_of_int, kept, whole]

theorem reading_eq_zero (ty : Ty) (bits : BitVec ty.width) :
    ty.reading bits.toNat = 0 ↔ bits = 0 := by
  constructor
  · intro zero
    rw [← of_int_reading ty bits, zero]
    rfl
  · intro zero
    subst zero
    simp [reading]

end Ty

namespace Meaning

theorem of_int_sub {width : Nat} (lhs rhs : Int) :
    BitVec.ofInt width (lhs - rhs) = BitVec.ofInt width lhs - BitVec.ofInt width rhs := by
  rw [Int.sub_eq_add_neg, BitVec.ofInt_add, BitVec.ofInt_neg, BitVec.sub_eq_add_neg]

theorem unary_eq_denote (op : UnaryOp) (ty : Ty) (bits : BitVec ty.width)
    (arithmetic : op ≠ .lnot) :
    unary op ty bits.toNat
      = ((if op = .neg then BvUnary.neg else BvUnary.not).denote bits).toNat := by
  cases op with
  | lnot => exact absurd rfl arithmetic
  | not =>
      rw [unary, Ty.wrap_eq_of_int, of_int_sub, BitVec.ofInt_neg, Ty.of_int_reading,
        if_neg (by decide), BvUnary.denote, BitVec.not_eq_neg_add]
      simp
  | neg =>
      rw [unary, Ty.wrap_eq_of_int, BitVec.ofInt_neg, Ty.of_int_reading]
      rfl

/-- The two signed divisions differ only in what they make of a zero divisor. -/
theorem smt_sdiv_eq_sdiv {width : Nat} (lhs rhs : BitVec width) (nonzero : rhs ≠ 0) :
    lhs.smtSDiv rhs = lhs.sdiv rhs := by
  have opposite : -rhs ≠ 0 := by simpa using nonzero
  have unsigned (dividend divisor : BitVec width) (divides : divisor ≠ 0) :
      dividend.smtUDiv divisor = dividend / divisor := if_neg divides
  rw [BitVec.smtSDiv_eq, BitVec.sdiv_eq]
  cases lhs.msb <;> cases rhs.msb <;>
    simp only [unsigned _ _ nonzero, unsigned _ _ opposite, BitVec.udiv_eq]

theorem signed_quotient_by_zero {width : Nat} (lhs : BitVec width) :
    (if 0 ≤ lhs.toInt then 2 ^ width - 1 else 1) = (lhs.smtSDiv 0).toNat := by
  have order : lhs.slt (BitVec.ofNat width 0) = decide (lhs.toInt < 0) := by
    rw [BitVec.slt_eq_decide, BitVec.toInt_zero]
  rw [show (0 : BitVec width) = BitVec.ofNat width 0 from rfl, BitVec.smtSDiv_zero, order]
  by_cases negative : lhs.toInt < 0
  · have positive : 0 < width := by
      apply Nat.pos_of_ne_zero
      intro none
      subst none
      rw [BitVec.of_length_zero (x := lhs)] at negative
      exact absurd negative (by decide)
    rw [if_neg (by omega), if_pos (by simpa using negative), BitVec.toNat_one positive]
  · rw [if_pos (by omega), if_neg (by simpa using negative), BitVec.toNat_allOnes]

theorem quotient_eq_denote (ty : Ty) (lhs rhs : BitVec ty.width) :
    quotient ty lhs.toNat rhs.toNat
      = ((if ty.isSigned then BvBinary.sdiv else BvBinary.udiv).denote lhs rhs).toNat := by
  unfold quotient
  simp only [Ty.reading_eq_zero, Ty.wrap_eq_of_int]
  cases sign : ty.isSigned with
  | true =>
      simp only [Ty.reading_to_nat, sign, if_true, BvBinary.denote]
      by_cases zero : rhs = 0
      · rw [if_pos zero, zero]
        exact signed_quotient_by_zero lhs
      · rw [if_neg zero, smt_sdiv_eq_sdiv lhs rhs zero]
        congr 1
        apply BitVec.eq_of_toInt_eq
        rw [BitVec.toInt_ofInt, BitVec.toInt_sdiv]
  | false =>
      simp only [Ty.reading_to_nat, sign, Bool.false_eq_true, if_false, BvBinary.denote,
        BitVec.smtUDiv]
      by_cases zero : rhs = 0
      · rw [if_pos zero, if_pos zero, if_pos (Int.natCast_nonneg _), BitVec.toNat_allOnes]
      · rw [if_neg zero, if_neg zero, Int.tdiv_eq_ediv_of_nonneg (Int.natCast_nonneg _),
          ← Int.natCast_ediv, BitVec.ofInt_natCast, BitVec.udiv_eq]
        rw [← BitVec.toNat_udiv, BitVec.ofNat_toNat, BitVec.setWidth_eq]

theorem remainder_eq_denote (ty : Ty) (lhs rhs : BitVec ty.width) :
    remainder ty lhs.toNat rhs.toNat
      = ((if ty.isSigned then BvBinary.srem else BvBinary.urem).denote lhs rhs).toNat := by
  unfold remainder
  simp only [Ty.reading_eq_zero, Ty.wrap_eq_of_int]
  cases sign : ty.isSigned with
  | true =>
      simp only [Ty.reading_to_nat, sign, if_true, BvBinary.denote]
      by_cases zero : rhs = 0
      · rw [if_pos zero, zero]
        exact congrArg BitVec.toNat BitVec.srem_zero.symm
      · rw [if_neg zero, ← BitVec.toInt_srem, BitVec.ofInt_toInt]
  | false =>
      simp only [Ty.reading_to_nat, sign, Bool.false_eq_true, if_false, BvBinary.denote]
      by_cases zero : rhs = 0
      · rw [if_pos zero, zero]
        simp
      · rw [if_neg zero, Int.tmod_eq_emod_of_nonneg (Int.natCast_nonneg _),
          ← Int.natCast_emod, BitVec.ofInt_natCast, BitVec.umod_eq]
        rw [← BitVec.toNat_umod, BitVec.ofNat_toNat, BitVec.setWidth_eq]

theorem shift_eq_denote (op : BinaryOp) (lty rty : Ty) (lhs amount : BitVec lty.width)
    (rhs : Nat) (shift : Encode.isShift op = true) (converted : amount.toNat = count lty rty rhs) :
    binary op lty rty lhs.toNat rhs
      = ((Encode.arithmetic op lty.isSigned).denote lhs amount).toNat := by
  cases op with
  | shl =>
      rw [binary, Encode.arithmetic, BvBinary.denote, BitVec.shiftLeft_eq', converted,
        BitVec.toNat_shiftLeft, Nat.shiftLeft_eq, Ty.wrap_eq_of_int]
      rw [← BitVec.toNat_ofNat, ← BitVec.ofInt_natCast]
      simp
  | shr =>
      have power : (0 : Int) ≤ 2 ^ count lty rty rhs := Int.le_of_lt (Int.pow_pos (by decide))
      rw [binary, Ty.wrap_eq_of_int, Int.fdiv_eq_ediv_of_nonneg _ power]
      cases sign : lty.isSigned with
      | true =>
          rw [Ty.reading_to_nat, sign, if_pos rfl, ← converted]
          rw [Encode.arithmetic, if_pos rfl, BvBinary.denote]
          have shifted := BitVec.toInt_sshiftRight (x := lhs) (n := amount.toNat)
          rw [Int.shiftRight_eq_div_pow] at shifted
          simp only [Int.natCast_pow, Int.cast_ofNat_Int] at shifted
          rw [← shifted, BitVec.ofInt_toInt]
      | false =>
          rw [Ty.reading_to_nat, sign, if_neg (by decide), ← converted]
          rw [Encode.arithmetic, if_neg (by decide), BvBinary.denote, BitVec.ushiftRight_eq',
            BitVec.toNat_ushiftRight, Nat.shiftRight_eq_div_pow]
          have bounded : lhs.toNat / 2 ^ amount.toNat < 2 ^ lty.width :=
            Nat.lt_of_le_of_lt (Nat.div_le_self _ _) lhs.isLt
          have embedded : (lhs.toNat : Int) / 2 ^ amount.toNat
              = ((lhs.toNat / 2 ^ amount.toNat : Nat) : Int) := by simp
          rw [embedded, BitVec.ofInt_natCast, BitVec.toNat_ofNat, Nat.mod_eq_of_lt bounded]
  | _ => cases shift

theorem arithmetic_eq_denote (op : BinaryOp) (lty rty : Ty) (lhs rhs : BitVec lty.width)
    (integer : lty.isBool = false) (plain : Encode.isShift op = false)
    (comparison : op.isComparison = false) (logical : op.isLogical = false) :
    binary op lty rty lhs.toNat rhs.toNat
      = ((Encode.arithmetic op lty.isSigned).denote lhs rhs).toNat := by
  have same : companion lty rhs.toNat = rhs.toNat := if_neg (by simp [integer])
  cases op with
  | add =>
      rw [binary, Ty.wrap_eq_of_int, BitVec.ofInt_add, BitVec.ofInt_natCast,
        BitVec.ofInt_natCast, BitVec.ofNat_toNat, BitVec.ofNat_toNat, BitVec.setWidth_eq,
        BitVec.setWidth_eq]
      rfl
  | sub =>
      rw [binary, Ty.wrap_eq_of_int, of_int_sub, BitVec.ofInt_natCast,
        BitVec.ofInt_natCast, BitVec.ofNat_toNat, BitVec.ofNat_toNat, BitVec.setWidth_eq,
        BitVec.setWidth_eq]
      rfl
  | mul =>
      rw [binary, Ty.wrap_eq_of_int, BitVec.ofInt_mul, BitVec.ofInt_natCast,
        BitVec.ofInt_natCast, BitVec.ofNat_toNat, BitVec.ofNat_toNat, BitVec.setWidth_eq,
        BitVec.setWidth_eq]
      rfl
  | div => exact quotient_eq_denote lty lhs rhs
  | rem => exact remainder_eq_denote lty lhs rhs
  | and => rw [binary, same, Encode.arithmetic, BvBinary.denote, BitVec.toNat_and]
  | or => rw [binary, same, Encode.arithmetic, BvBinary.denote, BitVec.toNat_or]
  | xor => rw [binary, same, Encode.arithmetic, BvBinary.denote, BitVec.toNat_xor]
  | shl | shr => cases plain
  | eq | ne | lt | le | gt | ge => cases comparison
  | land | lor => cases logical

theorem order_eq_denote (op : BinaryOp) (lty rty : Ty) (order : BvCompare)
    (lhs rhs : BitVec lty.width) (ordered : Encode.order? op lty.isSigned = some order) :
    binary op lty rty lhs.toNat rhs.toNat = (order.denote lhs rhs).toNat := by
  cases sign : lty.isSigned with
  | true =>
      rw [sign] at ordered
      have signed (bits : BitVec lty.width) : lty.reading bits.toNat = bits.toInt := by
        rw [Ty.reading_to_nat, sign, if_pos rfl]
      cases op <;> cases ordered <;>
        simp only [binary, signed, BvCompare.denote, BitVec.slt_eq_decide, BitVec.sle_eq_decide]
  | false =>
      rw [sign] at ordered
      have unsigned (bits : BitVec lty.width) : lty.reading bits.toNat = bits.toNat := by
        rw [Ty.reading_to_nat, sign, if_neg (by decide)]
      cases op <;> cases ordered <;>
        simp only [binary, unsigned, BvCompare.denote, BitVec.ult, BitVec.ule, Int.ofNat_lt,
          Int.ofNat_le]

theorem cast_eq_denote (source target : Ty) (bits : BitVec source.width)
    (integer : target.isBool = false) :
    cast source target bits.toNat
      = (if source.isSigned then bits.signExtend target.width
          else bits.setWidth target.width).toNat := by
  cases target with
  | bool => cases integer
  | int width signed =>
      rw [cast, Ty.wrap_eq_of_int, Ty.reading_to_nat]
      cases source.isSigned with
      | true => rfl
      | false =>
          rw [if_neg (by decide), if_neg (by decide), BitVec.ofInt_natCast, BitVec.ofNat_toNat]

end Meaning

end Condense
