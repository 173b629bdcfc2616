import Condense.Word
import Mathlib.Algebra.Ring.Int.Defs
import Mathlib.Algebra.Ring.Nat

/-!
# Words as bit patterns

A word at a width of at most 64 bits is a bit pattern of that width with zeros above it.
Masking, the sign bit and sign extension of words are stated here as operations on bit
patterns, so that no later proof looks at a mask again. Nothing is said of wider widths,
at which a word no longer holds a whole pattern.
-/

namespace Condense.Word

set_option autoImplicit false

def ofBits {width : Nat} (bits : BitVec width) : UInt64 :=
  .ofBitVec (bits.setWidth 64)

theorem one_shift_to_nat {place : Nat} (inside : place < 64) :
    ((1 : UInt64) <<< place.toUInt64).toNat = 2 ^ place := by
  have power : 2 ^ place < 2 ^ 64 := Nat.pow_lt_pow_right (by decide) inside
  have count : place.toUInt64.toNat = place := by
    rw [Nat.toUInt64_eq, UInt64.toNat_ofNat', Nat.mod_eq_of_lt (by omega)]
  rw [UInt64.toNat_shiftLeft, count, Nat.mod_eq_of_lt inside]
  simp only [Nat.shiftLeft_eq, UInt64.reduceToNat, Nat.one_mul]
  exact Nat.mod_eq_of_lt power

theorem mask_to_nat (width : Nat) (narrow : width ≤ 64) :
    (mask width).toNat = 2 ^ width - 1 := by
  unfold mask
  by_cases full : 64 ≤ width
  · have same : width = 64 := by omega
    subst same
    rfl
  · have positive : 0 < 2 ^ width := Nat.two_pow_pos width
    have power : 2 ^ width < 2 ^ 64 := Nat.pow_lt_pow_right (by omega) (by omega)
    rw [if_neg full, UInt64.toNat_sub, one_shift_to_nat (by omega)]
    simp only [UInt64.reduceToNat]
    omega

theorem to_nat_of_fits {width pattern : Nat} (narrow : width ≤ 64) (fits : pattern < 2 ^ width) :
    pattern.toUInt64.toNat = pattern := by
  have small : pattern < 2 ^ 64 :=
    Nat.lt_of_lt_of_le fits (Nat.pow_le_pow_right (by decide) narrow)
  rw [Nat.toUInt64_eq, UInt64.toNat_ofNat', Nat.mod_eq_of_lt small]

theorem truncate_to_nat (value : UInt64) (width : Nat) (narrow : width ≤ 64) :
    (truncate value width).toNat = value.toNat % 2 ^ width := by
  rw [truncate, UInt64.toNat_and, mask_to_nat width narrow]
  exact Nat.and_two_pow_sub_one_eq_mod _ _

theorem of_bits_to_nat {width : Nat} (bits : BitVec width) (narrow : width ≤ 64) :
    (ofBits bits).toNat = bits.toNat := by
  have := BitVec.toNat_setWidth_of_le (b := bits) narrow
  simpa [ofBits] using this

theorem truncate_eq_of_bits (value : UInt64) (width : Nat) (narrow : width ≤ 64) :
    truncate value width = ofBits (value.toBitVec.setWidth width) := by
  apply UInt64.toNat_inj.mp
  rw [truncate_to_nat value width narrow, of_bits_to_nat _ narrow, BitVec.toNat_setWidth]
  rfl

theorem truncate_of_bits {width : Nat} (bits : BitVec width) (narrow : width ≤ 64) :
    truncate (ofBits bits) width = ofBits bits := by
  apply UInt64.toNat_inj.mp
  rw [truncate_to_nat _ width narrow, of_bits_to_nat bits narrow]
  exact Nat.mod_eq_of_lt bits.isLt

theorem sign_bit_to_nat (width : Nat) (positive : 1 ≤ width) (narrow : width ≤ 64) :
    (signBit width).toNat = 2 ^ (width - 1) := by
  rw [signBit, if_pos ⟨positive, narrow⟩]
  exact one_shift_to_nat (by omega)

theorem sign_bit_to_bit_vec (width : Nat) (positive : 1 ≤ width) (narrow : width ≤ 64) :
    (signBit width).toBitVec = BitVec.twoPow 64 (width - 1) := by
  apply BitVec.eq_of_toNat_eq
  rw [BitVec.toNat_twoPow_of_lt (by omega)]
  exact sign_bit_to_nat width positive narrow

theorem is_negative_of_bits {width : Nat} (bits : BitVec width) (positive : 1 ≤ width)
    (narrow : width ≤ 64) : isNegative (ofBits bits) width = bits.msb := by
  have last : (bits.setWidth 64).getLsbD (width - 1) = bits.msb := by
    rw [BitVec.getLsbD_setWidth, BitVec.msb_eq_getLsbD_last]
    simp only [Bool.and_eq_right_iff_imp, decide_eq_true_eq]
    omega
  have nonzero : BitVec.twoPow 64 (width - 1) ≠ BitVec.ofNat 64 0 := by
    intro zero
    have power := congrArg BitVec.toNat zero
    rw [BitVec.toNat_twoPow_of_lt (by omega)] at power
    exact absurd power (Nat.ne_of_gt (Nat.two_pow_pos _))
  have conjunction : (ofBits bits &&& signBit width).toBitVec
      = if bits.msb then BitVec.twoPow 64 (width - 1) else BitVec.ofNat 64 0 := by
    rw [UInt64.toBitVec_and, sign_bit_to_bit_vec width positive narrow, ← last]
    exact BitVec.and_twoPow _ _
  cases sign : bits.msb with
  | false =>
      rw [sign] at conjunction
      have zero : ofBits bits &&& signBit width = 0 := UInt64.toBitVec_inj.mp conjunction
      simp [isNegative, zero]
  | true =>
      rw [sign] at conjunction
      have some : ofBits bits &&& signBit width ≠ 0 := by
        intro zero
        rw [zero] at conjunction
        exact nonzero conjunction.symm
      simp [isNegative, some]

theorem mask_to_bit_vec (width : Nat) (narrow : width ≤ 64) :
    (mask width).toBitVec = (BitVec.allOnes width).setWidth 64 := by
  apply BitVec.eq_of_toNat_eq
  rw [BitVec.toNat_setWidth_of_le narrow, BitVec.toNat_allOnes]
  exact mask_to_nat width narrow

theorem sign_extend_of_bits {width : Nat} (bits : BitVec width) (positive : 1 ≤ width)
    (narrow : width ≤ 64) : signExtend (ofBits bits) width = .ofBitVec (bits.signExtend 64) := by
  unfold signExtend
  rw [is_negative_of_bits bits positive narrow]
  by_cases full : width = 64
  · subst full
    rw [BitVec.signExtend_eq]
    simp [ofBits]
  · cases sign : bits.msb with
    | false =>
        rw [BitVec.signExtend_eq_setWidth_of_msb_false sign]
        simp [ofBits]
    | true =>
        have short : width < 64 := by omega
        simp only [short, decide_true, Bool.and_true, if_true]
        apply UInt64.toBitVec_inj.mp
        apply BitVec.eq_of_getLsbD_eq
        intro place bound
        rw [UInt64.toBitVec_or, UInt64.toBitVec_not, mask_to_bit_vec width narrow]
        simp only [ofBits, BitVec.getLsbD_or, BitVec.getLsbD_not, BitVec.getLsbD_setWidth,
          BitVec.getLsbD_signExtend, BitVec.getLsbD_allOnes, sign, bound, decide_true,
          Bool.true_and]
        by_cases inside : place < width
        · simp [inside]
        · simp [inside]

end Condense.Word
