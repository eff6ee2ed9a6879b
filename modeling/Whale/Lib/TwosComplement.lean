import Mathlib.Data.BitVec
import Mathlib.Data.Int.ModEq
import Mathlib.Tactic.Common
import Whale.Lib.Bytes

set_option autoImplicit false

/-! # Integers of a fixed width

The `w`-bit numbers, signed or unsigned, as ranges of integers. Every integer is congruent
modulo `2 ^ w` to exactly one number of the range, its `reading`; an operation on machine
integers is the operation on integers followed by a reading. -/

namespace Whale

/-- The `w`-bit number, signed or unsigned, congruent to `z` modulo `2 ^ w`. -/
def reading (isSigned : Bool) (w : Nat) (z : Int) : Int :=
  if isSigned then z.bmod (2 ^ w) else z % ((2 ^ w : Nat) : Int)

/-- `z` is a `w`-bit number, signed or unsigned. -/
def InRange (isSigned : Bool) (w : Nat) (z : Int) : Prop :=
  if isSigned then -2 ^ (w - 1) ≤ z ∧ z < 2 ^ (w - 1) else 0 ≤ z ∧ z < 2 ^ w

instance (isSigned : Bool) (w : Nat) (z : Int) : Decidable (InRange isSigned w z) := by
  unfold InRange
  cases isSigned <;> exact inferInstance

variable {w : Nat} {z : Int}

theorem inRange_signed : InRange true w z ↔ -2 ^ (w - 1) ≤ z ∧ z < 2 ^ (w - 1) := Iff.rfl

theorem inRange_unsigned : InRange false w z ↔ 0 ≤ z ∧ z < 2 ^ w := Iff.rfl

theorem two_mul_two_pow_pred (hw : 0 < w) : 2 * 2 ^ (w - 1) = 2 ^ w := by
  rw [← pow_succ', Nat.sub_add_cancel hw]

theorem reading_modEq (isSigned : Bool) (w : Nat) (z : Int) :
    reading isSigned w z ≡ z [ZMOD (2 ^ w : Nat)] := by
  unfold reading
  cases isSigned
  · exact Int.mod_modEq z _
  · exact Int.bmod_emod

theorem reading_congr (isSigned : Bool) {z z' : Int} (h : z ≡ z' [ZMOD (2 ^ w : Nat)]) :
    reading isSigned w z = reading isSigned w z' := by
  unfold reading
  cases isSigned
  · exact h
  · show z.bmod (2 ^ w) = z'.bmod (2 ^ w)
    rw [← Int.emod_bmod, ← Int.emod_bmod z', h]

theorem reading_reading (s s' : Bool) (w : Nat) (z : Int) :
    reading s w (reading s' w z) = reading s w z :=
  reading_congr s (reading_modEq s' w z)

theorem reading_inRange (isSigned : Bool) (hw : 0 < w) (z : Int) :
    InRange isSigned w (reading isSigned w z) := by
  have hpos : 0 < 2 ^ w := Nat.two_pow_pos w
  cases isSigned
  · have h₀ := Int.emod_nonneg z (show ((2 ^ w : Nat) : Int) ≠ 0 by omega)
    have h₁ := Int.emod_lt_of_pos z (show (0 : Int) < ((2 ^ w : Nat) : Int) by omega)
    push_cast at h₀ h₁
    exact ⟨by simpa [reading] using h₀, by simpa [reading] using h₁⟩
  · have hhalf := two_mul_two_pow_pred hw
    have h₀ := Int.le_bmod (x := z) hpos
    have h₁ := Int.bmod_lt (x := z) hpos
    have hcast : ((2 ^ (w - 1) : Nat) : Int) = 2 ^ (w - 1) := by push_cast; rfl
    rw [inRange_signed, ← hcast]
    simp only [reading, if_true]
    omega

theorem reading_of_inRange {isSigned : Bool} (hw : 0 < w) (h : InRange isSigned w z) :
    reading isSigned w z = z := by
  cases isSigned
  · obtain ⟨h₀, h₁⟩ := inRange_unsigned.mp h
    simp only [reading, Bool.false_eq_true, if_false]
    exact Int.emod_eq_of_lt h₀ (by push_cast; exact h₁)
  · obtain ⟨h₀, h₁⟩ := inRange_signed.mp h
    have hhalf := two_mul_two_pow_pred hw
    have hcast : ((2 ^ (w - 1) : Nat) : Int) = 2 ^ (w - 1) := by push_cast; rfl
    rw [← hcast] at h₀ h₁
    simp only [reading, if_true]
    exact Int.bmod_eq_of_le (by omega) (by omega)

theorem inRange_zero (isSigned : Bool) (w : Nat) : InRange isSigned w 0 := by
  have hpos : (0 : Int) < 2 ^ w := by exact_mod_cast Nat.two_pow_pos w
  have hhalf : (0 : Int) < 2 ^ (w - 1) := by exact_mod_cast Nat.two_pow_pos (w - 1)
  cases isSigned
  · exact inRange_unsigned.mpr ⟨le_rfl, hpos⟩
  · exact inRange_signed.mpr ⟨by omega, hhalf⟩

theorem InRange.mono {isSigned : Bool} {w w' : Nat} (hw : w ≤ w') (h : InRange isSigned w z) :
    InRange isSigned w' z := by
  cases isSigned
  · obtain ⟨h₀, h₁⟩ := inRange_unsigned.mp h
    have hle : 2 ^ w ≤ 2 ^ w' := Nat.pow_le_pow_right (by omega) hw
    have hle : (2 : Int) ^ w ≤ 2 ^ w' := by exact_mod_cast hle
    exact ⟨h₀, lt_of_lt_of_le h₁ hle⟩
  · obtain ⟨h₀, h₁⟩ := inRange_signed.mp h
    have hle : 2 ^ (w - 1) ≤ 2 ^ (w' - 1) := Nat.pow_le_pow_right (by omega) (by omega)
    have hle : (2 : Int) ^ (w - 1) ≤ 2 ^ (w' - 1) := by exact_mod_cast hle
    exact inRange_signed.mpr ⟨by omega, by omega⟩

/-- A number of either range has a magnitude below `2 ^ w`. -/
theorem InRange.natAbs_lt {isSigned : Bool} (h : InRange isSigned w z) (hw : 0 < w) :
    z.natAbs < 2 ^ w := by
  have hhalf := two_mul_two_pow_pred hw
  have hpos := Nat.two_pow_pos (w - 1)
  have hcast : ((2 ^ w : Nat) : Int) = 2 ^ w := by push_cast; rfl
  have hcast' : ((2 ^ (w - 1) : Nat) : Int) = 2 ^ (w - 1) := by push_cast; rfl
  cases isSigned with
  | false =>
    have := inRange_unsigned.mp h
    omega
  | true =>
    have := inRange_signed.mp h
    omega

/-- Congruence modulo a power of two carries over to a smaller power. -/
theorem modEq_two_pow_of_le {w w' : Nat} (hw : w ≤ w') {z z' : Int}
    (h : z ≡ z' [ZMOD (2 ^ w' : Nat)]) : z ≡ z' [ZMOD (2 ^ w : Nat)] :=
  h.of_dvd (by exact_mod_cast Nat.pow_dvd_pow 2 hw)

/-! ## Bits -/

theorem reading_unsigned_ofInt (w : Nat) (z : Int) :
    reading false w z = (BitVec.ofInt w z).toNat := by
  have hpos : 0 < 2 ^ w := Nat.two_pow_pos w
  rw [BitVec.toNat_ofInt, Int.toNat_of_nonneg (Int.emod_nonneg _ (by omega))]
  rfl

theorem reading_signed_ofInt (w : Nat) (z : Int) :
    reading true w z = (BitVec.ofInt w z).toInt := by
  rw [BitVec.toInt_ofInt]
  rfl

/-- A logical shift to the right moves the bits down and fills with zeros. -/
theorem testBit_shiftRight_unsigned (w c j : Nat) (z : Int) :
    (reading false w (reading false w z / 2 ^ c)).toNat.testBit j =
      (reading false w z).toNat.testBit (c + j) := by
  have hshift : reading false w z / 2 ^ c = ((BitVec.ofInt w z >>> c).toNat : Int) := by
    rw [reading_unsigned_ofInt, BitVec.toNat_ushiftRight, Nat.shiftRight_eq_div_pow]
    push_cast
    rfl
  rw [hshift, reading_unsigned_ofInt, reading_unsigned_ofInt, BitVec.ofInt_natCast,
    BitVec.ofNat_toNat, BitVec.setWidth_eq, Int.toNat_natCast, Int.toNat_natCast]
  show (BitVec.ofInt w z >>> c).getLsbD j = (BitVec.ofInt w z).getLsbD (c + j)
  rw [BitVec.getLsbD_ushiftRight]

/-- An arithmetic shift to the right moves the bits down and fills with the sign bit. -/
theorem testBit_shiftRight_signed {w j : Nat} (hj : j < w) (c : Nat) (z : Int) :
    (reading false w (reading true w z / 2 ^ c)).toNat.testBit j =
      (reading false w z).toNat.testBit (if c + j < w then c + j else w - 1) := by
  have hshift : reading true w z / 2 ^ c = ((BitVec.ofInt w z).sshiftRight c).toInt := by
    rw [BitVec.toInt_sshiftRight, Int.shiftRight_eq_div_pow, reading_signed_ofInt]
    push_cast
    rfl
  rw [hshift, reading_unsigned_ofInt, reading_unsigned_ofInt, BitVec.ofInt_toInt,
    Int.toNat_natCast, Int.toNat_natCast]
  show ((BitVec.ofInt w z).sshiftRight c).getLsbD j = (BitVec.ofInt w z).getLsbD _
  rw [BitVec.getLsbD_sshiftRight]
  by_cases hin : c + j < w
  · simp [hin, hj]
  · simp [hin, hj, BitVec.msb_eq_getLsbD_last]

/-! # Two's complement numbers as bytes -/

/-- The `n` low bytes of an integer, least significant byte first. -/
def leInt (n : Nat) (z : Int) : List UInt8 := leBytes n (z % ((256 ^ n : Nat) : Int)).toNat

/-- The signed number of a byte string. -/
def signedValue (bs : List UInt8) : Int := (leValue bs : Int).bmod (256 ^ bs.length)

@[simp] theorem length_leInt (n : Nat) (z : Int) : (leInt n z).length = n := length_leBytes _ _

theorem leValue_leInt (n : Nat) (z : Int) :
    (leValue (leInt n z) : Int) = z % ((256 ^ n : Nat) : Int) := by
  have hpos : (0 : Int) < ((256 ^ n : Nat) : Int) := by exact_mod_cast Nat.pow_pos (by decide)
  have hnonneg := Int.emod_nonneg z hpos.ne'
  have hlt := Int.emod_lt_of_pos z hpos
  unfold leInt
  rw [leValue_leBytes_of_lt (by omega), Int.toNat_of_nonneg hnonneg]

/-- The bytes of a number that fits are read back as the number. -/
theorem signedValue_leInt {n : Nat} (hlo : -((256 ^ n : Nat) : Int) ≤ 2 * z)
    (hhi : 2 * z < ((256 ^ n : Nat) : Int)) : signedValue (leInt n z) = z := by
  unfold signedValue
  rw [length_leInt, leValue_leInt, Int.emod_bmod]
  exact Int.bmod_eq_of_le (by omega) (by omega)

/-- The bytes of any number are read back as the number modulo the number of byte strings. -/
theorem signedValue_leInt_modEq (n : Nat) (z : Int) :
    signedValue (leInt n z) ≡ z [ZMOD ((256 ^ n : Nat) : Int)] := by
  unfold signedValue Int.ModEq
  rw [length_leInt, leValue_leInt, Int.emod_bmod, Int.bmod_emod]

end Whale
