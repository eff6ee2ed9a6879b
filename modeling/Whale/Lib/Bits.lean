import Mathlib.Data.Int.Basic
import Mathlib.Tactic.Positivity

set_option autoImplicit false

/-! # Bit fields of machine words

A field is the bits from `start` on; it is written by clearing a mask and setting bits, and a
signed number that fits is read back from it. -/

namespace Whale

variable {w start len : Nat}

/-- The mask has every bit of the field. -/
def CoversField (mask : BitVec w) (start len : Nat) : Prop :=
  mask.extractLsb' start len = BitVec.allOnes len

instance (mask : BitVec w) (start len : Nat) : Decidable (CoversField mask start len) :=
  inferInstanceAs (Decidable (_ = _))

/-- Masking keeps a field the mask covers. -/
theorem CoversField.and {mask : BitVec w} (h : CoversField mask start len) (x : BitVec w) :
    (x &&& mask).extractLsb' start len = x.extractLsb' start len := by
  rw [BitVec.extractLsb'_and, h, BitVec.and_allOnes]

/-- Clearing a mask clears a field it covers. -/
theorem CoversField.and_not {mask : BitVec w} (h : CoversField mask start len) (x : BitVec w) :
    (x &&& ~~~mask).extractLsb' start len = 0 := by
  apply BitVec.eq_of_getLsbD_eq
  intro i hi
  have hbit := congrArg (fun b => b.getLsbD i) h
  simp only [BitVec.getLsbD_extractLsb', BitVec.getLsbD_allOnes, hi, decide_true,
    Bool.true_and] at hbit
  simp [BitVec.getLsbD_extractLsb', hbit]

/-- A field of a word whose masked bits were replaced is a field of the new bits. -/
theorem CoversField.replace {mask : BitVec w} (h : CoversField mask start len)
    (word value : BitVec w) :
    ((word &&& ~~~mask) ||| value).extractLsb' start len = value.extractLsb' start len := by
  rw [BitVec.extractLsb'_or, h.and_not]
  exact BitVec.zero_or

theorem extractLsb'_shiftLeft_self {x : BitVec w} (h : start + len ≤ w) :
    (x <<< start).extractLsb' start len = x.extractLsb' 0 len := by
  apply BitVec.eq_of_getLsbD_eq
  intro i hi
  have hlt : start + i < w := by omega
  have hge : ¬ start + i < start := by omega
  have hi' : i < w := by omega
  simp [hi, hlt, hge, BitVec.getLsbD_eq_getElem hi']

/-- The low bits of a number are those of the number in fewer bits. -/
theorem extractLsb'_ofInt {n : Nat} (i : Int) (h : n ≤ w) :
    (BitVec.ofInt w i).extractLsb' 0 n = BitVec.ofInt n i := by
  apply BitVec.eq_of_toNat_eq
  rw [BitVec.extractLsb'_toNat, Nat.shiftRight_zero, BitVec.toNat_ofInt, BitVec.toNat_ofInt]
  have hdvd : ((2 ^ n : Nat) : Int) ∣ ((2 ^ w : Nat) : Int) :=
    Int.natCast_dvd_natCast.mpr (Nat.pow_dvd_pow 2 h)
  have hpos : (0 : Int) < ((2 ^ w : Nat) : Int) := by exact_mod_cast Nat.two_pow_pos w
  have hposn : (0 : Int) < ((2 ^ n : Nat) : Int) := by exact_mod_cast Nat.two_pow_pos n
  apply Int.ofNat.inj
  show (((i % ((2 ^ w : Nat) : Int)).toNat % 2 ^ n : Nat) : Int) =
    ((i % ((2 ^ n : Nat) : Int)).toNat : Int)
  rw [Int.natCast_emod, Int.toNat_of_nonneg (Int.emod_nonneg _ (Int.ne_of_gt hpos)),
    Int.toNat_of_nonneg (Int.emod_nonneg _ (Int.ne_of_gt hposn)), Int.emod_emod_of_dvd _ hdvd]

end Whale
