import Mathlib.Algebra.Order.Ring.Int
import Mathlib.Tactic.Common

set_option autoImplicit false

/-! # Fields of instruction words

A word put together by `|||` from shifted values reads back each of them, as long as they stay
within their fields and the fields do not meet. -/

namespace Whale.BitFields

/-- The `len` bits of a word from bit `pos` on. -/
def field (w : BitVec 32) (pos len : Nat) : BitVec len := w.extractLsb' pos len

/-- A value that needs no more than `len` bits. -/
def Fits (x : BitVec 32) (len : Nat) : Prop := x.toNat < 2 ^ len

instance (x : BitVec 32) (len : Nat) : Decidable (Fits x len) :=
  inferInstanceAs (Decidable (x.toNat < 2 ^ len))

theorem getLsbD_field {w : BitVec 32} {pos len i : Nat} :
    (field w pos len).getLsbD i = (decide (i < len) && w.getLsbD (pos + i)) := by
  unfold field
  rw [BitVec.getLsbD_extractLsb']

theorem Fits.getLsbD {x : BitVec 32} {len i : Nat} (h : Fits x len) (hi : len ≤ i) :
    x.getLsbD i = false :=
  Nat.testBit_lt_two_pow (Nat.lt_of_lt_of_le h (Nat.pow_le_pow_right Nat.two_pos hi))

theorem field_or (a b : BitVec 32) (pos len : Nat) :
    field (a ||| b) pos len = field a pos len ||| field b pos len := by
  unfold field
  exact BitVec.extractLsb'_or

theorem field_shiftLeft_self {x : BitVec 32} {pos len : Nat} (hfit : pos + len ≤ 32) :
    field (x <<< pos) pos len = x.setWidth len := by
  apply BitVec.eq_of_getLsbD_eq
  intro i hi
  rw [getLsbD_field, BitVec.getLsbD_shiftLeft, BitVec.getLsbD_setWidth]
  have hpos : pos + i < 32 := by omega
  simp [hpos, hi]

theorem field_shiftLeft_disjoint {x : BitVec 32} {pos len pos' len' : Nat} (hx : Fits x len')
    (hapart : pos + len ≤ pos' ∨ pos' + len' ≤ pos) : field (x <<< pos') pos len = 0#(len) := by
  apply BitVec.eq_of_getLsbD_eq
  intro i hi
  rw [getLsbD_field, BitVec.getLsbD_shiftLeft]
  rcases hapart with h | h
  · have hlt : pos + i < pos' := by omega
    simp [hlt]
  · rw [hx.getLsbD (by omega)]
    simp

end Whale.BitFields
