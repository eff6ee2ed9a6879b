import Mathlib.Algebra.Order.Ring.Int
import Mathlib.Tactic.Common

set_option autoImplicit false

/-! # Unsigned machine words as natural numbers

A `u64`/`usize` value is a `Nat` below `2 ^ 64`. The operations that can leave that range
are the checked ones: they return `none` where the machine operation overflows. -/

namespace Whale

/-- One past the largest `u64` (and, on the 64-bit hosts considered here, `usize`). -/
def wordBound : Nat := 2 ^ 64

/-- The largest `u64`. -/
def wordMax : Nat := wordBound - 1

/-- `u64::checked_add`. -/
def checkedAdd (a b : Nat) : Option Nat := if a + b < wordBound then some (a + b) else none

/-- `u64::checked_mul`. -/
def checkedMul (a b : Nat) : Option Nat := if a * b < wordBound then some (a * b) else none

/-- `u64::checked_sub`. -/
def checkedSub (a b : Nat) : Option Nat := if b ≤ a then some (a - b) else none

theorem checkedAdd_eq_some {a b c : Nat} :
    checkedAdd a b = some c ↔ a + b = c ∧ c < wordBound := by
  unfold checkedAdd
  split
  · simp only [Option.some.injEq]
    omega
  · simp only [reduceCtorEq, false_iff]
    omega

theorem checkedMul_eq_some {a b c : Nat} :
    checkedMul a b = some c ↔ a * b = c ∧ c < wordBound := by
  unfold checkedMul
  split
  · rename_i h
    simp only [Option.some.injEq]
    constructor
    · rintro rfl
      exact ⟨rfl, h⟩
    · exact fun h => h.1
  · rename_i h
    simp only [reduceCtorEq, false_iff]
    rintro ⟨rfl, h'⟩
    exact h h'

theorem checkedSub_eq_some {a b c : Nat} : checkedSub a b = some c ↔ b ≤ a ∧ a - b = c := by
  unfold checkedSub
  split
  · rename_i h
    simp [h]
  · rename_i h
    simp [h]

/-- `u64::is_power_of_two`. -/
def isPowerOfTwo (n : Nat) : Bool := n ≠ 0 && (n &&& (n - 1)) == 0

theorem isPowerOfTwo_iff {n : Nat} : isPowerOfTwo n = true ↔ ∃ k, n = 2 ^ k := by
  unfold isPowerOfTwo
  rw [Bool.and_eq_true, decide_eq_true_eq, beq_iff_eq]
  exact Nat.ne_zero_and_sub_one_eq_zero_iff_isPowerOfTwo

end Whale
