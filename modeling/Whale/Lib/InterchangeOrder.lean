import Mathlib.Data.EReal.Operations
import Mathlib.Order.Compare
import Whale.Lib.Interchange

set_option autoImplicit false

/-! # The order of words

A datum that is a number is an extended real number. Without the sign, words stand in the order
of the numbers they stand for, up to the word of infinity; with the sign, the order turns around
below zero. -/

namespace Whale

/-- The extended real number of a datum. -/
noncomputable def Datum.value : Datum → Option EReal
  | .nan => none
  | .infinity negative => some (if negative then ⊥ else ⊤)
  | .finite negative sig exp => some ((signed negative (dyadic sig exp) : ℚ) : ℝ)

theorem dyadic_lt_iff {m n : ℕ} {e : ℤ} : dyadic m e < dyadic n e ↔ m < n := by
  unfold dyadic
  rw [mul_lt_mul_iff_left₀ (two_zpow_pos e), Nat.cast_lt]

namespace Interchange

variable (b : Interchange)

/-- The word of infinity. -/
def top : ℕ := (2 ^ b.k - 1) * 2 ^ b.t

/-- The number of a word without its sign. -/
noncomputable def magnitude (w : ℕ) : EReal :=
  if w / 2 ^ b.t = 2 ^ b.k - 1 then ⊤
  else ((dyadic (if w / 2 ^ b.t = 0 then w % 2 ^ b.t else 2 ^ b.t + w % 2 ^ b.t)
    (max (w / 2 ^ b.t : ℕ) 1 - b.bias - b.t) : ℚ) : ℝ)

variable {b}

/-- A number with the sign of its word. -/
theorem decode_value (n : ℕ) : (b.decode n).value =
    if b.top < n % 2 ^ (b.t + b.k) then none
    else if n / 2 ^ (b.t + b.k) % 2 = 1 then some (-b.magnitude (n % 2 ^ (b.t + b.k)))
    else some (b.magnitude (n % 2 ^ (b.t + b.k))) := by
  have hE : n % 2 ^ (b.t + b.k) / 2 ^ b.t = n / 2 ^ b.t % 2 ^ b.k := by
    rw [pow_add, Nat.mod_mul_right_div_self]
  have hF : n % 2 ^ (b.t + b.k) % 2 ^ b.t = n % 2 ^ b.t :=
    Nat.mod_mod_of_dvd n (Nat.pow_dvd_pow 2 (by omega))
  have hsplit := Nat.div_add_mod (n % 2 ^ (b.t + b.k)) (2 ^ b.t)
  have hElt : n / 2 ^ b.t % 2 ^ b.k < 2 ^ b.k := Nat.mod_lt _ (Nat.two_pow_pos _)
  have hFlt : n % 2 ^ b.t < 2 ^ b.t := Nat.mod_lt _ (Nat.two_pow_pos _)
  unfold decode ofFields magnitude top
  rw [hE, hF] at hsplit ⊢
  rw [← hsplit]
  generalize n / 2 ^ b.t % 2 ^ b.k = E at *
  generalize n % 2 ^ b.t = F at *
  by_cases hmax : E = 2 ^ b.k - 1
  · rw [if_pos hmax, if_pos hmax, hmax, mul_comm]
    by_cases hzero : F = 0
    · rw [if_pos hzero, hzero, add_zero, if_neg (lt_irrefl _)]
      split <;> simp_all [Datum.value]
    · rw [if_neg hzero, if_pos (by omega)]
      rfl
  · have hle : ¬ (2 ^ b.k - 1) * 2 ^ b.t < 2 ^ b.t * E + F := by
      have hlast : E + 1 ≤ 2 ^ b.k - 1 := by omega
      have hmul := Nat.mul_le_mul_left (2 ^ b.t) hlast
      rw [mul_comm (2 ^ b.k - 1)]
      rw [mul_add_one] at hmul
      omega
    have hvalue : ∀ (negative : Bool) (m : ℕ) (e : ℤ), (Datum.finite negative m e).value =
        if negative = true then some (-((dyadic m e : ℚ) : ℝ) : EReal)
        else some (((dyadic m e : ℚ) : ℝ) : EReal) := by
      intro negative m e
      cases negative <;> simp [Datum.value]
    rw [if_neg hmax, if_neg hmax, if_neg hle]
    by_cases hzero : E = 0
    · have hlow : ((max E 1 : ℕ) : ℤ) - b.bias - b.t = b.low := by
        unfold low
        omega
      rw [if_pos hzero, if_pos hzero, hlow, hvalue]
      simp only [decide_eq_true_eq]
    · have hexp : max E 1 = E := by omega
      rw [if_neg hzero, if_neg hzero, hexp, hvalue]
      simp only [decide_eq_true_eq]

/-! ## Magnitudes -/

theorem magnitude_zero : b.magnitude 0 = 0 := by
  have hk : 2 ^ 2 ≤ 2 ^ b.k := Nat.pow_le_pow_right (by omega) b.two_le_k
  unfold magnitude
  rw [Nat.zero_div, if_neg (by omega), if_pos rfl, Nat.zero_mod]
  simp [dyadic]

/-- Up to infinity, a larger word is a larger number. -/
theorem magnitude_strictMonoOn : StrictMonoOn b.magnitude (Set.Iic b.top) := by
  intro v hv w hw hlt
  have hw : w ≤ b.top := hw
  have ht := Nat.two_pow_pos b.t
  have hmax : ∀ {w}, w / 2 ^ b.t = 2 ^ b.k - 1 → b.top ≤ w := by
    intro w h
    unfold top
    rw [← h]
    exact Nat.div_mul_le_self w _
  have hpow : 2 ^ (b.t + 1) = 2 ^ b.t + 2 ^ b.t := by rw [pow_succ, mul_two]
  have hvfinite : v / 2 ^ b.t ≠ 2 ^ b.k - 1 := fun h => by have := hmax h; omega
  have hE : v / 2 ^ b.t ≤ w / 2 ^ b.t := Nat.div_le_div_right hlt.le
  have hv := Nat.div_add_mod v (2 ^ b.t)
  have hw := Nat.div_add_mod w (2 ^ b.t)
  have hFv := Nat.mod_lt v ht
  unfold magnitude
  rw [if_neg hvfinite]
  by_cases hwfinite : w / 2 ^ b.t = 2 ^ b.k - 1
  · rw [if_pos hwfinite]
    exact EReal.coe_lt_top _
  · rw [if_neg hwfinite, EReal.coe_lt_coe_iff, Rat.cast_lt]
    generalize v / 2 ^ b.t = E at *
    generalize w / 2 ^ b.t = E' at *
    generalize v % 2 ^ b.t = F at *
    generalize w % 2 ^ b.t = F' at *
    -- the number of `w` is on the grid of the number of `v`
    obtain ⟨d, hd⟩ : ∃ d, max E' 1 = max E 1 + d := ⟨max E' 1 - max E 1, by omega⟩
    have hexp : ((max E' 1 : ℕ) : ℤ) - b.bias - b.t = (max E 1 : ℕ) - b.bias - b.t + d := by
      omega
    rw [hexp, dyadic_add_nat, dyadic_lt_iff]
    rcases hE.eq_or_lt with rfl | hElt
    · have hd : d = 0 := by omega
      rw [hd, pow_zero, mul_one]
      split <;> omega
    · have hE' : E' ≠ 0 := by omega
      rw [if_neg hE']
      have hone : 1 ≤ 2 ^ d := Nat.one_le_two_pow
      have hmul : 2 ^ b.t * 2 ^ d ≤ (2 ^ b.t + F') * 2 ^ d := Nat.mul_le_mul_right _ (by omega)
      split
      case isTrue =>
        have := Nat.mul_le_mul_left (2 ^ b.t) hone
        omega
      case isFalse hne =>
        have htwo : 2 ^ 1 ≤ 2 ^ d := Nat.pow_le_pow_right (by omega) (by omega)
        have := Nat.mul_le_mul_left (2 ^ b.t) htwo
        omega

theorem magnitude_nonneg {w : ℕ} (hw : w ≤ b.top) : 0 ≤ b.magnitude w := by
  rw [← magnitude_zero (b := b)]
  exact magnitude_strictMonoOn.monotoneOn (Set.mem_Iic.mpr (Nat.zero_le _)) hw (Nat.zero_le w)

theorem magnitude_pos {w : ℕ} (hw : w ≤ b.top) (hpos : 0 < w) : 0 < b.magnitude w := by
  rw [← magnitude_zero (b := b)]
  exact magnitude_strictMonoOn (Set.mem_Iic.mpr (Nat.zero_le _)) hw hpos

/-! ## Signed words -/

/-- The order of two words by their signs and magnitudes, both zeros equal. -/
def order (b : Interchange) (v w : ℕ) : Ordering :=
  let sign := 2 ^ (b.t + b.k)
  if v % sign = 0 ∧ w % sign = 0 then .eq
  else if v / sign % 2 ≠ w / sign % 2 then if v / sign % 2 = 1 then .lt else .gt
  else if v / sign % 2 = 1 then cmp (w % sign) (v % sign)
  else cmp (v % sign) (w % sign)

/-- A word that stands for a number is not beyond infinity. -/
theorem value_eq_some {n : ℕ} {x : EReal} (h : (b.decode n).value = some x) :
    n % 2 ^ (b.t + b.k) ≤ b.top ∧ x = if n / 2 ^ (b.t + b.k) % 2 = 1
      then -b.magnitude (n % 2 ^ (b.t + b.k)) else b.magnitude (n % 2 ^ (b.t + b.k)) := by
  rw [decode_value] at h
  by_cases hnan : b.top < n % 2 ^ (b.t + b.k)
  · rw [if_pos hnan] at h
    cases h
  · rw [if_neg hnan] at h
    refine ⟨not_lt.mp hnan, ?_⟩
    by_cases hsign : n / 2 ^ (b.t + b.k) % 2 = 1
    · rw [if_pos hsign] at h ⊢
      exact (Option.some.inj h).symm
    · rw [if_neg hsign] at h ⊢
      exact (Option.some.inj h).symm

/-- A number below zero is less than one above it, or they are both zero. -/
theorem neg_magnitude_lt {p q : ℕ} (hp : p ≤ b.top) (hq : q ≤ b.top) (hne : ¬ (p = 0 ∧ q = 0)) :
    -b.magnitude p < b.magnitude q := by
  rcases Nat.eq_zero_or_pos p with rfl | hpos
  · rw [magnitude_zero, neg_zero]
    exact magnitude_pos hq (by omega)
  · calc -b.magnitude p < 0 := by
          rw [EReal.neg_lt_comm, neg_zero]
          exact magnitude_pos hp hpos
      _ ≤ b.magnitude q := magnitude_nonneg hq

/-- Words that stand for numbers are in the order of the numbers. -/
theorem order_eq_cmp {v w : ℕ} {x y : EReal} (hx : (b.decode v).value = some x)
    (hy : (b.decode w).value = some y) : b.order v w = cmp x y := by
  obtain ⟨hp, rfl⟩ := value_eq_some hx
  obtain ⟨hq, rfl⟩ := value_eq_some hy
  have hs := Nat.mod_lt (v / 2 ^ (b.t + b.k)) two_pos
  have hs' := Nat.mod_lt (w / 2 ^ (b.t + b.k)) two_pos
  unfold order
  dsimp only
  generalize v % 2 ^ (b.t + b.k) = p at *
  generalize w % 2 ^ (b.t + b.k) = q at *
  generalize v / 2 ^ (b.t + b.k) % 2 = s at *
  generalize w / 2 ^ (b.t + b.k) % 2 = s' at *
  by_cases hzero : p = 0 ∧ q = 0
  · rw [if_pos hzero, hzero.1, hzero.2, magnitude_zero, neg_zero, ite_self, ite_self,
      cmp_self_eq_eq]
  rw [if_neg hzero]
  by_cases hsign : s ≠ s'
  · rw [if_pos hsign]
    by_cases hone : s = 1
    · rw [if_pos hone, if_pos hone, if_neg (by omega)]
      exact ((cmp_eq_lt_iff _ _).mpr (neg_magnitude_lt hp hq hzero)).symm
    · rw [if_neg hone, if_neg hone, if_pos (by omega)]
      refine ((cmp_eq_gt_iff _ _).mpr (neg_magnitude_lt hq hp ?_)).symm
      exact fun h => hzero ⟨h.2, h.1⟩
  · rw [not_ne_iff] at hsign
    subst hsign
    rw [if_neg (not_ne_iff.mpr rfl)]
    by_cases hone : s = 1
    · rw [if_pos hone, if_pos hone, if_pos hone, EReal.neg_strictAnti.cmp_map_eq,
        magnitude_strictMonoOn.cmp_map_eq hq hp]
    · rw [if_neg hone, if_neg hone, if_neg hone, magnitude_strictMonoOn.cmp_map_eq hp hq]

end Interchange

end Whale
