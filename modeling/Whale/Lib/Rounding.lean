import Mathlib.Algebra.Order.Field.Power
import Mathlib.Data.Rat.Floor
import Mathlib.Tactic.FieldSimp
import Mathlib.Tactic.Linarith
import Mathlib.Tactic.Positivity
import Mathlib.Tactic.Ring

set_option autoImplicit false

/-! # Rounding to nearest, ties to even

Binary floating numbers without a largest exponent: `m * 2 ^ e` with a significand of `t + 1`
bits and an exponent of at least `low`. `Nearest t low v m e` says that the number with the
canonical significand `m` and exponent `e` is the one nearest to `v`, the one with the even
significand when two are equally near. It is found by rounding `v / 2 ^ e` to an integer for
the right `e` (`nearest_of_quantum`), and the integer may be found on a number that only
stands for `v / 2 ^ e`: what lies below its last bits was jammed into an odd last bit
(`Stands`). -/

namespace Whale

/-- The number `m * 2 ^ e`. -/
def dyadic (m : ℕ) (e : ℤ) : ℚ := m * 2 ^ e

/-- `m * 2 ^ e` is a number with a significand of `t + 1` bits. -/
structure OnGrid (t : ℕ) (low : ℤ) (m : ℕ) (e : ℤ) : Prop where
  sig : m < 2 ^ (t + 1)
  exp : low ≤ e

/-- The significand of a number is as large as its exponent allows. -/
structure Canonical (t : ℕ) (low : ℤ) (m : ℕ) (e : ℤ) : Prop extends OnGrid t low m e where
  full : 2 ^ t ≤ m ∨ e = low

/-- `m * 2 ^ e` is the number nearest to `v`; of two, the one with the even significand. -/
structure Nearest (t : ℕ) (low : ℤ) (v : ℚ) (m : ℕ) (e : ℤ) : Prop where
  canonical : Canonical t low m e
  closest : ∀ m' e', OnGrid t low m' e' → |v - dyadic m e| ≤ |v - dyadic m' e'|
  even : ∀ m' e', OnGrid t low m' e' → |v - dyadic m e| = |v - dyadic m' e'| →
    dyadic m' e' ≠ dyadic m e → Even m

theorem two_zpow_pos (e : ℤ) : (0 : ℚ) < 2 ^ e := zpow_pos (by norm_num) e

theorem dyadic_nonneg (m : ℕ) (e : ℤ) : 0 ≤ dyadic m e :=
  mul_nonneg (Nat.cast_nonneg m) (two_zpow_pos e).le

theorem dyadic_eq_zero_iff {m : ℕ} {e : ℤ} : dyadic m e = 0 ↔ m = 0 := by
  unfold dyadic
  rw [mul_eq_zero, Nat.cast_eq_zero]
  exact or_iff_left (two_zpow_pos e).ne'

theorem zero_iff_of_dyadic_eq {m m' : ℕ} {e e' : ℤ} (h : dyadic m e = dyadic m' e') :
    m = 0 ↔ m' = 0 := by
  rw [← dyadic_eq_zero_iff (e := e), h, dyadic_eq_zero_iff]

/-- Moving bits from the exponent to the significand. -/
theorem dyadic_shift (m n : ℕ) (e : ℤ) : dyadic (m * 2 ^ n) (e - n) = dyadic m e := by
  unfold dyadic
  rw [zpow_sub₀ (by norm_num), zpow_natCast]
  push_cast
  field_simp

theorem dyadic_add_nat (m n : ℕ) (e : ℤ) : dyadic m (e + n) = dyadic (m * 2 ^ n) e := by
  rw [← dyadic_shift m n (e + n), add_sub_cancel_right]

theorem dyadic_mul (m n : ℕ) (e e' : ℤ) : dyadic m e * dyadic n e' = dyadic (m * n) (e + e') := by
  unfold dyadic
  rw [zpow_add₀ (by norm_num)]
  push_cast
  ring

theorem dyadic_inj {m n : ℕ} {e : ℤ} : dyadic m e = dyadic n e ↔ m = n := by
  constructor
  · intro h
    exact_mod_cast mul_right_cancel₀ (two_zpow_pos e).ne' h
  · rintro rfl
    rfl

/-- Numbers compare by the places of their first bits. -/
theorem place_lt_of_dyadic_le {m n i j : ℕ} {e e' : ℤ} (hm : 2 ^ i ≤ m) (hn : n < 2 ^ j)
    (h : dyadic m e ≤ dyadic n e') : i + e < j + e' := by
  have hlow : (2 : ℚ) ^ i ≤ m := by exact_mod_cast hm
  have hhigh : (n : ℚ) < 2 ^ j := by exact_mod_cast hn
  rw [← zpow_lt_zpow_iff_right₀ (show (1 : ℚ) < 2 by norm_num)]
  calc (2 : ℚ) ^ (i + e) = 2 ^ i * 2 ^ e := by rw [zpow_add₀ (by norm_num), zpow_natCast]
    _ ≤ dyadic m e := mul_le_mul_of_nonneg_right hlow (two_zpow_pos e).le
    _ ≤ dyadic n e' := h
    _ < 2 ^ j * 2 ^ e' := mul_lt_mul_of_pos_right hhigh (two_zpow_pos e')
    _ = 2 ^ (j + e') := by rw [zpow_add₀ (by norm_num), zpow_natCast]

/-- A number with a large exponent has low bits of zero on a smaller one. -/
theorem dvd_of_dyadic_eq {m n k : ℕ} {e e' : ℤ} (h : dyadic n e = dyadic m e')
    (hle : e + k ≤ e') : 2 ^ k ∣ n := by
  obtain ⟨j, hj⟩ := Int.eq_ofNat_of_zero_le (sub_nonneg.mpr hle)
  have he : e' = e + (j + k : ℕ) := by push_cast; omega
  rw [he, dyadic_add_nat, dyadic_inj] at h
  rw [h, pow_add, ← mul_assoc]
  exact Nat.dvd_mul_left _ _

/-! ## Whole parts -/

/-- The whole part of a number: what comes after the point goes. -/
def truncate (v : ℚ) : ℤ := if v < 0 then ⌈v⌉ else ⌊v⌋

theorem truncate_of_nonneg {v : ℚ} (hv : 0 ≤ v) : truncate v = ⌊v⌋ := if_neg hv.not_gt

theorem truncate_neg (v : ℚ) : truncate (-v) = -truncate v := by
  unfold truncate
  rcases lt_trichotomy v 0 with hlt | rfl | hgt
  · rw [if_neg (by linarith), if_pos hlt, Int.floor_neg]
  · rw [neg_zero, if_neg (lt_irrefl 0), Int.floor_zero, neg_zero]
  · rw [if_pos (by linarith), if_neg hgt.not_gt, Int.ceil_neg]

/-! ## The nearest integer -/

/-- `m` is the integer nearest to `q`; of two, the even one. -/
structure NearestInt (q : ℚ) (m : ℕ) : Prop where
  close : |q - m| ≤ 1 / 2
  even : |q - m| = 1 / 2 → Even m

theorem nearestInt_self (m : ℕ) : NearestInt m m where
  close := by
    rw [sub_self, abs_zero]
    norm_num
  even := by
    intro h
    rw [sub_self, abs_zero] at h
    norm_num at h

/-- No integer is closer, and none but an even one has a rival. -/
theorem NearestInt.closest {q : ℚ} {m : ℕ} (h : NearestInt q m) (k : ℤ) :
    |q - m| ≤ |q - k| ∧ (|q - m| = |q - k| → k ≠ m → Even m) := by
  by_cases hk : k = m
  · subst hk
    exact ⟨by push_cast; exact le_rfl, fun _ hne => absurd rfl hne⟩
  · -- Two different integers are at least one apart.
    have hapart : (1 : ℚ) ≤ |(k : ℚ) - m| := by
      have hone : 1 ≤ |k - (m : ℤ)| := Int.one_le_abs (sub_ne_zero.mpr hk)
      have hcast : ((|k - (m : ℤ)| : ℤ) : ℚ) = |(k : ℚ) - m| := by push_cast; rfl
      rw [← hcast]
      exact_mod_cast hone
    have htriangle : |(k : ℚ) - m| ≤ |q - m| + |q - k| := by
      have hsplit : (k : ℚ) - m = (q - m) - (q - k) := by ring
      rw [hsplit]
      exact abs_sub _ _
    have hclose := h.close
    refine ⟨by linarith, fun heq _ => h.even ?_⟩
    rw [← heq] at htriangle
    linarith

/-- The nearest integer lies between the integers around `q`. -/
theorem NearestInt.le_of_le {q : ℚ} {m n : ℕ} (h : NearestInt q m) (hn : (n : ℚ) ≤ q) :
    n ≤ m := by
  by_contra hlt
  have hle : (m : ℚ) + 1 ≤ n := by exact_mod_cast Nat.lt_of_not_le hlt
  have hclose := (abs_le.mp h.close).2
  linarith

theorem NearestInt.le_of_lt {q : ℚ} {m n : ℕ} (h : NearestInt q m) (hn : q < (n : ℚ)) :
    m ≤ n := by
  by_contra hlt
  have hle : (n : ℚ) + 1 ≤ m := by exact_mod_cast Nat.lt_of_not_le hlt
  have hclose := (abs_le.mp h.close).1
  linarith

/-- The nearest integer from a quotient and a remainder: the remainder decides against the
half, the quotient's parity decides at the half. -/
theorem nearestInt_of_remainder {q ρ unit : ℚ} {Q : ℕ} {up : Prop} [Decidable up]
    (hunit : 0 < unit) (hq : q = Q * unit + ρ) (hpos : 0 ≤ ρ) (hlt : ρ ≤ unit)
    (hup : up → unit / 2 ≤ ρ ∧ (ρ = unit / 2 → Q % 2 = 1))
    (hdown : ¬ up → ρ ≤ unit / 2 ∧ (ρ = unit / 2 → Q % 2 = 0)) :
    NearestInt (q / unit) (Q + (decide up).toNat) := by
  have hfrac : q / unit = Q + ρ / unit := by
    rw [hq]
    field_simp
  have hhalf : ρ / unit = 1 / 2 → ρ = unit / 2 := by
    intro h
    rw [div_eq_iff hunit.ne'] at h
    linarith
  -- At a tie the two conditions leave the even neighbour.
  by_cases hc : up
  · obtain ⟨hge, heq⟩ := hup hc
    have hge' : 1 / 2 ≤ ρ / unit := by rw [le_div_iff₀ hunit]; linarith
    have hle' : ρ / unit ≤ 1 := by rw [div_le_one hunit]; exact hlt
    have hval : q / unit - ((Q + (decide up).toNat : ℕ) : ℚ) = ρ / unit - 1 := by
      rw [hfrac, decide_eq_true hc, Bool.toNat_true]
      push_cast
      ring
    refine ⟨?_, fun h => ?_⟩
    · rw [hval, abs_of_nonpos (by linarith)]
      linarith
    · rw [hval, abs_of_nonpos (by linarith)] at h
      have hodd := heq (hhalf (by linarith))
      rw [decide_eq_true hc, Bool.toNat_true, Nat.even_iff]
      omega
  · obtain ⟨hle, heq⟩ := hdown hc
    have hle' : ρ / unit ≤ 1 / 2 := by rw [div_le_iff₀ hunit]; linarith
    have hval : q / unit - ((Q + (decide up).toNat : ℕ) : ℚ) = ρ / unit := by
      rw [hfrac, decide_eq_false hc, Bool.toNat_false]
      push_cast
      ring
    refine ⟨?_, fun h => ?_⟩
    · rw [hval, abs_of_nonneg (by positivity)]
      exact hle'
    · rw [hval, abs_of_nonneg (by positivity)] at h
      have heven := heq (hhalf h)
      rw [decide_eq_false hc, Bool.toNat_false, Nat.even_iff]
      omega

/-! ## The nearest number -/

variable {t : ℕ} {low : ℤ} {v : ℚ} {m : ℕ} {e : ℤ}

/-- Every number is a multiple of `2 ^ e` or smaller than `2 ^ t * 2 ^ e`. -/
theorem OnGrid.multiple {m' : ℕ} {e' : ℤ} (h : OnGrid t low m' e') (e : ℤ) :
    (∃ k : ℤ, dyadic m' e' = k * 2 ^ e) ∨ (e' < e ∧ dyadic m' e' < 2 ^ t * 2 ^ e) := by
  rcases le_or_gt e e' with hle | hlt
  · left
    obtain ⟨n, hn⟩ := Int.eq_ofNat_of_zero_le (sub_nonneg.mpr hle)
    have he : e' = e + n := by omega
    refine ⟨(m' * 2 ^ n : ℕ), ?_⟩
    rw [he, dyadic_add_nat, dyadic]
    push_cast
    rfl
  · right
    refine ⟨hlt, ?_⟩
    have hsig : (m' : ℚ) < 2 ^ (t + 1) := by exact_mod_cast h.sig
    have hexp : (2 : ℚ) ^ e' ≤ 2 ^ (e - 1) := zpow_le_zpow_right₀ (by norm_num) (by omega)
    calc dyadic m' e' < 2 ^ (t + 1) * 2 ^ e' :=
          mul_lt_mul_of_pos_right hsig (two_zpow_pos e')
      _ ≤ 2 ^ (t + 1) * 2 ^ (e - 1) := mul_le_mul_of_nonneg_left hexp (by positivity)
      _ = 2 ^ t * 2 ^ e := by
          rw [zpow_sub_one₀ (by norm_num), pow_succ]
          ring

/-- Rounding to a multiple of `2 ^ e` gives the nearest number, when `e` is the least exponent
or `v` has `t + 1` bits above `2 ^ e`. -/
theorem closest_of_quantum (hlow : e = low ∨ 2 ^ t * 2 ^ e ≤ v) (h : NearestInt (v / 2 ^ e) m)
    {m' : ℕ} {e' : ℤ} (hgrid : OnGrid t low m' e') :
    |v - dyadic m e| ≤ |v - dyadic m' e'| ∧
      (|v - dyadic m e| = |v - dyadic m' e'| → dyadic m' e' ≠ dyadic m e → Even m) := by
  have hpos := two_zpow_pos e
  have hscale : ∀ k : ℤ, |v - k * 2 ^ e| = |v / 2 ^ e - k| * 2 ^ e := by
    intro k
    rw [← abs_of_pos hpos, ← abs_mul, abs_of_pos hpos, sub_mul, div_mul_cancel₀ _ hpos.ne']
  have hm : |v - dyadic m e| = |v / 2 ^ e - m| * 2 ^ e := by
    have := hscale m
    push_cast at this
    exact this
  rcases hgrid.multiple e with ⟨k, hk⟩ | ⟨hlt, hsmall⟩
  · obtain ⟨hle, htie⟩ := h.closest k
    rw [hm, hk, hscale]
    refine ⟨mul_le_mul_of_nonneg_right hle hpos.le, fun heq hne => ?_⟩
    refine htie (mul_right_cancel₀ hpos.ne' heq) ?_
    rintro rfl
    exact hne (by rw [dyadic]; push_cast; rfl)
  · -- A number with a smaller exponent lies below `2 ^ t * 2 ^ e`, which is nearer to `v`.
    have hv : 2 ^ t * 2 ^ e ≤ v := hlow.resolve_left (by have := hgrid.exp; omega)
    have hle := (h.closest (2 ^ t : ℕ)).1
    have hbase : |v - dyadic m e| ≤ v - 2 ^ t * 2 ^ e := by
      rw [hm]
      calc |v / 2 ^ e - m| * 2 ^ e ≤ |v / 2 ^ e - ((2 ^ t : ℕ) : ℤ)| * 2 ^ e :=
            mul_le_mul_of_nonneg_right hle hpos.le
        _ = |v - ((2 ^ t : ℕ) : ℤ) * 2 ^ e| := (hscale _).symm
        _ = v - 2 ^ t * 2 ^ e := by
            push_cast
            exact abs_of_nonneg (sub_nonneg.mpr hv)
    have hfar : v - 2 ^ t * 2 ^ e < |v - dyadic m' e'| :=
      lt_of_lt_of_le (by linarith) (le_abs_self _)
    exact ⟨(hbase.trans_lt hfar).le, fun heq => absurd heq (hbase.trans_lt hfar).ne⟩

/-- The nearest number by its rounded significand. -/
theorem nearest_of_quantum (hexp : low ≤ e) (hlow : e = low ∨ 2 ^ t * 2 ^ e ≤ v)
    (h : NearestInt (v / 2 ^ e) m) (hm : m < 2 ^ (t + 1)) : Nearest t low v m e where
  canonical := by
    refine ⟨⟨hm, hexp⟩, ?_⟩
    rcases hlow with hlow | hlow
    · exact Or.inr hlow
    · left
      refine h.le_of_le ?_
      rw [le_div_iff₀ (two_zpow_pos e)]
      exact_mod_cast hlow
  closest m' e' hgrid := (closest_of_quantum hlow h hgrid).1
  even m' e' hgrid := (closest_of_quantum hlow h hgrid).2

/-- A significand that rounds up to `t + 2` bits goes into the next exponent. -/
theorem nearest_of_carry (ht : 0 < t) (hexp : low ≤ e) (hlow : e = low ∨ 2 ^ t * 2 ^ e ≤ v)
    (h : NearestInt (v / 2 ^ e) (2 ^ (t + 1))) : Nearest t low v (2 ^ t) (e + 1) := by
  have hsame : dyadic (2 ^ t) (e + 1) = dyadic (2 ^ (t + 1)) e := dyadic_add_nat (2 ^ t) 1 e
  refine ⟨⟨⟨?_, by omega⟩, Or.inl le_rfl⟩, fun m' e' hgrid => ?_, fun m' e' hgrid heq hne => ?_⟩
  · exact Nat.pow_lt_pow_right (by omega) (by omega)
  · rw [hsame]
    exact (closest_of_quantum hlow h hgrid).1
  · exact (Nat.even_pow.mpr ⟨even_two, by omega⟩)

/-- Of a number itself, the nearest is that number. -/
theorem Nearest.eq_of_onGrid (h : Nearest t low v m e) {m' : ℕ} {e' : ℤ}
    (hgrid : OnGrid t low m' e') (hv : v = dyadic m' e') : dyadic m e = v := by
  have hle := h.closest m' e' hgrid
  rw [hv, sub_self, abs_zero, abs_nonpos_iff, sub_eq_zero] at hle
  rw [hv, hle]

/-- Canonical significands and exponents are determined by the number. -/
theorem Canonical.unique {m' : ℕ} {e' : ℤ} (h : Canonical t low m e) (h' : Canonical t low m' e')
    (heq : dyadic m e = dyadic m' e') : m = m' ∧ e = e' := by
  -- The smaller exponent would need a significand of more bits.
  have hkey : ∀ {m m' : ℕ} {e e' : ℤ}, Canonical t low m e → Canonical t low m' e' →
      dyadic m e = dyadic m' e' → e < e' → False := by
    intro m m' e e' h h' heq hlt
    obtain ⟨n, hn⟩ := Int.eq_ofNat_of_zero_le (show 0 ≤ e' - (e + 1) by omega)
    have he : e' = e + (n + 1 : ℕ) := by push_cast; omega
    have hfull : 2 ^ t ≤ m' := h'.full.resolve_right (by have := h.exp; omega)
    rw [he, dyadic_add_nat] at heq
    have hsig : m = m' * 2 ^ (n + 1) := dyadic_inj.mp heq
    have hbig : 2 ^ t * 2 ≤ m' * 2 ^ (n + 1) :=
      Nat.mul_le_mul hfull (by rw [pow_succ]; have := Nat.two_pow_pos n; omega)
    have := h.sig
    rw [pow_succ] at this
    omega
  rcases lt_trichotomy e e' with hlt | rfl | hgt
  · exact (hkey h h' heq hlt).elim
  · exact ⟨dyadic_inj.mp heq, rfl⟩
  · exact (hkey h' h heq.symm hgt).elim

/-! ## Standing in for a number -/

/-- `n` stands for `q`: it is `q`, or an odd integer right next to it. Even integers compare
with `n` as they do with `q`. -/
def Stands (n : ℕ) (q : ℚ) : Prop := q = n ∨ (n % 2 = 1 ∧ |q - n| < 1)

theorem stands_self (n : ℕ) : Stands n n := Or.inl rfl

theorem Stands.add_even {n : ℕ} {q : ℚ} (h : Stands n q) {k : ℕ} (hk : k % 2 = 0) :
    Stands (k + n) (k + q) := by
  rcases h with rfl | ⟨hodd, hnear⟩
  · left
    push_cast
    rfl
  · right
    refine ⟨by omega, ?_⟩
    push_cast
    rwa [add_sub_add_left_eq_sub]

theorem Stands.sub_even {n : ℕ} {q : ℚ} (h : Stands n q) {k : ℕ} (hk : k % 2 = 0)
    (hle : q ≤ k) : n ≤ k ∧ Stands (k - n) (k - q) := by
  rcases h with rfl | ⟨hodd, hnear⟩
  · have hnk : n ≤ k := by exact_mod_cast hle
    refine ⟨hnk, Or.inl ?_⟩
    rw [Nat.cast_sub hnk]
  · have hnk : n ≤ k := by
      have hlt : (n : ℚ) < k + 1 := by linarith [(abs_lt.mp hnear).1]
      have hlt : n < k + 1 := by exact_mod_cast hlt
      omega
    refine ⟨hnk, Or.inr ⟨by omega, ?_⟩⟩
    rw [Nat.cast_sub hnk, sub_sub_sub_cancel_left, abs_sub_comm]
    exact hnear

theorem Stands.le_of_even_le {n : ℕ} {q : ℚ} (h : Stands n q) {k : ℕ} (hk : k % 2 = 0)
    (hle : k ≤ n) : (k : ℚ) ≤ q := by
  have hcast : (k : ℚ) ≤ n := by exact_mod_cast hle
  rcases h with rfl | ⟨hodd, hnear⟩
  · exact hcast
  · have hlt : (k : ℚ) + 1 ≤ n := by
      have : k + 1 ≤ n := by omega
      exact_mod_cast this
    linarith [(abs_lt.mp hnear).1]

theorem Stands.lt_of_lt {n : ℕ} {q : ℚ} (h : Stands n q) {k : ℕ} (hlt : n < k) : q < k := by
  have hcast : (n : ℚ) + 1 ≤ k := by exact_mod_cast hlt
  rcases h with rfl | ⟨hodd, hnear⟩
  · linarith
  · linarith [(abs_lt.mp hnear).2]

end Whale
