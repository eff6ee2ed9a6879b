import Whale.Float.Pack

set_option autoImplicit false

/-! # Literals agree with conversions

A literal reaches half precision by its own rounding, a value of a run by `pack`. Both shift
by the same number of bits and round the same way; only the carry is put together differently. -/

namespace Whale

/-- The step of the literal, which adds one or nothing. -/
theorem roundBits_mask {n s : ℕ} (hs : s < 128) :
    n >>> s + (if n &&& (2 ^ s - 1) > 2 ^ (s - 1) ∨
      (n &&& (2 ^ s - 1) = 2 ^ (s - 1) ∧ n >>> s &&& 1 ≠ 0) then 1 else 0) = roundBits n s := by
  have hle : ¬ s > 128 := by omega
  have hne : ¬ s = 128 := by omega
  unfold roundBits
  rw [if_neg hle, if_neg hne, Nat.and_two_pow_sub_one_eq_mod, Nat.and_one_is_mod]
  congr 1
  split
  · next h => rw [decide_eq_true h]; rfl
  · next h => rw [decide_eq_false h]; rfl

/-- A half from the fields of a double. -/
def halfWord (E F : ℕ) : ℕ :=
  if E = 2047 then if F = 0 then 0x7c00 else 0x7e00
  else if E = 0 then 0
  else
    let unbiased : ℤ := E - 1023
    if unbiased > 15 then 0x7c00
    else if unbiased < -25 then 0
    else if unbiased < -14 then roundBits (2 ^ 52 + F) (28 - unbiased).toNat
    else ((unbiased + 14).toNat <<< 10) + roundBits (2 ^ 52 + F) 42

theorem f64ToF16_eq (value : UInt64) :
    f64ToF16 value = UInt16.ofNat ((if value.toNat.testBit 63 then 2 ^ 15 else 0) |||
      halfWord (value.toNat / 2 ^ 52 % 2 ^ 11) (value.toNat % 2 ^ 52)) := by
  have hsign : value.toNat >>> 48 &&& 0x8000 = if value.toNat.testBit 63 then 2 ^ 15 else 0 := by
    have h := FloatFormat.and_two_pow (value.toNat >>> 48) 15
    rw [Nat.testBit_shiftRight] at h
    exact h
  have hexp : value.toNat >>> 52 &&& 0x7ff = value.toNat / 2 ^ 52 % 2 ^ 11 := by
    rw [Nat.shiftRight_eq_div_pow]
    exact Nat.and_two_pow_sub_one_eq_mod _ 11
  have hF : value.toNat % 2 ^ 52 < 2 ^ 52 := Nat.mod_lt _ (Nat.two_pow_pos _)
  have hor : value.toNat % 2 ^ 52 ||| 2 ^ 52 = 2 ^ 52 + value.toNat % 2 ^ 52 := by
    have h := Nat.two_pow_add_eq_or_of_lt hF 1
    rw [mul_one] at h
    rw [h, Nat.or_comm]
  unfold f64ToF16 halfWord
  dsimp only
  rw [hsign, hexp, Nat.and_two_pow_sub_one_eq_mod, hor]
  generalize (if value.toNat.testBit 63 then 2 ^ 15 else 0 : ℕ) = sign
  generalize value.toNat / 2 ^ 52 % 2 ^ 11 = E
  generalize value.toNat % 2 ^ 52 = F
  by_cases hmax : E = 2047
  · rw [if_pos hmax, if_pos hmax]
  · rw [if_neg hmax, if_neg hmax]
    by_cases hzero : E = 0
    · rw [if_pos hzero, if_pos hzero, Nat.or_zero]
    · rw [if_neg hzero, if_neg hzero]
      by_cases hhigh : (E : ℤ) - 1023 > 15
      · rw [if_pos hhigh, if_pos hhigh]
      · rw [if_neg hhigh, if_neg hhigh]
        by_cases hlow : (E : ℤ) - 1023 < -25
        · rw [if_pos hlow, if_pos hlow, Nat.or_zero]
        · rw [if_neg hlow, if_neg hlow]
          by_cases hsub : (E : ℤ) - 1023 < -14
          · rw [if_pos hsub, if_pos hsub, if_pos hsub, roundBits_mask (by omega)]
          · rw [if_neg hsub, if_neg hsub, if_neg hsub, roundBits_mask (by omega)]

/-! ## The rounded significand -/

section

variable {n s : ℕ}

theorem roundBits_bounds (hs : 0 < s) (hn : n < 2 ^ 128) :
    n / 2 ^ s ≤ roundBits n s ∧ roundBits n s ≤ n / 2 ^ s + 1 := by
  rw [roundBits_eq hs hn]
  exact ⟨Nat.le_add_right _ _, Nat.add_le_add_left (Bool.toNat_le _) _⟩

/-- What is less than a half of the last place is lost. -/
theorem roundBits_eq_zero (hs : 0 < s) (hn : n < 2 ^ 128) (hlt : n < 2 ^ (s - 1)) :
    roundBits n s = 0 := by
  have hle : 2 ^ (s - 1) ≤ 2 ^ s := Nat.pow_le_pow_right (by omega) (by omega)
  rw [roundBits_eq hs hn, Nat.div_eq_of_lt (by omega), Nat.mod_eq_of_lt (by omega)]
  rw [decide_eq_false (by omega)]
  rfl

end

/-! ## Packing a half -/

/-- The word of a half from its rounded significand. -/
def assembledHalf (m : ℕ) (T : ℤ) : ℕ :=
  if m = 0 then 0
  else
    let exponent : ℤ := if m < 2 ^ 10 then 0 else T + 25
    if exponent > 30 then 0x7c00 else exponent.toNat * 2 ^ 10 + m % 2 ^ 10

theorem assemble_half (negative : Bool) (m : ℕ) (T : ℤ) :
    (FloatFormat.ofBits (.f16 0)).assemble negative m T =
      .f16 (UInt16.ofNat ((if negative then 2 ^ 15 else 0) ||| assembledHalf m T)) := by
  have hexponent : (if m < 2 ^ 10 then (0 : ℤ) else T + (10 : ℕ) + 15) =
      if m < 2 ^ 10 then 0 else T + 25 := by
    split <;> omega
  have hF : m % 2 ^ 10 < 2 ^ 10 := Nat.mod_lt _ (Nat.two_pow_pos _)
  unfold FloatFormat.assemble assembledHalf
  show (if m = 0 then _ else if (if m < 2 ^ 10 then (0 : ℤ) else T + (10 : ℕ) + 15) > 2 * 15 then _
    else FloatBits.f16 (UInt16.ofNat (_ |||
      ((if m < 2 ^ 10 then (0 : ℤ) else T + (10 : ℕ) + 15).toNat <<< 10) ||| m % 2 ^ 10))) = _
  rw [hexponent]
  generalize (if m < 2 ^ 10 then (0 : ℤ) else T + 25) = exponent
  by_cases hzero : m = 0
  · rw [if_pos hzero, if_pos hzero]
    rfl
  · rw [if_neg hzero, if_neg hzero]
    by_cases hover : exponent > 30
    · rw [if_pos (show exponent > 2 * 15 by omega), if_pos hover]
      rfl
    · have hadd := Nat.two_pow_add_eq_or_of_lt hF exponent.toNat
      rw [if_neg (show ¬ exponent > 2 * 15 by omega), if_neg hover, Nat.or_assoc,
        Nat.shiftLeft_eq, mul_comm exponent.toNat, hadd]
      rfl

theorem pack_half_eq (negative : Bool) {sig : ℕ} (exp : ℤ) (hsig : sig ≠ 0) :
    (FloatFormat.ofBits (.f16 0)).pack negative sig exp =
      .f16 (UInt16.ofNat ((if negative then 2 ^ 15 else 0) ||| assembledHalf
        (if roundedSig 10 (-24) sig exp ≥ 2 ^ 11 then roundedSig 10 (-24) sig exp >>> 1
          else roundedSig 10 (-24) sig exp)
        (if roundedSig 10 (-24) sig exp ≥ 2 ^ 11 then roundTarget 10 (-24) sig exp + 1
          else roundTarget 10 (-24) sig exp))) := by
  rw [FloatFormat.pack_eq (FloatFormat.of_ofBits (.f16 0)) negative _ hsig, assemble_half]
  rfl

/-- The carry of the rounding, put together by either path. -/
theorem halfWord_eq {E F r : ℕ} {T : ℤ} (hE : 0 < E) (hE' : E < 2047)
    (hT : T = max ((E : ℤ) - 1033) (-24))
    (hr : r = roundBits (2 ^ 52 + F) (max ((E : ℤ) - 1033) (-24) - (E - 1075)).toNat)
    (hF : F < 2 ^ 52) :
    halfWord E F = assembledHalf (if r ≥ 2 ^ 11 then r >>> 1 else r)
      (if r ≥ 2 ^ 11 then T + 1 else T) := by
  have hlt : 2 ^ 52 + F < 2 ^ 128 := by omega
  rw [← hT] at hr
  unfold halfWord
  rw [if_neg (by omega), if_neg (by omega)]
  dsimp only
  by_cases hsub : (E : ℤ) - 1023 < -14
  · have hTlow : T = -24 := by omega
    have hshift : T - (E - 1075) = 28 - ((E : ℤ) - 1023) := by omega
    rw [hshift] at hr
    rw [if_neg (by omega), if_pos hsub, ← hr]
    by_cases hlow : (E : ℤ) - 1023 < -25
    · have hhalf : 2 ^ 53 ≤ 2 ^ ((28 - ((E : ℤ) - 1023)).toNat - 1) :=
        Nat.pow_le_pow_right (by omega) (by omega)
      have hzero : r = 0 := by
        rw [hr]
        exact roundBits_eq_zero (by omega) hlt (by omega)
      rw [if_pos hlow, hzero]
      rfl
    · -- A subnormal half, or the least normal one after a carry.
      have hdiv : (2 ^ 52 + F) / 2 ^ (28 - ((E : ℤ) - 1023)).toNat ≤ (2 ^ 52 + F) / 2 ^ 43 :=
        Nat.div_le_div_left (Nat.pow_le_pow_right (by omega) (by omega)) (Nat.two_pow_pos 43)
      have hle : r ≤ 2 ^ 10 := by
        have hbound := (roundBits_bounds (s := (28 - ((E : ℤ) - 1023)).toNat) (by omega) hlt).2
        omega
      rw [if_neg hlow, if_neg (by omega), if_neg (by omega), hTlow]
      unfold assembledHalf
      by_cases hzero : r = 0
      · rw [if_pos hzero, hzero]
      · rw [if_neg hzero]
        by_cases hnormal : r < 2 ^ 10
        · simp only [if_pos hnormal]
          rw [if_neg (by omega), Nat.mod_eq_of_lt hnormal]
          omega
        · simp only [if_neg hnormal]
          rw [if_neg (by omega)]
          omega
  · have hThigh : T = E - 1033 := by omega
    have hshift : (T - (E - 1075)).toNat = 42 := by omega
    rw [hshift] at hr
    have hbounds := roundBits_bounds (s := 42) (by omega) hlt
    rw [← hr] at hbounds
    have hlow : 2 ^ 10 ≤ r := by omega
    have hhigh : r ≤ 2 ^ 11 := by omega
    have hshr : r >>> 1 = r / 2 := Nat.shiftRight_eq_div_pow r 1
    rw [if_neg (by omega : ¬ (E : ℤ) - 1023 < -25), if_neg hsub, ← hr, hshr, hThigh,
      Nat.shiftLeft_eq]
    unfold assembledHalf
    by_cases hcarry : r ≥ 2 ^ 11
    · have hne : ¬ r / 2 = 0 := by omega
      have hnormal : ¬ r / 2 < 2 ^ 10 := by omega
      rw [if_pos hcarry, if_pos hcarry, if_neg hne]
      simp only [if_neg hnormal]
      by_cases hmost : (E : ℤ) - 1023 > 15
      · have hover : (E : ℤ) - 1033 + 1 + 25 > 30 := by omega
        rw [if_pos hmost, if_pos hover]
      · rw [if_neg hmost]
        split <;> omega
    · have hne : ¬ r = 0 := by omega
      have hnormal : ¬ r < 2 ^ 10 := by omega
      rw [if_neg hcarry, if_neg hcarry, if_neg hne]
      simp only [if_neg hnormal]
      by_cases hmost : (E : ℤ) - 1023 > 15
      · have hover : (E : ℤ) - 1033 + 25 > 30 := by omega
        rw [if_pos hmost, if_pos hover]
      · have hover : ¬ (E : ℤ) - 1033 + 25 > 30 := by omega
        rw [if_neg hmost, if_neg hover]
        omega

/-- The half `pack` makes of a double that is not zero or subnormal. -/
theorem pack_half (negative : Bool) {E F : ℕ} (hE : 0 < E) (hE' : E < 2047) (hF : F < 2 ^ 52) :
    (FloatFormat.ofBits (.f16 0)).pack negative (2 ^ 52 + F) (E - 1075) =
      .f16 (UInt16.ofNat ((if negative then 2 ^ 15 else 0) ||| halfWord E F)) := by
  have hlog : Nat.log2 (2 ^ 52 + F) = 52 := by
    rw [Nat.log2_eq_iff (by omega)]
    omega
  have htarget : roundTarget 10 (-24) (2 ^ 52 + F) (E - 1075) = max ((E : ℤ) - 1033) (-24) := by
    unfold roundTarget
    rw [hlog]
    congr 1
    push_cast
    ring
  have hrounded : roundedSig 10 (-24) (2 ^ 52 + F) (E - 1075) =
      roundBits (2 ^ 52 + F) (max ((E : ℤ) - 1033) (-24) - (E - 1075)).toNat := by
    unfold roundedSig
    rw [htarget]
    exact if_pos (by omega)
  rw [pack_half_eq negative _ (by omega), halfWord_eq hE hE' htarget hrounded hF]

/-- A subnormal double is too small for any half but zero. -/
theorem pack_half_subnormal (negative : Bool) {F : ℕ} (hF : F < 2 ^ 52) :
    (FloatFormat.ofBits (.f16 0)).pack negative F (-1074) =
      .f16 (UInt16.ofNat (if negative then 2 ^ 15 else 0)) := by
  by_cases hzero : F = 0
  · rw [hzero]
    cases negative <;> rfl
  · have hlog : Nat.log2 F < 52 := (Nat.log2_lt hzero).mpr hF
    have htarget : roundTarget 10 (-24) F (-1074) = -24 := by
      unfold roundTarget
      omega
    have hrounded : roundedSig 10 (-24) F (-1074) = 0 := by
      unfold roundedSig
      rw [htarget]
      rfl
    have hcarry : ¬ 0 ≥ 2 ^ 11 := by omega
    rw [pack_half_eq negative _ hzero, hrounded, if_neg hcarry, assembledHalf, if_pos rfl,
      Nat.or_zero]

/-! ## The two paths -/

/-- The half a conversion makes of the parts of a double. -/
theorem convert_half (negative : Bool) {E F : ℕ} (hE : E < 2 ^ 11) (hF : F < 2 ^ 52)
    (hnan : E = 2 ^ 11 - 1 → F = 0) {p : FloatParts} (hp : p = {
      negative := negative
      sig := if E = 0 ∨ E = 2 ^ 11 - 1 then F else 2 ^ 52 + F
      exp := max (E : ℤ) 1 - 1023 - (52 : ℕ)
      nan := decide (E = 2 ^ 11 - 1 ∧ F ≠ 0)
      infinity := decide (E = 2 ^ 11 - 1 ∧ F = 0) }) :
    (if p.nan then (FloatFormat.ofBits (.f16 0)).nan
      else if p.infinity then (FloatFormat.ofBits (.f16 0)).special p.negative true
      else (FloatFormat.ofBits (.f16 0)).pack p.negative p.sig p.exp) =
      .f16 (UInt16.ofNat ((if negative then 2 ^ 15 else 0) ||| halfWord E F)) := by
  have hnumber : p.nan = false := by
    rw [hp]
    exact decide_eq_false fun h => h.2 (hnan h.1)
  have hinfinity : p.infinity = decide (E = 2 ^ 11 - 1 ∧ F = 0) := by rw [hp]
  have hnegative : p.negative = negative := by rw [hp]
  rw [hnumber, hinfinity, hnegative, if_neg Bool.false_ne_true]
  by_cases hmax : E = 2 ^ 11 - 1
  · have hzero := hnan hmax
    rw [if_pos (decide_eq_true ⟨hmax, hzero⟩), halfWord,
      if_pos (show E = 2047 from hmax), if_pos hzero]
    cases negative <;> rfl
  · have hfinite : ¬ decide (E = 2 ^ 11 - 1 ∧ F = 0) = true := by
      rw [decide_eq_true_eq]
      exact fun h => hmax h.1
    rw [if_neg hfinite, hp]
    dsimp only
    by_cases hzero : E = 0
    · have hmin : max (E : ℤ) 1 - 1023 - (52 : ℕ) = -1074 := by omega
      rw [if_pos (Or.inl hzero), hmin, pack_half_subnormal negative hF, halfWord,
        if_neg (show ¬ E = 2047 from hmax), if_pos hzero, Nat.or_zero]
    · have hexp : max (E : ℤ) 1 - 1023 - (52 : ℕ) = E - 1075 := by omega
      rw [if_neg (fun h => h.elim hzero hmax), hexp, pack_half negative (by omega) (by omega) hF]

/-- Rounding a literal to half precision is converting it. -/
theorem FloatBits.fromF64_convert {value : UInt64} (single : UInt32)
    (hnan : (FloatBits.f64 value).datum ≠ .nan) :
    ∃ half, FloatBits.fromF64 16 value single = some half ∧
      FloatBits.convert .fTrunc .f64 .f16 (.f (.f64 value)) = some (some (.f half)) := by
  have hF : value.toNat % 2 ^ 52 < 2 ^ 52 := Nat.mod_lt _ (Nat.two_pow_pos _)
  have hE : value.toNat / 2 ^ 52 % 2 ^ 11 < 2 ^ 11 := Nat.mod_lt _ (Nat.two_pow_pos _)
  have hspecial : value.toNat / 2 ^ 52 % 2 ^ 11 = 2 ^ 11 - 1 → value.toNat % 2 ^ 52 = 0 := by
    intro hmax
    by_contra hzero
    exact hnan ((if_pos hmax).trans (if_neg hzero))
  have hunpack := FloatFormat.unpack_eq (FloatFormat.of_ofBits (.f64 value)) (.f64 value)
  have hhalf := convert_half (decide (value.toNat / 2 ^ 63 % 2 = 1)) hE hF hspecial hunpack
  have hsign : decide (value.toNat / 2 ^ 63 % 2 = 1) = value.toNat.testBit 63 :=
    Nat.testBit_eq_decide_div_mod_eq.symm
  rw [hsign, ← f64ToF16_eq] at hhalf
  exact ⟨.f16 (f64ToF16 value), rfl, congrArg (some <| some <| ConstValue.f ·) hhalf⟩

/-- The double between the largest half and the next one goes to infinity on both paths. -/
theorem FloatBits.fromF64_convert_infinity :
    ∃ half, FloatBits.fromF64 16 0x40effe0000000000 0x477ff000 = some half ∧
      FloatBits.convert .fTrunc .f64 .f16 (.f (.f64 0x40effe0000000000)) =
        some (some (.f half)) :=
  FloatBits.fromF64_convert 0x477ff000 (by decide +kernel)

end Whale
