import Whale.Float.Operations

set_option autoImplicit false

/-! # The remainder is exact

The significand of the remainder is found modulo that of the divisor, so that no difference of
the exponents is too large; it is a number of the format, and packing does not round. -/

namespace Whale

/-- The loop computes a power modulo `m`. -/
theorem powerMod_eq (m : ℕ) : ∀ (n r power shift : ℕ), r < m → shift < 2 ^ n →
    FloatBits.powerMod m n r power shift = r * power ^ shift % m := by
  intro n
  induction n with
  | zero =>
    intro r power shift hr hshift
    have hzero : shift = 0 := Nat.lt_one_iff.mp hshift
    rw [hzero, pow_zero, mul_one, Nat.mod_eq_of_lt hr]
    rfl
  | succ n ih =>
    intro r power shift hr hshift
    unfold FloatBits.powerMod
    by_cases hzero : shift = 0
    · rw [if_pos hzero, hzero, pow_zero, mul_one, Nat.mod_eq_of_lt hr]
    · have hhalf : shift / 2 < 2 ^ n := by
        rw [pow_succ] at hshift
        omega
      have hm : 0 < m := by omega
      -- The square stands for two factors of each bit further up.
      have hsquare : ∀ c, c * (power * power % m) ^ (shift / 2) % m =
          c * power ^ (2 * (shift / 2)) % m := by
        intro c
        rw [Nat.mul_mod, ← Nat.pow_mod, ← Nat.mul_mod, pow_mul, pow_two]
      rw [if_neg hzero]
      by_cases hodd : shift % 2 ≠ 0
      · have hsplit : shift = 2 * (shift / 2) + 1 := by omega
        rw [if_pos hodd, ih _ _ _ (Nat.mod_lt _ hm) hhalf, hsquare, Nat.mod_mul_mod]
        conv_rhs => rw [hsplit, pow_succ]
        congr 1
        ring
      · have hsplit : 2 * (shift / 2) = shift := by omega
        rw [if_neg hodd, ih _ _ _ hr hhalf, hsquare, hsplit]

/-- On one exponent the remainder is that of the significands. -/
theorem sub_truncate_mul (s s' : Bool) (A B : ℕ) (e : ℤ) :
    signed s (dyadic A e) -
        truncate (signed s (dyadic A e) / signed s' (dyadic B e)) * signed s' (dyadic B e) =
      signed s (dyadic (A % B) e) := by
  have hfloor : truncate (dyadic A e / dyadic B e) = (A / B : ℕ) := by
    rw [truncate_of_nonneg (div_nonneg (dyadic_nonneg A e) (dyadic_nonneg B e)), dyadic, dyadic,
      mul_div_mul_right _ _ (two_zpow_pos e).ne', Rat.floor_natCast_div_natCast]
    rfl
  have hmod : dyadic A e - (A / B : ℕ) * dyadic B e = dyadic (A % B) e := by
    have hcast : (A : ℚ) = B * (A / B : ℕ) + (A % B : ℕ) := by
      exact_mod_cast (Nat.div_add_mod A B).symm
    unfold dyadic
    rw [hcast]
    ring
  rw [signed_div, ← hmod]
  generalize A / B = Q at *
  cases s <;> cases s' <;>
    simp only [signed_false, signed_true, Bool.xor_self, Bool.xor_false, Bool.xor_true,
      Bool.not_false, truncate_neg, hfloor] <;> push_cast <;> ring

section

variable {f : FloatFormat} {b : Interchange} {p p' : FloatParts} {m m' : ℕ} {e e' : ℤ}

/-- The remainder of the significands, on the exponent of the divisor. -/
def remainderSig (p p' : FloatParts) : ℕ := p.sig * 2 ^ (p.exp - p'.exp).toNat % p'.sig

theorem remainder_onGrid (hm : Canonical b.t b.low m e) (hm' : Canonical b.t b.low m' e')
    (hhigh' : e' ≤ b.high) (hfull' : 2 ^ b.t ≤ p'.sig) (hlt' : p'.sig < 2 ^ (b.t + 1))
    (hv : dyadic m e = dyadic p.sig p.exp) (hv' : dyadic m' e' = dyadic p'.sig p'.exp)
    (hle : p'.exp ≤ p.exp) :
    ∃ r c, OnGrid b.t b.low r c ∧ c ≤ b.high ∧ dyadic (remainderSig p p') p'.exp = dyadic r c := by
  have hd : p.exp = p'.exp + (p.exp - p'.exp).toNat := by omega
  have hpos : 0 < p'.sig := (Nat.two_pow_pos _).trans_le hfull'
  have hr : remainderSig p p' < 2 ^ (b.t + 1) := (Nat.mod_lt _ hpos).trans hlt'
  by_cases hlow : b.low ≤ p'.exp
  · have := place_lt_of_dyadic_le hfull' hm'.sig hv'.ge
    exact ⟨remainderSig p p', p'.exp, ⟨hr, hlow⟩, by omega, rfl⟩
  · -- Both operands are multiples of the least number, and so is the remainder.
    obtain ⟨n, hn⟩ := Int.eq_ofNat_of_zero_le (show 0 ≤ b.low - p'.exp by omega)
    have hexp := hm.exp
    have hexp' := hm'.exp
    have hdvd : 2 ^ n ∣ p.sig * 2 ^ (p.exp - p'.exp).toNat := by
      rw [hd, dyadic_add_nat] at hv
      exact dvd_of_dyadic_eq hv.symm (by omega)
    have hdvd' : 2 ^ n ∣ p'.sig := dvd_of_dyadic_eq hv'.symm (by omega)
    obtain ⟨r, hrem⟩ := (Nat.dvd_mod_iff hdvd').mpr hdvd
    have hle : r ≤ remainderSig p p' := by
      unfold remainderSig
      rw [hrem]
      exact Nat.le_mul_of_pos_left r (Nat.two_pow_pos n)
    refine ⟨r, b.low, ⟨hle.trans_lt hr, le_rfl⟩, b.low_le_high, ?_⟩
    have hlow' : b.low = p'.exp + n := by omega
    rw [hlow', dyadic_add_nat, remainderSig, hrem, mul_comm]

/-- A dividend below the divisor is the remainder. -/
theorem sub_truncate_of_lt (s s' : Bool) (hlt : p.sig < 2 ^ (b.t + 1)) (hfull' : 2 ^ b.t ≤ p'.sig)
    (hkeep : p.sig = 0 ∨ p.exp < p'.exp) :
    signed s (dyadic p.sig p.exp) -
        truncate (signed s (dyadic p.sig p.exp) / signed s' (dyadic p'.sig p'.exp)) *
          signed s' (dyadic p'.sig p'.exp) =
      signed s (dyadic p.sig p.exp) := by
  rcases hkeep with hzero | hexp
  · have hany : dyadic p.sig p.exp = dyadic 0 p'.exp := by
      rw [hzero, dyadic_eq_zero_iff.mpr rfl, dyadic_eq_zero_iff.mpr rfl]
    rw [hany, sub_truncate_mul, Nat.zero_mod]
  · have hd : p'.exp = p.exp + (p'.exp - p.exp).toNat := by omega
    have hbig : p.sig < p'.sig * 2 ^ (p'.exp - p.exp).toNat := by
      calc p.sig < 2 ^ b.t * 2 ^ 1 := by rwa [← pow_add]
        _ ≤ p'.sig * 2 ^ (p'.exp - p.exp).toNat :=
            Nat.mul_le_mul hfull' (Nat.pow_le_pow_right (by omega) (by omega))
    rw [hd, dyadic_add_nat, sub_truncate_mul, Nat.mod_eq_of_lt hbig]

/-- The exponents of two operands are not far apart for the loop. -/
theorem exponent_gap (hf : f.Of b) (hm : Canonical b.t b.low m e) (hhigh : e ≤ b.high)
    (hm' : Canonical b.t b.low m' e') (hne : p.sig ≠ 0) (hne' : p'.sig ≠ 0)
    (hfull : p.sig = 0 ∨ 2 ^ b.t ≤ p.sig) (hlt' : p'.sig < 2 ^ (b.t + 1))
    (hv : dyadic m e = dyadic p.sig p.exp) (hv' : dyadic m' e' = dyadic p'.sig p'.exp) :
    (p.exp - p'.exp).toNat < 2 ^ 32 := by
  have hupper := place_lt_of_dyadic_le (hfull.resolve_left hne) hm.sig hv.ge
  have hmne : m' ≠ 0 := by
    rintro rfl
    rw [dyadic_eq_zero_iff.mpr rfl, eq_comm, dyadic_eq_zero_iff] at hv'
    exact hne' hv'
  have hlower := place_lt_of_dyadic_le (i := 0) (by omega) hlt' hv'.le
  have hexp' := hm'.exp
  have hsmall := hf.small
  have hnarrow := hf.narrow
  unfold Interchange.high at hhigh
  unfold Interchange.low at hexp'
  omega

theorem powerMod_remainder (hpos : 0 < p'.sig) (hd : (p.exp - p'.exp).toNat < 2 ^ 32) :
    FloatBits.powerMod p'.sig 32 (p.sig % p'.sig) (2 % p'.sig) (p.exp - p'.exp).toNat =
      remainderSig p p' := by
  rw [powerMod_eq _ _ _ _ _ (Nat.mod_lt _ hpos) hd, remainderSig, Nat.mul_mod, ← Nat.pow_mod,
    ← Nat.mul_mod, Nat.mod_mul_mod]

end

/-- What the remainder of two words is. -/
def FloatBits.IsRemainder (lhs rhs result : FloatBits) : Prop :=
  match lhs.datum, rhs.datum with
  | .finite s m e, .finite s' m' e' =>
      if m' = 0 then result.Rounded lhs.interchange .nan
      else
        result.interchange = lhs.interchange ∧
          ∃ r c, result.datum = .finite s r c ∧
            signed s (dyadic r c) =
              signed s (dyadic m e) -
                truncate (signed s (dyadic m e) / signed s' (dyadic m' e')) *
                  signed s' (dyadic m' e')
  | .finite .., .infinity _ => result = lhs
  | _, _ => result.Rounded lhs.interchange .nan

section

variable {f : FloatFormat} {b : Interchange}

/-- `remParts` computes the remainder of the words its operands come from. -/
theorem remParts_spec (hf : f.Of b) {lhs rhs : FloatBits} (hl : lhs.interchange = b)
    (hr : rhs.interchange = b) (hlnan : (f.unpack lhs).nan = false)
    (hrnan : (f.unpack rhs).nan = false) :
    FloatBits.IsRemainder lhs rhs (FloatBits.remParts f lhs ((f.unpack lhs).normalize f)
      ((f.unpack rhs).normalize f)) := by
  have ha := operand_unpack hf hl hlnan
  have hb := operand_unpack hf hr hrnan
  have hfinite : ∀ {v : FloatBits} {s : Bool} {m : ℕ} {e : ℤ}, v.interchange = b →
      v.datum = .finite s m e → Canonical b.t b.low m e ∧ e ≤ b.high := by
    intro v s m e hv hdatum
    unfold FloatBits.datum at hdatum
    rw [hv] at hdatum
    exact Interchange.decode_finite hdatum
  generalize (f.unpack lhs).normalize f = p at *
  generalize (f.unpack rhs).normalize f = p' at *
  unfold FloatBits.IsRemainder FloatBits.remParts
  rw [hl]
  cases hx : lhs.datum with
  | nan =>
    rw [hx] at ha
    cases ha
  | infinity s =>
    rw [hx] at ha
    cases ha with
    | infinity hinf hsig =>
      rw [hinf, Bool.true_or, if_pos rfl]
      exact FloatFormat.rounded_nan hf
  | finite s m e =>
    rw [hx] at ha
    obtain ⟨hm, hhigh⟩ := hfinite hl hx
    cases ha with
    | finite hinf hfull hlt hv =>
      cases hy : rhs.datum with
      | nan =>
        rw [hy] at hb
        cases hb
      | infinity s' =>
        rw [hy] at hb
        cases hb with
        | infinity hinf' hsig' =>
          simp only [hinf, hinf', Bool.not_true, Bool.and_false, Bool.or_self, Bool.false_eq_true,
            if_false, Bool.true_or, if_true]
      | finite s' m' e' =>
        rw [hy] at hb
        obtain ⟨hm', hhigh'⟩ := hfinite hr hy
        cases hb with
        | finite hinf' hfull' hlt' hv' =>
          have hzero' := zero_iff_of_dyadic_eq hv'
          simp only [hinf, hinf', hzero', Bool.false_or, Bool.not_false, Bool.and_true,
            Bool.or_eq_true, decide_eq_true_eq]
          by_cases hsig' : p'.sig = 0
          · rw [if_pos hsig', if_pos hsig']
            exact FloatFormat.rounded_nan hf
          · rw [if_neg hsig', if_neg hsig', hv, hv']
            have hpos' := Nat.pos_of_ne_zero hsig'
            have hfull' := hfull'.resolve_left hsig'
            -- With the smaller exponent the normalized dividend is already the remainder.
            by_cases hkeep : p.sig = 0 ∨ p.exp < p'.exp
            · -- The dividend is smaller than the divisor.
              rw [if_pos hkeep]
              refine ⟨hl, m, e, hx, ?_⟩
              rw [sub_truncate_of_lt p.negative p'.negative hlt hfull' hkeep, hv]
            · rw [if_neg hkeep]
              have hne : p.sig ≠ 0 := fun h => hkeep (Or.inl h)
              have hle : p'.exp ≤ p.exp := by omega
              have hd : p.exp = p'.exp + (p.exp - p'.exp).toNat := by omega
              obtain ⟨r, c, hgrid, hc, hrc⟩ :=
                remainder_onGrid hm hm' hhigh' hfull' hlt' hv hv' hle
              have hrlt : remainderSig p p' < 2 ^ 128 :=
                ((Nat.mod_lt _ hpos').trans hlt').trans_le
                  (Nat.pow_le_pow_right (by omega) (by have := hf.small; omega))
              obtain ⟨r', c', hdatum, _, hvalue⟩ :=
                FloatFormat.pack_onGrid hf p.negative hrlt hgrid hc hrc
              have hgap := exponent_gap hf hm hhigh hm' hne hsig' hfull hlt' hv hv'
              rw [powerMod_remainder hpos' hgap]
              refine ⟨FloatFormat.pack_interchange hf _ _ _, r', c', hdatum, ?_⟩
              have hleft : dyadic p.sig p.exp =
                  dyadic (p.sig * 2 ^ (p.exp - p'.exp).toNat) p'.exp := by
                rw [← dyadic_add_nat, ← hd]
              rw [hvalue, hleft, sub_truncate_mul]
              rfl

end

/-- `FRem` is exact. -/
theorem FloatBits.arithmetic_fRem {lhs rhs : FloatBits} (hwidth : lhs.width = rhs.width) :
    ∃ result, FloatBits.arithmetic .fRem lhs rhs = some result ∧ lhs.IsRemainder rhs result := by
  have hf := FloatFormat.of_ofBits lhs
  have hrhs : rhs.interchange = lhs.interchange :=
    (FloatBits.interchange_eq_iff.mpr hwidth).symm
  unfold arithmetic
  rw [if_neg (not_not.mpr hwidth)]
  dsimp only
  generalize FloatFormat.ofBits lhs = f at *
  by_cases hnan : ((f.unpack lhs).nan || (f.unpack rhs).nan) = true
  · rw [if_pos hnan]
    refine ⟨f.nan, rfl, ?_⟩
    have hdatum := (Bool.or_eq_true _ _).mp hnan
    rw [unpack_nan_iff hf rfl, unpack_nan_iff hf hrhs] at hdatum
    unfold IsRemainder
    rcases hdatum with hx | hy
    · rw [hx]
      exact FloatFormat.rounded_nan hf
    · rw [hy]
      cases lhs.datum <;> exact FloatFormat.rounded_nan hf
  · obtain ⟨hlnan, hrnan⟩ := Bool.or_eq_false_iff.mp (Bool.not_eq_true _ ▸ hnan)
    rw [if_neg hnan]
    exact ⟨_, rfl, remParts_spec hf rfl hrhs hlnan hrnan⟩

/-- The largest double by the least one and a half. -/
theorem FloatBits.arithmetic_fRem_subnormal :
    ∃ result, FloatBits.arithmetic .fRem (.f64 0x7fefffffffffffff) (.f64 3) = some result ∧
      FloatBits.IsRemainder (.f64 0x7fefffffffffffff) (.f64 3) result :=
  FloatBits.arithmetic_fRem rfl

example : FloatBits.arithmetic .fRem (.f64 0x7fefffffffffffff) (.f64 3) = some (.f64 2) := by
  decide +kernel

end Whale
