import Whale.Float.Format

set_option autoImplicit false

/-! # Packing rounds to the nearest value

`pack` rounds once: the significand it is given stands for an exact one, and the parts it
arrives at are the nearest number to the exact value. -/

namespace Whale

/-! ## Rounding off bits -/

theorem roundBits_eq {n s : ℕ} (hs : 0 < s) (hn : n < 2 ^ 128) :
    roundBits n s = n / 2 ^ s +
      (decide (n % 2 ^ s > 2 ^ (s - 1) ∨ (n % 2 ^ s = 2 ^ (s - 1) ∧ n / 2 ^ s % 2 ≠ 0))).toNat := by
  unfold roundBits
  by_cases hbig : s > 128
  · -- All of it is shifted out, and is less than half.
    have hle : 2 ^ 128 ≤ 2 ^ (s - 1) := Nat.pow_le_pow_right (by omega) (by omega)
    have hle' : 2 ^ (s - 1) ≤ 2 ^ s := Nat.pow_le_pow_right (by omega) (by omega)
    rw [if_pos hbig, Nat.div_eq_of_lt (by omega), Nat.mod_eq_of_lt (by omega)]
    rw [decide_eq_false (by omega)]
    rfl
  · rw [if_neg hbig]
    by_cases heq : s = 128
    · subst heq
      rw [if_pos rfl, Nat.div_eq_of_lt hn, Nat.mod_eq_of_lt hn]
      simp
    · rw [if_neg heq, Nat.shiftRight_eq_div_pow]

/-- Rounding off the bits of a number that stands for `q` rounds `q`, if at least two bits go
or the number is exact. -/
theorem nearestInt_roundBits {n s : ℕ} {q : ℚ} (hs : 0 < s) (hn : n < 2 ^ 128)
    (h : q = n ∨ (2 ≤ s ∧ Stands n q)) : NearestInt (q / 2 ^ s) (roundBits n s) := by
  have hhalf : 2 ^ s = 2 * 2 ^ (s - 1) := by rw [← pow_succ', Nat.sub_add_cancel hs]
  have hdiv : 2 ^ s * (n / 2 ^ s) + n % 2 ^ s = n := Nat.div_add_mod n (2 ^ s)
  have hrem : n % 2 ^ s < 2 ^ s := Nat.mod_lt _ (Nat.two_pow_pos s)
  have hpow : (2 : ℚ) ^ s = 2 * (2 ^ (s - 1) : ℕ) := by exact_mod_cast hhalf
  have hpos : (0 : ℚ) < 2 ^ s := by positivity
  rw [roundBits_eq hs hn]
  generalize n / 2 ^ s = Q at *
  generalize n % 2 ^ s = r at *
  have hH : 2 ≤ s → 2 ^ (s - 1) % 2 = 0 := by
    intro hs2
    have hsucc : s - 1 = s - 2 + 1 := by omega
    rw [hsucc, pow_succ]
    omega
  generalize 2 ^ (s - 1) = H at *
  have hn' : (n : ℚ) = Q * 2 ^ s + r := by
    rw [mul_comm]
    exact_mod_cast hdiv.symm
  have hr₀ : (0 : ℚ) ≤ r := Nat.cast_nonneg r
  have hr₁ : (r : ℚ) + 1 ≤ 2 * H := by exact_mod_cast (by omega : r + 1 ≤ 2 * H)
  -- `q` lies by `q - n` from `n`, and leaves the remainder by as much.
  have hsplit : q = Q * 2 ^ s + (q - n + r) := by rw [hn']; ring
  have hunit : (2 : ℚ) ^ s / 2 = H := by rw [hpow]; ring
  rcases h with hq | ⟨hs2, hq | ⟨hodd, hnear⟩⟩
  iterate 2
    have hzero : q - n + r = r := by rw [hq]; ring
    rw [hzero] at hsplit
    refine nearestInt_of_remainder hpos hsplit hr₀ (by linarith) (fun hup => ?_) fun hdown => ?_
    · rw [hunit, Nat.cast_inj]
      exact ⟨by exact_mod_cast (by omega : H ≤ r), fun _ => by omega⟩
    · rw [hunit, Nat.cast_inj]
      exact ⟨by exact_mod_cast (by omega : r ≤ H), fun _ => by omega⟩
  · -- An odd remainder is not the half, and keeps its side of it.
    obtain ⟨hlow, hhigh⟩ := abs_lt.mp hnear
    have heven := hH hs2
    have hrodd : r % 2 = 1 := by
      have hmul : 2 * (H * Q) + r = n := by rw [← hdiv, hhalf]; ring
      omega
    have hr₂ : (1 : ℚ) ≤ r := by exact_mod_cast (by omega : 1 ≤ r)
    refine nearestInt_of_remainder hpos hsplit (by linarith) (by linarith) (fun hup => ?_)
      fun hdown => ?_
    · have hge : (H : ℚ) + 1 ≤ r := by exact_mod_cast (by omega : H + 1 ≤ r)
      rw [hunit]
      exact ⟨by linarith, fun heq => absurd heq (by linarith)⟩
    · have hle : (r : ℚ) + 1 ≤ H := by exact_mod_cast (by omega : r + 1 ≤ H)
      rw [hunit]
      exact ⟨by linarith, fun heq => absurd heq (by linarith)⟩

/-! ## The significand -/

section

variable {t sig : ℕ} {low exp : ℤ} {q : ℚ}

/-- The exponent `pack` rounds to. -/
def roundTarget (t : ℕ) (low : ℤ) (sig : ℕ) (exp : ℤ) : ℤ := max (exp + Nat.log2 sig - t) low

/-- The significand `pack` rounds to. -/
def roundedSig (t : ℕ) (low : ℤ) (sig : ℕ) (exp : ℤ) : ℕ :=
  let shift := roundTarget t low sig exp - exp
  if shift > 0 then roundBits sig shift.toNat else (sig <<< (-shift).toNat) % 2 ^ 128

/-- A significand that stands for `q`, well above its last bits if not exactly. -/
def Guarded (t : ℕ) (sig : ℕ) (q : ℚ) : Prop :=
  q = sig ∨ (t + 2 ≤ Nat.log2 sig ∧ Stands sig q)

theorem Guarded.stands (h : Guarded t sig q) : Stands sig q := by
  rcases h with rfl | ⟨_, h⟩
  · exact stands_self sig
  · exact h

theorem Guarded.pow_log2_le (h : Guarded t sig q) (hsig : sig ≠ 0) :
    (2 : ℚ) ^ Nat.log2 sig ≤ q := by
  have hle := Nat.log2_self_le hsig
  rcases h with rfl | ⟨hlog, h⟩
  · exact_mod_cast hle
  · have heven : 2 ^ Nat.log2 sig % 2 = 0 := by
      have hsucc : Nat.log2 sig = Nat.log2 sig - 1 + 1 := by omega
      rw [hsucc, pow_succ, Nat.mul_mod_left]
    have := h.le_of_even_le heven hle
    push_cast at this
    exact this

theorem Guarded.lt_pow (h : Guarded t sig q) : q < 2 ^ (Nat.log2 sig + 1) := by
  have := h.stands.lt_of_lt Nat.lt_log2_self
  push_cast at this
  exact this

/-- The rounded significand is the integer nearest to the exact one. -/
theorem nearestInt_rounded (low exp : ℤ) (hlt : sig < 2 ^ 128) (ht : t < 127)
    (h : Guarded t sig q) :
    NearestInt (q * 2 ^ exp / 2 ^ roundTarget t low sig exp) (roundedSig t low sig exp) := by
  unfold roundedSig
  dsimp only
  by_cases hshift : roundTarget t low sig exp - exp > 0
  · obtain ⟨s, hs⟩ := Int.eq_ofNat_of_zero_le hshift.le
    have htarget : roundTarget t low sig exp = exp + s := by omega
    have hscale : q * 2 ^ exp / 2 ^ roundTarget t low sig exp = q / 2 ^ s := by
      rw [htarget, zpow_add₀ (by norm_num), zpow_natCast, mul_comm q,
        mul_div_mul_left _ _ (two_zpow_pos exp).ne']
    rw [if_pos hshift, hscale, hs, Int.toNat_natCast]
    refine nearestInt_roundBits (by omega) hlt (h.imp_right fun ⟨hlog, hstands⟩ => ⟨?_, hstands⟩)
    -- At least two bits go: the target is at most `t` bits below the first one.
    have hle : exp + Nat.log2 sig - t ≤ roundTarget t low sig exp := le_max_left _ _
    omega
  · obtain ⟨s, hs⟩ := Int.eq_ofNat_of_zero_le (show 0 ≤ -(roundTarget t low sig exp - exp) by omega)
    have htarget : exp = roundTarget t low sig exp + s := by omega
    have hle : exp + Nat.log2 sig - t ≤ roundTarget t low sig exp := le_max_left _ _
    have hexact : q = sig := h.resolve_right fun ⟨hlog, _⟩ => by omega
    have hscale : q * 2 ^ exp / 2 ^ roundTarget t low sig exp = (sig * 2 ^ s : ℕ) := by
      rw [hexact, div_eq_iff (two_zpow_pos _).ne']
      nth_rewrite 1 [htarget]
      rw [zpow_add₀ (by norm_num), zpow_natCast]
      push_cast
      ring
    have hfit : sig * 2 ^ s < 2 ^ 128 := by
      calc sig * 2 ^ s < 2 ^ (Nat.log2 sig + 1) * 2 ^ s :=
            Nat.mul_lt_mul_of_pos_right Nat.lt_log2_self (Nat.two_pow_pos s)
        _ = 2 ^ (Nat.log2 sig + 1 + s) := (pow_add _ _ _).symm
        _ ≤ 2 ^ 128 := Nat.pow_le_pow_right (by omega) (by omega)
    rw [if_neg hshift, hscale, hs, Int.toNat_natCast, Nat.shiftLeft_eq, Nat.mod_eq_of_lt hfit]
    exact nearestInt_self _

theorem rounded_le (low exp : ℤ) (hlt : sig < 2 ^ 128) (ht : t < 127) (h : Guarded t sig q) :
    roundedSig t low sig exp ≤ 2 ^ (t + 1) := by
  refine (nearestInt_rounded low exp hlt ht h).le_of_lt ?_
  have hle : exp + Nat.log2 sig - t ≤ roundTarget t low sig exp := le_max_left _ _
  have hpos := two_zpow_pos exp
  rw [div_lt_iff₀ (two_zpow_pos _)]
  calc q * 2 ^ exp < 2 ^ (Nat.log2 sig + 1) * 2 ^ exp := mul_lt_mul_of_pos_right h.lt_pow hpos
    _ = 2 ^ ((Nat.log2 sig : ℤ) + 1 + exp) := by
        rw [zpow_add₀ (by norm_num), zpow_add_one₀ (by norm_num), zpow_natCast, pow_succ]
    _ ≤ 2 ^ ((t : ℤ) + 1 + roundTarget t low sig exp) :=
        zpow_le_zpow_right₀ (by norm_num) (by omega)
    _ = ((2 ^ (t + 1) : ℕ) : ℚ) * 2 ^ roundTarget t low sig exp := by
        rw [zpow_add₀ (by norm_num), zpow_add_one₀ (by norm_num), zpow_natCast, ← pow_succ]
        push_cast
        rfl

/-- The significand and the exponent after a carry. -/
theorem nearest_rounded (low exp : ℤ) (hsig : sig ≠ 0) (hlt : sig < 2 ^ 128) (ht : 0 < t)
    (ht' : t < 127) (h : Guarded t sig q) :
    Nearest t low (q * 2 ^ exp)
      (if roundedSig t low sig exp ≥ 2 ^ (t + 1) then roundedSig t low sig exp >>> 1
        else roundedSig t low sig exp)
      (if roundedSig t low sig exp ≥ 2 ^ (t + 1) then roundTarget t low sig exp + 1
        else roundTarget t low sig exp) := by
  have hint := nearestInt_rounded low exp hlt ht' h
  have hle := rounded_le low exp hlt ht' h
  have hlow : low ≤ roundTarget t low sig exp := le_max_right _ _
  have hquantum : roundTarget t low sig exp = low ∨
      2 ^ t * 2 ^ roundTarget t low sig exp ≤ q * 2 ^ exp := by
    rcases max_choice (exp + Nat.log2 sig - t) low with hmax | hmax
    · right
      have hsum : (t : ℤ) + roundTarget t low sig exp = Nat.log2 sig + exp := by
        unfold roundTarget
        omega
      calc (2 : ℚ) ^ t * 2 ^ roundTarget t low sig exp
          = 2 ^ ((t : ℤ) + roundTarget t low sig exp) := by
            rw [zpow_add₀ (by norm_num), zpow_natCast]
        _ = 2 ^ Nat.log2 sig * 2 ^ exp := by
            rw [hsum, zpow_add₀ (by norm_num), zpow_natCast]
        _ ≤ q * 2 ^ exp :=
            mul_le_mul_of_nonneg_right (h.pow_log2_le hsig) (two_zpow_pos exp).le
    · exact Or.inl hmax
  by_cases hcarry : roundedSig t low sig exp ≥ 2 ^ (t + 1)
  · have heq : roundedSig t low sig exp = 2 ^ (t + 1) := le_antisymm hle hcarry
    have hhalf : 2 ^ (t + 1) >>> 1 = 2 ^ t := by
      rw [Nat.shiftRight_eq_div_pow, pow_succ, pow_one, Nat.mul_div_cancel _ (by omega)]
    rw [if_pos hcarry, if_pos hcarry, heq, hhalf]
    rw [heq] at hint
    exact nearest_of_carry ht hlow hquantum hint
  · rw [if_neg hcarry, if_neg hcarry]
    exact nearest_of_quantum hlow hquantum hint (by omega)

end

/-! ## The word -/

namespace FloatFormat

variable {f : FloatFormat} {b : Interchange}

/-- The word of a rounded significand. -/
def assemble (f : FloatFormat) (negative : Bool) (rounded : ℕ) (target : ℤ) : FloatBits :=
  if rounded = 0 then f.special negative false
  else
    let exponent : ℤ := if rounded < 2 ^ f.fraction then 0 else target + f.fraction + f.bias
    if exponent > 2 * f.bias then f.special negative true
    else
      f.bits ((if negative then f.sign else 0) ||| (exponent.toNat <<< f.fraction) |||
        (rounded % 2 ^ f.fraction))

theorem assemble_interchange (hf : f.Of b) (negative : Bool) (m : ℕ) (e : ℤ) :
    (f.assemble negative m e).interchange = b := by
  unfold assemble
  split
  · exact special_interchange hf _ _
  · generalize (if m < 2 ^ f.fraction then (0 : ℤ) else e + f.fraction + f.bias) = exponent
    dsimp only
    split
    · exact special_interchange hf _ _
    · exact hf.interchange _

theorem assemble_datum (hf : f.Of b) (negative : Bool) {m : ℕ} {e : ℤ}
    (h : Canonical b.t b.low m e) : (f.assemble negative m e).datum = b.bound negative m e := by
  have hbias := b.one_le_bias
  have hlow : b.low = 1 - b.bias - b.t := rfl
  have hhigh : b.high = b.bias - b.t := rfl
  have hexp := h.exp
  have ht := Nat.two_pow_pos b.t
  have hF : m % 2 ^ b.t < 2 ^ b.t := Nat.mod_lt _ ht
  have hk := Nat.two_pow_pos b.k
  unfold assemble Interchange.bound
  rw [hf.bias]
  by_cases hzero : m = 0
  · have he : e = b.low := h.full.resolve_left (by omega)
    have hfit : ¬ b.high < e := by omega
    rw [if_pos hzero, if_neg hfit, special_datum hf, hzero, he]
    rfl
  · rw [if_neg hzero]
    by_cases hsub : m < 2 ^ b.t
    · have he : e = b.low := h.full.resolve_left (by omega)
      have hfit : ¬ b.high < e := by omega
      have hexponent : ¬ (0 : ℤ) > 2 * b.bias := by omega
      have hfields := Interchange.ofFields_of_canonical negative h (by omega)
      have hbits := datum_bits hf negative hk hF
      rw [if_pos hsub] at hfields
      rw [hf.fraction] at hbits ⊢
      rw [if_neg hfit, if_pos hsub, if_neg hexponent, ← hfields, ← hbits]
      rfl
    · by_cases hover : b.high < e
      · have hexponent : e + b.t + b.bias > 2 * b.bias := by omega
        rw [hf.fraction, if_pos hover, if_neg hsub, if_pos hexponent, special_datum hf]
        rfl
      · have hfields := Interchange.ofFields_of_canonical negative h (by omega)
        have hexponent : ¬ e + b.t + b.bias > 2 * b.bias := by omega
        have hE : (e + b.t + b.bias).toNat < 2 ^ b.k - 1 :=
          Interchange.exponent_lt_iff.mpr (by omega)
        have hbits := datum_bits hf negative (E := (e + b.t + b.bias).toNat) (by omega) hF
        rw [if_neg hsub] at hfields
        rw [hf.fraction] at hbits ⊢
        rw [if_neg hover, if_neg hsub, if_neg hexponent, ← hfields, ← hbits]

theorem pack_eq (hf : f.Of b) (negative : Bool) {sig : ℕ} (exp : ℤ) (hsig : sig ≠ 0) :
    f.pack negative sig exp =
      f.assemble negative
        (if roundedSig b.t b.low sig exp ≥ 2 ^ (b.t + 1) then roundedSig b.t b.low sig exp >>> 1
          else roundedSig b.t b.low sig exp)
        (if roundedSig b.t b.low sig exp ≥ 2 ^ (b.t + 1) then roundTarget b.t b.low sig exp + 1
          else roundTarget b.t b.low sig exp) := by
  unfold pack assemble roundedSig roundTarget Interchange.low
  rw [if_neg hsig, hf.fraction, hf.bias]

theorem pack_interchange (hf : f.Of b) (negative : Bool) (sig : ℕ) (exp : ℤ) :
    (f.pack negative sig exp).interchange = b := by
  by_cases hsig : sig = 0
  · unfold pack
    rw [if_pos hsig]
    exact special_interchange hf _ _
  · rw [pack_eq hf negative exp hsig]
    exact assemble_interchange hf _ _ _

theorem pack_nearest (hf : f.Of b) (negative : Bool) {sig : ℕ} (exp : ℤ) {q : ℚ} (hsig : sig ≠ 0)
    (hlt : sig < 2 ^ 128) (h : Guarded b.t sig q) :
    ∃ m e, Nearest b.t b.low (q * 2 ^ exp) m e ∧
      (f.pack negative sig exp).datum = b.bound negative m e := by
  have hsmall := hf.small
  have hnear := nearest_rounded b.low exp hsig hlt b.t_pos (by omega) h
  refine ⟨_, _, hnear, ?_⟩
  rw [pack_eq hf negative exp hsig]
  exact assemble_datum hf negative hnear.canonical

theorem pack_zero (hf : f.Of b) (negative : Bool) (exp : ℤ) :
    FloatBits.Rounded b (.zero negative) (f.pack negative 0 exp) := by
  unfold pack
  rw [if_pos rfl]
  exact rounded_zero hf negative

/-- The exact result with a given magnitude, if that is what the significand stands for. -/
theorem rounded_pack (hf : f.Of b) {negative : Bool} {sig : ℕ} {exp : ℤ} {q : ℚ} (hsig : sig ≠ 0)
    (hlt : sig < 2 ^ 128) (h : Guarded b.t sig q) :
    FloatBits.Rounded b (.real (signed negative (q * 2 ^ exp))) (f.pack negative sig exp) := by
  obtain ⟨m, e, hnear, hdatum⟩ := pack_nearest hf negative exp hsig hlt h
  have hq : 0 < q := lt_of_lt_of_le (by positivity) (h.pow_log2_le hsig)
  have hpos : 0 < q * 2 ^ exp := mul_pos hq (two_zpow_pos exp)
  refine ⟨pack_interchange hf _ _ _, ⟨m, e, ?_, ?_⟩, by intro hnan; cases hnan⟩
  · rw [abs_signed, abs_of_pos hpos]
    exact hnear
  · rw [hdatum, signed_neg_iff hpos]

/-- A number of the format is packed as it is. -/
theorem pack_onGrid (hf : f.Of b) (negative : Bool) {sig m' : ℕ} {exp e' : ℤ}
    (hlt : sig < 2 ^ 128) (hgrid : OnGrid b.t b.low m' e') (hhigh : e' ≤ b.high)
    (hv : dyadic sig exp = dyadic m' e') :
    ∃ m e, (f.pack negative sig exp).datum = .finite negative m e ∧
      Canonical b.t b.low m e ∧ dyadic m e = dyadic sig exp := by
  by_cases hsig : sig = 0
  · refine ⟨0, b.low, ?_, ⟨⟨Nat.two_pow_pos _, le_rfl⟩, Or.inr rfl⟩, ?_⟩
    · rw [hsig]
      exact (pack_zero hf negative exp).rounds
    · rw [hsig, dyadic_eq_zero_iff.mpr rfl, dyadic_eq_zero_iff.mpr rfl]
  · obtain ⟨m, e, hnear, hdatum⟩ := pack_nearest hf negative exp (q := sig) hsig hlt (Or.inl rfl)
    have heq : dyadic m e = dyadic sig exp := hnear.eq_of_onGrid hgrid hv
    have hfit : ¬ b.high < e := by
      rcases hnear.canonical.full with hfull | hlow
      · have := place_lt_of_dyadic_le hfull hgrid.sig (heq.trans hv).le
        omega
      · have := b.low_le_high
        omega
    refine ⟨m, e, hdatum.trans (if_neg hfit), hnear.canonical, heq⟩

end FloatFormat

end Whale
