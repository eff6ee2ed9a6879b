import Whale.Float.Pack

set_option autoImplicit false

/-! # Arithmetic rounds once

The operands are shifted up to full significands. A sum and a quotient keep, below the bits
that remain, enough to tell on which side of a tie the exact result is; then `pack` rounds. -/

namespace Whale

/-! ## Sticky bits -/

/-- A quotient with the remainder as a last bit stands for the exact one. -/
theorem stands_sticky (n : ℕ) {d : ℕ} (hd : 0 < d) :
    Stands (n / d ||| (decide (n % d ≠ 0)).toNat) (n / d : ℚ) := by
  have hd' : (0 : ℚ) < d := Nat.cast_pos.mpr hd
  have hdiv := Nat.div_add_mod n d
  have hlt := Nat.mod_lt n hd
  generalize n / d = Q at *
  generalize n % d = r at *
  have hq : (n / d : ℚ) = Q + r / d := by
    rw [← hdiv]
    push_cast
    field_simp
  rw [hq]
  by_cases hr : r = 0
  · left
    rw [decide_eq_false (by omega), Bool.toNat_false, Nat.or_zero, hr]
    simp
  · right
    have hpos : (0 : ℚ) < r / d := div_pos (by exact_mod_cast Nat.pos_of_ne_zero hr) hd'
    have hone : (r : ℚ) / d < 1 := by
      rw [div_lt_one hd']
      exact_mod_cast hlt
    rw [decide_eq_true hr, Bool.toNat_true]
    rcases Nat.mod_two_eq_zero_or_one Q with heven | hodd
    · have hor : Q ||| 1 = Q + 1 := by
        have h := Nat.two_pow_add_eq_or_of_lt (i := 1) (b := 1) (by omega) (Q / 2)
        have hQ : 2 ^ 1 * (Q / 2) = Q := by omega
        rwa [hQ, eq_comm] at h
      rw [hor, abs_lt]
      push_cast
      exact ⟨by omega, by linarith, by linarith⟩
    · have hor : Q ||| 1 = Q := by
        have h := Nat.two_pow_add_eq_or_of_lt (i := 1) (b := 1) (by omega) (Q / 2)
        have hQ : 2 ^ 1 * (Q / 2) + 1 = Q := by omega
        have hQ' : 2 ^ 1 * (Q / 2) ||| 1 ||| 1 = 2 ^ 1 * (Q / 2) ||| 1 := by
          rw [Nat.or_assoc, Nat.or_self]
        rwa [← h, hQ] at hQ'
      rw [hor, abs_lt]
      exact ⟨hodd, by linarith, by linarith⟩

theorem jam_eq {n : ℕ} (hn : n < 2 ^ 128) (s : ℕ) :
    jam n s = n / 2 ^ s ||| (decide (n % 2 ^ s ≠ 0)).toNat := by
  unfold jam
  split
  · next h =>
    subst h
    simp [Nat.mod_one]
  · split
    · next h =>
      have hlt : n < 2 ^ s := hn.trans_le (Nat.pow_le_pow_right (by omega) h)
      rw [Nat.div_eq_of_lt hlt, Nat.mod_eq_of_lt hlt, Nat.zero_or]
    · rw [Nat.shiftRight_eq_div_pow]

theorem stands_jam {n : ℕ} (hn : n < 2 ^ 128) (s : ℕ) : Stands (jam n s) (n / 2 ^ s : ℚ) := by
  have h := stands_sticky n (Nat.two_pow_pos s)
  rw [← jam_eq hn] at h
  push_cast at h
  exact h

/-- Up to three bits can go before something is lost. -/
theorem jam_exact {n : ℕ} (hn : n * 8 < 2 ^ 128) {s : ℕ} (hs : s ≤ 3) :
    ((n * 8 : ℕ) / 2 ^ s : ℚ) = jam (n * 8) s := by
  have hpow : 8 = 2 ^ (3 - s) * 2 ^ s := by
    rw [← pow_add, Nat.sub_add_cancel hs]
    rfl
  have hprod : n * 8 = n * 2 ^ (3 - s) * 2 ^ s := by rw [mul_assoc, ← hpow]
  rw [jam_eq hn, hprod, Nat.mul_div_cancel _ (Nat.two_pow_pos s), Nat.mul_mod_left]
  rw [decide_eq_false (by omega), Bool.toNat_false, Nat.or_zero]
  push_cast
  rw [mul_div_cancel_right₀ _ (by positivity)]

/-! ## Operands -/

/-- `p` is an operand that stands for `x`, with a full significand if it is not zero. -/
inductive Operand (b : Interchange) (p : FloatParts) : Datum → Prop
  | infinity (hinfinity : p.infinity = true) (hsig : p.sig = 0) :
      Operand b p (.infinity p.negative)
  | finite {m : ℕ} {e : ℤ} (hinfinity : p.infinity = false) (hfull : p.sig = 0 ∨ 2 ^ b.t ≤ p.sig)
      (hlt : p.sig < 2 ^ (b.t + 1)) (hvalue : dyadic m e = dyadic p.sig p.exp) :
      Operand b p (.finite p.negative m e)

section

variable {f : FloatFormat} {b : Interchange} {p p' : FloatParts} {x y : Datum}

theorem Operand.neg (h : Operand b p x) :
    Operand b { p with negative := !p.negative } x.neg := by
  cases h with
  | infinity hinfinity hsig => exact Operand.infinity (p := { p with negative := _ }) hinfinity hsig
  | finite hinfinity hfull hlt hvalue =>
    exact Operand.finite (p := { p with negative := _ }) hinfinity hfull hlt hvalue

theorem normalize_negative (negative : Bool) :
    ({ p with negative := negative } : FloatParts).normalize f =
      { p.normalize f with negative := negative } := by
  unfold FloatParts.normalize
  split <;> rfl

theorem normalize_fields : (p.normalize f).negative = p.negative ∧
    (p.normalize f).infinity = p.infinity ∧ (p.normalize f).nan = p.nan := by
  unfold FloatParts.normalize
  split
  · exact ⟨rfl, rfl, rfl⟩
  · exact ⟨rfl, rfl, rfl⟩

theorem normalize_zero (h : p.sig = 0) : p.normalize f = p := if_pos h

/-- A significand is shifted up without a change of the number. -/
theorem normalize_full (hf : f.Of b) (hsig : p.sig ≠ 0) (hlt : p.sig < 2 ^ (b.t + 1)) :
    2 ^ b.t ≤ (p.normalize f).sig ∧ (p.normalize f).sig < 2 ^ (b.t + 1) ∧
      dyadic p.sig p.exp = dyadic (p.normalize f).sig (p.normalize f).exp := by
  have hlog : Nat.log2 p.sig < b.t + 1 := (Nat.log2_lt hsig).mpr hlt
  have hsplit : Nat.log2 p.sig + (b.t - Nat.log2 p.sig) = b.t := by omega
  unfold FloatParts.normalize
  rw [if_neg hsig, hf.fraction]
  dsimp only
  rw [Nat.shiftLeft_eq]
  refine ⟨?_, ?_, (dyadic_shift p.sig (b.t - Nat.log2 p.sig) p.exp).symm⟩
  · calc 2 ^ b.t = 2 ^ Nat.log2 p.sig * 2 ^ (b.t - Nat.log2 p.sig) := by rw [← pow_add, hsplit]
      _ ≤ p.sig * 2 ^ (b.t - Nat.log2 p.sig) := Nat.mul_le_mul_right _ (Nat.log2_self_le hsig)
  · calc p.sig * 2 ^ (b.t - Nat.log2 p.sig)
        < 2 ^ (Nat.log2 p.sig + 1) * 2 ^ (b.t - Nat.log2 p.sig) :=
          Nat.mul_lt_mul_of_pos_right Nat.lt_log2_self (Nat.two_pow_pos _)
      _ = 2 ^ (b.t + 1) := by
          rw [← pow_add]
          congr 1
          omega

/-- The operands of the arithmetic, for words that are numbers or infinities. -/
theorem operand_unpack (hf : f.Of b) {v : FloatBits} (hv : v.interchange = b)
    (hnan : (f.unpack v).nan = false) : Operand b ((f.unpack v).normalize f) v.datum := by
  have hdatum := FloatFormat.unpack_datum hf hv
  rw [hnan, if_neg Bool.false_ne_true] at hdatum
  obtain ⟨hnegative, hinfinity, _⟩ := normalize_fields (f := f) (p := f.unpack v)
  cases hinf : (f.unpack v).infinity with
  | true =>
    have hsig : (f.unpack v).sig = 0 := by
      rw [FloatFormat.unpack_eq hf] at hinf ⊢
      dsimp only at hinf ⊢
      obtain ⟨hmax, hzero⟩ := of_decide_eq_true hinf
      rw [if_pos (Or.inr hmax), hzero]
    rw [hinf, if_pos rfl] at hdatum
    rw [hdatum, normalize_zero hsig]
    exact Operand.infinity hinf hsig
  | false =>
    rw [hinf, if_neg Bool.false_ne_true] at hdatum
    have hdecode : b.decode v.bits =
        .finite (f.unpack v).negative (f.unpack v).sig (f.unpack v).exp := by
      rw [← hdatum, FloatBits.datum, hv]
    have hgrid := (Interchange.decode_finite hdecode).1
    rw [hdatum, ← hnegative]
    by_cases hsig : (f.unpack v).sig = 0
    · rw [normalize_zero hsig]
      exact Operand.finite hinf (Or.inl hsig) hgrid.sig rfl
    · obtain ⟨hfull, hlt, hvalue⟩ := normalize_full hf hsig hgrid.sig
      exact Operand.finite (hinfinity.trans hinf) (Or.inr hfull) hlt hvalue

end

/-! ## Sums -/

section

variable {f : FloatFormat} {b : Interchange} {p p' : FloatParts} {x y : Datum}

theorem signed_dyadic_zero (negative : Bool) (e : ℤ) : signed negative (dyadic 0 e) = 0 := by
  rw [signed_eq_zero_iff, dyadic_eq_zero_iff]

theorem rounded_number (hf : f.Of b) {zero negative : Bool} {sig : ℕ} {exp : ℤ} {q : ℚ}
    (hsig : sig ≠ 0) (hlt : sig < 2 ^ 128) (h : Guarded b.t sig q) :
    FloatBits.Rounded b (.number zero (signed negative (q * 2 ^ exp)))
      (f.pack negative sig exp) := by
  have hq : 0 < q := lt_of_lt_of_le (by positivity) (h.pow_log2_le hsig)
  have hne : signed negative (q * 2 ^ exp) ≠ 0 :=
    signed_eq_zero_iff.not.mpr (mul_pos hq (two_zpow_pos exp)).ne'
  rw [Exact.number_of_ne hne]
  exact FloatFormat.rounded_pack hf hsig hlt h

/-- An exact significand needs no guard bits. -/
theorem rounded_exact (hf : f.Of b) (negative : Bool) {sig : ℕ} (exp : ℤ) (hlt : sig < 2 ^ 128) :
    FloatBits.Rounded b (.number negative (signed negative (dyadic sig exp)))
      (f.pack negative sig exp) := by
  by_cases hsig : sig = 0
  · rw [hsig, signed_dyadic_zero, Exact.number_zero]
    exact FloatFormat.pack_zero hf negative exp
  · exact rounded_number hf hsig hlt (Or.inl rfl)

/-- The larger operand in units of its last guard bit, and the smaller one. -/
structure Aligned (b : Interchange) (p p' : FloatParts) : Prop where
  full : 2 ^ b.t ≤ p.sig
  lt : p.sig < 2 ^ (b.t + 1)
  full' : 2 ^ b.t ≤ p'.sig
  lt' : p'.sig < 2 ^ (b.t + 1)
  le : p'.exp < p.exp ∨ (p'.exp = p.exp ∧ p'.sig ≤ p.sig)

/-- The smaller operand on the scale of the larger one. -/
def alignedTail (p p' : FloatParts) : ℚ := (p'.sig * 8 : ℕ) / 2 ^ (p.exp - p'.exp).toNat

namespace Aligned

theorem dyadic_left (p : FloatParts) :
    dyadic p.sig p.exp = ((p.sig * 8 : ℕ) : ℚ) * 2 ^ (p.exp - 3) :=
  (dyadic_shift p.sig 3 p.exp).symm

theorem dyadic_right (h : Aligned b p p') :
    dyadic p'.sig p'.exp = alignedTail p p' * 2 ^ (p.exp - 3) := by
  have hd : ((p.exp - p'.exp).toNat : ℤ) = p.exp - p'.exp := Int.toNat_of_nonneg (by
    rcases h.le with hlt | ⟨heq, _⟩ <;> omega)
  have hexp : p.exp - 3 = p'.exp - 3 + (p.exp - p'.exp).toNat := by omega
  rw [dyadic_left p', alignedTail, hexp, zpow_add₀ (by norm_num), zpow_natCast]
  field_simp

theorem tail_le (h : Aligned b p p') : alignedTail p p' ≤ (p.sig * 8 : ℕ) := by
  have hfull := h.full
  have hlt' := h.lt'
  rw [pow_succ] at hlt'
  unfold alignedTail
  rw [div_le_iff₀ (by positivity)]
  rcases h.le with hlt | ⟨heq, hle⟩
  · -- One place further down there is nothing larger.
    have htwo : 2 ^ 1 ≤ 2 ^ (p.exp - p'.exp).toNat := Nat.pow_le_pow_right (by omega) (by omega)
    have hmul := Nat.mul_le_mul_left (p.sig * 8) htwo
    exact_mod_cast (by omega : p'.sig * 8 ≤ p.sig * 8 * 2 ^ (p.exp - p'.exp).toNat)
  · rw [heq, sub_self, Int.toNat_zero, pow_zero, mul_one]
    exact_mod_cast Nat.mul_le_mul_right 8 hle

/-- Where a difference may be inexact, the smaller operand is at most a sixteenth of what it
was, and the difference keeps its guard bits. -/
theorem tail_lt (h : Aligned b p p') (hd : 4 ≤ (p.exp - p'.exp).toNat) :
    alignedTail p p' < 2 ^ b.t := by
  have hlt' := h.lt'
  have hpow : 2 ^ 4 ≤ 2 ^ (p.exp - p'.exp).toNat := Nat.pow_le_pow_right (by omega) hd
  have hmul := Nat.mul_le_mul_left (2 ^ b.t) hpow
  rw [pow_succ] at hlt'
  unfold alignedTail
  rw [div_lt_iff₀ (by positivity)]
  exact_mod_cast (by omega : p'.sig * 8 < 2 ^ b.t * 2 ^ (p.exp - p'.exp).toNat)

variable (hsmall : b.t ≤ 52)

include hsmall

theorem eight_lt (h : Aligned b p p') : p.sig * 8 < 2 ^ 57 ∧ p'.sig * 8 < 2 ^ 57 := by
  have hpow : 2 ^ (b.t + 1) ≤ 2 ^ 53 := Nat.pow_le_pow_right (by omega) (by omega)
  have hlt := h.lt
  have hlt' := h.lt'
  omega

theorem stands_tail (h : Aligned b p p') :
    Stands (jam (p'.sig * 8) (p.exp - p'.exp).toNat) (alignedTail p p') := by
  have := (h.eight_lt hsmall).2
  exact stands_jam (by omega) _

theorem jam_le (h : Aligned b p p') :
    jam (p'.sig * 8) (p.exp - p'.exp).toNat ≤ p.sig * 8 :=
  ((h.stands_tail hsmall).sub_even (by omega) h.tail_le).1

theorem guarded_add (h : Aligned b p p') :
    p.sig * 8 + jam (p'.sig * 8) (p.exp - p'.exp).toNat ≠ 0 ∧
      p.sig * 8 + jam (p'.sig * 8) (p.exp - p'.exp).toNat < 2 ^ 128 ∧
      Guarded b.t (p.sig * 8 + jam (p'.sig * 8) (p.exp - p'.exp).toNat)
        ((p.sig * 8 : ℕ) + alignedTail p p') := by
  have hfull := h.full
  have hpos := Nat.two_pow_pos b.t
  have height := (h.eight_lt hsmall).1
  have hle := h.jam_le hsmall
  have hne : p.sig * 8 + jam (p'.sig * 8) (p.exp - p'.exp).toNat ≠ 0 := by omega
  refine ⟨hne, by omega, Or.inr ⟨?_, (h.stands_tail hsmall).add_even (by omega)⟩⟩
  rw [Nat.le_log2 hne, pow_succ, pow_succ]
  omega

/-- Nothing is left of a difference only if the operands are equal. -/
theorem eq_tail (h : Aligned b p p')
    (heq : p.sig * 8 = jam (p'.sig * 8) (p.exp - p'.exp).toNat) :
    ((p.sig * 8 : ℕ) : ℚ) = alignedTail p p' := by
  have hstands := h.stands_tail hsmall
  rw [← heq] at hstands
  rcases hstands with hexact | ⟨hodd, _⟩
  · exact hexact.symm
  · omega

theorem guarded_sub (h : Aligned b p p') :
    Guarded b.t (p.sig * 8 - jam (p'.sig * 8) (p.exp - p'.exp).toNat)
      ((p.sig * 8 : ℕ) - alignedTail p p') := by
  have hfull := h.full
  have height' := (h.eight_lt hsmall).2
  have hstands := h.stands_tail hsmall
  have hle := h.jam_le hsmall
  by_cases hd : (p.exp - p'.exp).toNat ≤ 3
  · left
    rw [Nat.cast_sub hle, ← jam_exact (by omega) hd]
    rfl
  · right
    have htail := h.tail_lt (by omega)
    have heven : 2 ^ b.t % 2 = 0 := by
      have hsucc : b.t = b.t - 1 + 1 := by have := b.t_pos; omega
      rw [hsucc, pow_succ, Nat.mul_mod_left]
    have hjam : jam (p'.sig * 8) (p.exp - p'.exp).toNat ≤ 2 ^ b.t :=
      (hstands.sub_even heven (by exact_mod_cast htail.le)).1
    have hpos := Nat.two_pow_pos b.t
    refine ⟨?_, (hstands.sub_even (by omega) h.tail_le).2⟩
    rw [Nat.le_log2 (by omega), pow_succ, pow_succ]
    omega

end Aligned

theorem rounded_aligned (hf : f.Of b) (h : Aligned b p p') :
    FloatBits.Rounded b
      (.number (p.negative && p'.negative)
        (signed p.negative (dyadic p.sig p.exp) + signed p'.negative (dyadic p'.sig p'.exp)))
      (if p.negative = p'.negative then
        f.pack p.negative (p.sig <<< 3 + jam (p'.sig <<< 3) (p.exp - p'.exp).toNat) (p.exp - 3)
      else
        f.pack (p.negative && decide (p.sig <<< 3 ≠ jam (p'.sig <<< 3) (p.exp - p'.exp).toNat))
          (p.sig <<< 3 - jam (p'.sig <<< 3) (p.exp - p'.exp).toNat) (p.exp - 3)) := by
  have height : ∀ n : ℕ, n <<< 3 = n * 8 := fun n => Nat.shiftLeft_eq n 3
  rw [height, height, Aligned.dyadic_left p, h.dyadic_right]
  by_cases hsign : p.negative = p'.negative
  · obtain ⟨hne, hlt, hguard⟩ := h.guarded_add hf.small
    have hsum : signed p.negative (((p.sig * 8 : ℕ) : ℚ) * 2 ^ (p.exp - 3)) +
        signed p'.negative (alignedTail p p' * 2 ^ (p.exp - 3)) =
          signed p.negative (((p.sig * 8 : ℕ) + alignedTail p p') * 2 ^ (p.exp - 3)) := by
      rw [← hsign]
      cases p.negative <;> simp only [signed_false, signed_true] <;> ring
    rw [if_pos hsign, hsum]
    exact rounded_number hf hne hlt hguard
  · have hsum : signed p.negative (((p.sig * 8 : ℕ) : ℚ) * 2 ^ (p.exp - 3)) +
        signed p'.negative (alignedTail p p' * 2 ^ (p.exp - 3)) =
          signed p.negative (((p.sig * 8 : ℕ) - alignedTail p p') * 2 ^ (p.exp - 3)) := by
      have hflip : p'.negative = !p.negative := Bool.eq_not_of_ne (Ne.symm hsign)
      rw [hflip, signed_not]
      cases p.negative <;> simp only [signed_false, signed_true] <;> ring
    rw [if_neg hsign, hsum]
    have hle := h.jam_le hf.small
    have hlt := (h.eight_lt hf.small).1
    by_cases hzero : p.sig * 8 = jam (p'.sig * 8) (p.exp - p'.exp).toNat
    · have hand : (p.negative && p'.negative) = false := by
        cases hp : p.negative <;> cases hp' : p'.negative <;> simp_all
      have hv : signed p.negative (((p.sig * 8 : ℕ) - alignedTail p p') * 2 ^ (p.exp - 3)) = 0 := by
        rw [signed_eq_zero_iff, h.eq_tail hf.small hzero, sub_self, zero_mul]
      rw [hv, Exact.number_zero, hand, ← hzero, Nat.sub_self, decide_eq_false (not_not.mpr rfl),
        Bool.and_false]
      exact FloatFormat.pack_zero hf false _
    · rw [decide_eq_true hzero, Bool.and_true]
      exact rounded_number hf (by omega) (by omega) (h.guarded_sub hf.small)

theorem rounded_addParts (hf : f.Of b) (h : Operand b p x) (h' : Operand b p' y) :
    FloatBits.Rounded b (x.add y) (FloatBits.addParts f p p') := by
  unfold FloatBits.addParts
  cases h with
  | infinity hinf hsig =>
    cases h' with
    | infinity hinf' hsig' =>
      rw [hinf, hinf']
      by_cases hsign : p.negative = p'.negative
      · simp only [Datum.add, hsign, Bool.xor_self]
        exact FloatFormat.rounded_infinity hf _
      · have hxor : (p.negative ^^ p'.negative) = true := by
          cases hp : p.negative <;> cases hp' : p'.negative <;> simp_all
        simp only [Datum.add, hxor, if_neg hsign]
        exact FloatFormat.rounded_nan hf
    | finite hinf' _ _ _ =>
      rw [hinf, hinf']
      exact FloatFormat.rounded_infinity hf _
  | finite hinf hfull hlt hvalue =>
    cases h' with
    | infinity hinf' hsig' =>
      rw [hinf, hinf']
      exact FloatFormat.rounded_infinity hf _
    | finite hinf' hfull' hlt' hvalue' =>
      rw [hinf, hinf']
      simp only [Datum.add, Bool.or_self, Bool.false_eq_true, if_false]
      rw [hvalue, hvalue']
      have hlt128 : 2 ^ (b.t + 1) ≤ 2 ^ 128 :=
        Nat.pow_le_pow_right (by omega) (by have := hf.small; omega)
      by_cases hzero : p.sig = 0
      · by_cases hzero' : p'.sig = 0
        · rw [if_pos ⟨hzero, hzero'⟩, hzero, hzero', signed_dyadic_zero, signed_dyadic_zero,
            add_zero, Exact.number_zero]
          exact FloatFormat.rounded_zero hf _
        · rw [if_neg (fun h => hzero' h.2), if_pos hzero, hzero, signed_dyadic_zero, zero_add]
          exact rounded_number hf hzero' (by omega) (Or.inl rfl)
      · by_cases hzero' : p'.sig = 0
        · rw [if_neg (fun h => hzero h.1), if_neg hzero, if_pos hzero', hzero', signed_dyadic_zero,
            add_zero]
          exact rounded_number hf hzero (by omega) (Or.inl rfl)
        · rw [if_neg (fun h => hzero h.1), if_neg hzero, if_neg hzero']
          have hfull := hfull.resolve_left hzero
          have hfull' := hfull'.resolve_left hzero'
          by_cases hswap : p.exp < p'.exp ∨ (p.exp = p'.exp ∧ p.sig < p'.sig)
          · rw [if_pos hswap, Bool.and_comm, add_comm]
            refine rounded_aligned hf ⟨hfull', hlt', hfull, hlt, ?_⟩
            exact hswap.imp_right fun ⟨heq, hsig⟩ => ⟨heq, hsig.le⟩
          · rw [if_neg hswap]
            exact rounded_aligned hf ⟨hfull, hlt, hfull', hlt', by omega⟩

/-! ## Products and quotients -/

theorem rounded_mulParts (hf : f.Of b) (h : Operand b p x) (h' : Operand b p' y) :
    FloatBits.Rounded b (x.mul y) (FloatBits.mulParts f p p') := by
  unfold FloatBits.mulParts
  cases h with
  | infinity hinf hsig =>
    cases h' with
    | infinity hinf' hsig' =>
      simp only [hinf, hinf', Bool.not_true, Bool.and_false, Bool.or_self, Bool.false_eq_true,
        if_false, if_true]
      exact FloatFormat.rounded_infinity hf _
    | @finite m e hinf' hfull' hlt' hvalue' =>
      have hm := zero_iff_of_dyadic_eq hvalue'
      simp only [hinf, hinf', Datum.mul, hm]
      by_cases hzero' : p'.sig = 0
      · simp only [hzero']
        exact FloatFormat.rounded_nan hf
      · simp only [hzero', decide_false, if_false]
        exact FloatFormat.rounded_infinity hf _
  | @finite m e hinf hfull hlt hvalue =>
    have hm := zero_iff_of_dyadic_eq hvalue
    cases h' with
    | infinity hinf' hsig' =>
      simp only [hinf, hinf', Datum.mul, hm]
      by_cases hzero : p.sig = 0
      · simp only [hzero]
        exact FloatFormat.rounded_nan hf
      · simp only [hzero, decide_false, if_false]
        exact FloatFormat.rounded_infinity hf _
    | finite hinf' hfull' hlt' hvalue' =>
      have hprod : p.sig * p'.sig < 2 ^ 128 := by
        calc p.sig * p'.sig < 2 ^ (b.t + 1) * 2 ^ (b.t + 1) := Nat.mul_lt_mul'' hlt hlt'
          _ = 2 ^ (b.t + 1 + (b.t + 1)) := (pow_add _ _ _).symm
          _ ≤ 2 ^ 128 := Nat.pow_le_pow_right (by omega) (by have := hf.small; omega)
      simp only [hinf, hinf', Datum.mul, Bool.false_and, Bool.or_self, Bool.false_eq_true, if_false]
      rw [hvalue, hvalue', signed_mul, dyadic_mul]
      exact rounded_exact hf _ _ hprod

theorem guarded_div {n d : ℕ} (hsmall : b.t ≤ 52) (hn : 2 ^ b.t ≤ n) (hn' : n < 2 ^ (b.t + 1))
    (hd : 2 ^ b.t ≤ d) (hd' : d < 2 ^ (b.t + 1)) :
    let q := n * 2 ^ (b.t + 4) / d ||| (decide (n * 2 ^ (b.t + 4) % d ≠ 0)).toNat
    q ≠ 0 ∧ q < 2 ^ 128 ∧ Guarded b.t q ((n * 2 ^ (b.t + 4) : ℕ) / d) := by
  intro q
  have hdpos : 0 < d := (Nat.two_pow_pos b.t).trans_le hd
  have hlow : 2 ^ (b.t + 2) ≤ n * 2 ^ (b.t + 4) / d := by
    rw [Nat.le_div_iff_mul_le hdpos]
    calc 2 ^ (b.t + 2) * d ≤ 2 ^ (b.t + 2) * 2 ^ (b.t + 1) := Nat.mul_le_mul_left _ hd'.le
      _ = 2 ^ (b.t + (b.t + 3)) := by rw [← pow_add]; congr 1; omega
      _ ≤ 2 ^ b.t * 2 ^ (b.t + 4) := by
          rw [← pow_add]
          exact Nat.pow_le_pow_right (by omega) (by omega)
      _ ≤ n * 2 ^ (b.t + 4) := Nat.mul_le_mul_right _ hn
  have hle : n * 2 ^ (b.t + 4) / d ≤ q := Nat.left_le_or
  have hpos := Nat.two_pow_pos (b.t + 2)
  have hne : q ≠ 0 := by omega
  refine ⟨hne, Nat.or_lt_two_pow ?_ ?_, Or.inr ⟨?_, stands_sticky _ hdpos⟩⟩
  · calc n * 2 ^ (b.t + 4) / d ≤ n * 2 ^ (b.t + 4) := Nat.div_le_self _ _
      _ < 2 ^ (b.t + 1) * 2 ^ (b.t + 4) :=
          Nat.mul_lt_mul_of_pos_right hn' (Nat.two_pow_pos _)
      _ = 2 ^ (b.t + 1 + (b.t + 4)) := (pow_add _ _ _).symm
      _ ≤ 2 ^ 128 := Nat.pow_le_pow_right (by omega) (by omega)
  · exact (Bool.toNat_lt _).trans (by norm_num)
  · rw [Nat.le_log2 hne]
    exact hlow.trans hle

theorem rounded_divParts (hf : f.Of b) (h : Operand b p x) (h' : Operand b p' y) :
    FloatBits.Rounded b (x.div y) (FloatBits.divParts f p p') := by
  unfold FloatBits.divParts
  cases h with
  | infinity hinf hsig =>
    cases h' with
    | infinity hinf' hsig' =>
      simp only [hinf, hinf', Datum.div]
      exact FloatFormat.rounded_nan hf
    | finite hinf' hfull' hlt' hvalue' =>
      simp only [hinf, hinf', Datum.div]
      exact FloatFormat.rounded_infinity hf _
  | @finite m e hinf hfull hlt hvalue =>
    have hm := zero_iff_of_dyadic_eq hvalue
    cases h' with
    | infinity hinf' hsig' =>
      simp only [hinf, hinf', Datum.div, Bool.not_true, Bool.and_false, Bool.false_and,
        Bool.or_self, Bool.false_eq_true, if_false, Bool.true_or, if_true]
      exact FloatFormat.rounded_zero hf _
    | @finite m' e' hinf' hfull' hlt' hvalue' =>
      have hm' := zero_iff_of_dyadic_eq hvalue'
      simp only [hinf, hinf', Datum.div, hm, hm', Bool.and_self, Bool.not_false, Bool.true_and,
        Bool.false_or, Bool.and_true, Bool.and_eq_true, decide_eq_true_eq]
      -- A zero divisor gives an infinity, and no number when the dividend is zero too.
      by_cases hzero' : p'.sig = 0
      · by_cases hzero : p.sig = 0
        · rw [if_pos hzero', if_pos hzero, if_pos ⟨hzero, hzero'⟩]
          exact FloatFormat.rounded_nan hf
        · rw [if_pos hzero', if_neg hzero, if_neg (fun h => hzero h.1), if_pos hzero']
          exact FloatFormat.rounded_infinity hf _
      · rw [if_neg hzero', if_neg (fun h => hzero' h.2), if_neg hzero', hvalue, hvalue', signed_div]
        by_cases hzero : p.sig = 0
        · rw [if_pos hzero, hzero, dyadic_eq_zero_iff.mpr rfl, zero_div, signed_eq_zero_iff.mpr rfl,
            Exact.number_zero]
          exact FloatFormat.rounded_zero hf _
        · have hpos' : ((p'.sig : ℕ) : ℚ) ≠ 0 := Nat.cast_ne_zero.mpr hzero'
          obtain ⟨hne, hlt', hguard⟩ := guarded_div (b := b) hf.small (hfull.resolve_left hzero) hlt
            (hfull'.resolve_left hzero') hlt'
          have hquot : dyadic p.sig p.exp / dyadic p'.sig p'.exp =
              (p.sig * 2 ^ (b.t + 4) : ℕ) / p'.sig * 2 ^ (p.exp - p'.exp - (b.t + 4 : ℕ)) := by
            rw [dyadic, dyadic, zpow_sub₀ (by norm_num), zpow_sub₀ (by norm_num), zpow_natCast]
            push_cast
            have := (two_zpow_pos p'.exp).ne'
            field_simp
          rw [if_neg hzero, hquot, hf.fraction, Nat.shiftLeft_eq]
          exact rounded_number hf hne hlt' hguard

/-! ## Arithmetic -/

/-- The exact result of an operator that rounds; `none` for the others. -/
def Datum.apply (op : BinOp) (x y : Datum) : Option Exact :=
  match op with
  | .fAdd => some (x.add y)
  | .fSub => some (x.sub y)
  | .fMul => some (x.mul y)
  | .fDiv => some (x.div y)
  | _ => none

theorem Datum.apply_nan {op : BinOp} {exact : Exact} (h : x = .nan ∨ y = .nan)
    (happly : x.apply op y = some exact) : exact = .nan := by
  unfold Datum.apply at happly
  rcases h with rfl | rfl
  · cases op <;> cases happly <;> rfl
  · cases op <;> cases happly <;> cases x <;> rfl

/-- The parts of a word tell whether it is a number. -/
theorem unpack_nan_iff (hf : f.Of b) {v : FloatBits} (hv : v.interchange = b) :
    (f.unpack v).nan = true ↔ v.datum = .nan := by
  rw [FloatFormat.unpack_datum hf hv]
  cases (f.unpack v).nan <;> cases (f.unpack v).infinity <;> simp

end

/-- `FAdd`, `FSub`, `FMul` and `FDiv` give the exact result rounded once. -/
theorem FloatBits.arithmetic_rounded {op : BinOp} {lhs rhs : FloatBits} {exact : Exact}
    (hwidth : lhs.width = rhs.width) (hop : lhs.datum.apply op rhs.datum = some exact) :
    ∃ result, FloatBits.arithmetic op lhs rhs = some result ∧
      result.Rounded lhs.interchange exact := by
  have hf := FloatFormat.of_ofBits lhs
  have hrhs : rhs.interchange = lhs.interchange :=
    (FloatBits.interchange_eq_iff.mpr hwidth).symm
  unfold arithmetic
  rw [if_neg (not_not.mpr hwidth)]
  dsimp only
  generalize FloatFormat.ofBits lhs = f at *
  -- A NaN operand gives a NaN; otherwise both operands stand for numbers.
  by_cases hnan : ((f.unpack lhs).nan || (f.unpack rhs).nan) = true
  · have hdatum := (Bool.or_eq_true _ _).mp hnan
    rw [unpack_nan_iff hf rfl, unpack_nan_iff hf hrhs] at hdatum
    rw [if_pos hnan, Datum.apply_nan hdatum hop]
    exact ⟨f.nan, rfl, FloatFormat.rounded_nan hf⟩
  · obtain ⟨hlnan, hrnan⟩ := Bool.or_eq_false_iff.mp (Bool.not_eq_true _ ▸ hnan)
    have ha := operand_unpack hf rfl hlnan
    have hb := operand_unpack hf hrhs hrnan
    rw [if_neg hnan]
    unfold Datum.apply at hop
    cases op with
    | fAdd =>
      cases hop
      exact ⟨_, rfl, rounded_addParts hf ha hb⟩
    | fSub =>
      cases hop
      have hnegative := (normalize_fields (f := f) (p := f.unpack rhs)).1
      have hflip := normalize_negative (f := f) (p := f.unpack rhs) (!(f.unpack rhs).negative)
      rw [if_pos rfl, hflip, ← hnegative]
      exact ⟨_, rfl, rounded_addParts hf ha hb.neg⟩
    | fMul =>
      cases hop
      exact ⟨_, rfl, rounded_mulParts hf ha hb⟩
    | fDiv =>
      cases hop
      exact ⟨_, rfl, rounded_divParts hf ha hb⟩
    | _ => cases hop

/-- A quotient of two single-precision numbers that has to be rounded. -/
theorem FloatBits.arithmetic_rounded_third :
    ∃ result, FloatBits.arithmetic .fDiv (.f32 0x3f800000) (.f32 0x40400000) = some result ∧
      result.Rounded ⟨23, 8, by decide, by decide⟩
        ((FloatBits.datum (.f32 0x3f800000)).div (FloatBits.datum (.f32 0x40400000))) :=
  FloatBits.arithmetic_rounded rfl rfl

example : FloatBits.arithmetic .fDiv (.f32 0x3f800000) (.f32 0x40400000) =
    some (.f32 0x3eaaaaab) := by
  decide +kernel

end Whale
