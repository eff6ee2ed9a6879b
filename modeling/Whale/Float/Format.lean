import Whale.Float.Arithmetic
import Whale.Lib.Interchange

set_option autoImplicit false

/-! # The three formats

Each width is a binary interchange format, `unpack` reads a word of it and the words `pack`
puts together are words of it. -/

namespace Whale

/-- The interchange format of a width. -/
def FloatBits.interchange : FloatBits → Interchange
  | .f16 _ => ⟨10, 5, by decide, by decide⟩
  | .f32 _ => ⟨23, 8, by decide, by decide⟩
  | .f64 _ => ⟨52, 11, by decide, by decide⟩

/-- What a floating value stands for. -/
def FloatBits.datum (v : FloatBits) : Datum := v.interchange.decode v.bits

/-- `f` is the source's description of the format `b`. -/
structure FloatFormat.Of (f : FloatFormat) (b : Interchange) : Prop where
  width : f.width = b.t + b.k + 1
  fraction : f.fraction = b.t
  bias : f.bias = b.bias
  small : b.t ≤ 52
  narrow : b.bias ≤ 1023
  bits : ∀ n, n < 2 ^ (b.t + b.k + 1) → (f.bits n).bits = n
  interchange : ∀ n, (f.bits n).interchange = b

/-- `v` is a word of the format `b` with the exact result `x` rounded once; what is not a
number is the quiet one without a payload. -/
structure FloatBits.Rounded (b : Interchange) (x : Exact) (v : FloatBits) : Prop where
  format : v.interchange = b
  rounds : b.Rounds x v.datum
  canonical : x = .nan → v.bits = b.word false (2 ^ b.k - 1) (2 ^ (b.t - 1))

theorem FloatBits.bits_lt (v : FloatBits) :
    v.bits < 2 ^ (v.interchange.t + v.interchange.k + 1) := by
  cases v with
  | f16 x => exact x.toNat_lt
  | f32 x => exact x.toNat_lt
  | f64 x => exact x.toNat_lt

theorem FloatBits.interchange_eq_iff {v w : FloatBits} :
    v.interchange = w.interchange ↔ v.width = w.width := by
  cases v <;> cases w <;> simp [FloatBits.interchange, FloatBits.width]

/-- The words of one format are told apart by their bits. -/
theorem FloatBits.eq_of_bits {v w : FloatBits} (h : v.interchange = w.interchange)
    (hbits : v.bits = w.bits) : v = w := by
  cases v <;> cases w <;> simp_all [FloatBits.interchange, FloatBits.bits, UInt16.toNat_inj,
    UInt32.toNat_inj, UInt64.toNat_inj]

/-- A datum stands in one word of a format only. -/
theorem FloatBits.eq_of_datum {v w : FloatBits} (h : v.interchange = w.interchange)
    (hnan : v.datum ≠ .nan) (hdatum : v.datum = w.datum) : v = w := by
  have hv := v.bits_lt
  unfold datum at hnan hdatum
  rw [h] at hv hnan hdatum
  exact eq_of_bits h (Interchange.decode_injective hv w.bits_lt hnan hdatum)

namespace FloatFormat

theorem of_ofBits (v : FloatBits) : (ofBits v).Of v.interchange := by
  cases v with
  | f16 x =>
    exact ⟨rfl, rfl, rfl, (by decide : 10 ≤ 52), (by decide : (15 : ℤ) ≤ 1023),
      fun n hn => Nat.mod_eq_of_lt hn, fun _ => rfl⟩
  | f32 x =>
    exact ⟨rfl, rfl, rfl, (by decide : 23 ≤ 52), (by decide : (127 : ℤ) ≤ 1023),
      fun n hn => Nat.mod_eq_of_lt hn, fun _ => rfl⟩
  | f64 x =>
    exact ⟨rfl, rfl, rfl, (by decide : 52 ≤ 52), (by decide : (1023 : ℤ) ≤ 1023),
      fun n hn => Nat.mod_eq_of_lt hn, fun _ => rfl⟩

variable {f : FloatFormat} {b : Interchange}

/-- The fields set by the bit operations of the source. -/
theorem or_fields (hf : f.Of b) (negative : Bool) {E F : ℕ} (hE : E < 2 ^ b.k)
    (hF : F < 2 ^ b.t) :
    (if negative then f.sign else 0) ||| (E <<< f.fraction) ||| F = b.word negative E F := by
  have hshift : E <<< f.fraction = 2 ^ b.t * E := by
    rw [hf.fraction, Nat.shiftLeft_eq, mul_comm]
  have hsign : (if negative then f.sign else 0) = 2 ^ (b.t + b.k) * negative.toNat := by
    rw [sign, hf.width, Nat.add_sub_cancel]
    cases negative <;> simp
  have hlow : 2 ^ b.t * E + F < 2 ^ (b.t + b.k) := by
    calc 2 ^ b.t * E + F < 2 ^ b.t * (E + 1) := by rw [mul_add_one]; omega
      _ ≤ 2 ^ b.t * 2 ^ b.k := Nat.mul_le_mul_left _ hE
      _ = 2 ^ (b.t + b.k) := (pow_add 2 b.t b.k).symm
  rw [Nat.or_assoc, hshift, ← Nat.two_pow_add_eq_or_of_lt hF, hsign,
    ← Nat.two_pow_add_eq_or_of_lt hlow]
  unfold Interchange.word
  ring

theorem datum_bits (hf : f.Of b) (negative : Bool) {E F : ℕ} (hE : E < 2 ^ b.k)
    (hF : F < 2 ^ b.t) :
    (f.bits ((if negative then f.sign else 0) ||| (E <<< f.fraction) ||| F)).datum =
      b.ofFields negative E F := by
  rw [or_fields hf negative hE hF]
  unfold FloatBits.datum
  rw [hf.interchange, hf.bits _ (Interchange.word_lt hE hF), Interchange.decode_word hE hF]

theorem infinity_eq (hf : f.Of b) : f.infinity = (2 ^ b.k - 1) <<< f.fraction := by
  have hpow := b.two_pow_k
  have hbias := b.one_le_bias
  have hcast : ((2 ^ b.k : ℕ) : ℤ) = 2 ^ b.k := by push_cast; rfl
  unfold infinity
  rw [hf.bias]
  congr 1
  omega

theorem special_datum (hf : f.Of b) (negative infinite : Bool) :
    (f.special negative infinite).datum =
      if infinite then .infinity negative else .finite negative 0 b.low := by
  have hk : 2 ^ 2 ≤ 2 ^ b.k := Nat.pow_le_pow_right (by omega) b.two_le_k
  have ht := Nat.two_pow_pos b.t
  unfold special
  cases infinite with
  | false =>
    have h := datum_bits hf negative (E := 0) (F := 0) (by omega) ht
    rw [Nat.zero_shiftLeft, Nat.or_zero] at h
    rw [if_neg Bool.false_ne_true, h, Interchange.ofFields, if_neg (by omega), if_pos rfl]
    rfl
  | true =>
    have h := datum_bits hf negative (E := 2 ^ b.k - 1) (F := 0) (by omega) ht
    rw [Nat.or_zero, ← infinity_eq hf] at h
    rw [if_pos rfl, h, Interchange.ofFields, if_pos rfl, if_pos rfl]
    rfl

theorem special_interchange (hf : f.Of b) (negative infinite : Bool) :
    (f.special negative infinite).interchange = b := hf.interchange _

/-- The word of an infinity is right for an infinite result. -/
theorem rounded_infinity (hf : f.Of b) (negative : Bool) :
    FloatBits.Rounded b (.infinity negative) (f.special negative true) :=
  ⟨special_interchange hf _ _, special_datum hf _ _, by intro h; cases h⟩

theorem rounded_zero (hf : f.Of b) (negative : Bool) :
    FloatBits.Rounded b (.zero negative) (f.special negative false) :=
  ⟨special_interchange hf _ _, special_datum hf _ _, by intro h; cases h⟩

theorem rounded_nan (hf : f.Of b) : FloatBits.Rounded b .nan f.nan := by
  have hk := Nat.two_pow_pos b.k
  have hE : 2 ^ b.k - 1 < 2 ^ b.k := by omega
  have hF : 2 ^ (f.fraction - 1) < 2 ^ b.t := by
    rw [hf.fraction]
    exact Nat.pow_lt_pow_right (by omega) (by have := b.t_pos; omega)
  have hword := or_fields hf false hE hF
  have hdatum := datum_bits hf false hE hF
  rw [if_neg Bool.false_ne_true, Nat.zero_or, ← infinity_eq hf] at hword hdatum
  refine ⟨hf.interchange _, ?_, fun _ => ?_⟩
  · show (f.bits _).datum = .nan
    rw [hdatum, Interchange.ofFields, if_pos rfl, if_neg (Nat.two_pow_pos _).ne']
  · unfold nan
    rw [hword, hf.bits _ (Interchange.word_lt hE hF), hf.fraction]

/-! ## Reading a word -/

theorem and_two_pow (n i : ℕ) : n &&& 2 ^ i = if n.testBit i then 2 ^ i else 0 := by
  apply Nat.eq_of_testBit_eq
  intro j
  rw [Nat.testBit_and, Nat.testBit_two_pow]
  by_cases hj : i = j
  · subst hj
    cases n.testBit i <;> simp
  · rw [decide_eq_false hj, Bool.and_false]
    split
    · rw [Nat.testBit_two_pow, decide_eq_false hj]
    · exact (Nat.zero_testBit j).symm

theorem and_two_pow_ne_zero_iff {n i : ℕ} : n &&& 2 ^ i ≠ 0 ↔ n.testBit i = true := by
  rw [and_two_pow]
  cases n.testBit i with
  | false => simp
  | true => simp

theorem unpack_eq (hf : f.Of b) (v : FloatBits) :
    f.unpack v =
      let E := v.bits / 2 ^ b.t % 2 ^ b.k
      let F := v.bits % 2 ^ b.t
      { negative := decide (v.bits / 2 ^ (b.t + b.k) % 2 = 1)
        sig := if E = 0 ∨ E = 2 ^ b.k - 1 then F else 2 ^ b.t + F
        exp := max (E : ℤ) 1 - b.bias - b.t
        nan := decide (E = 2 ^ b.k - 1 ∧ F ≠ 0)
        infinity := decide (E = 2 ^ b.k - 1 ∧ F = 0) } := by
  have hsign : f.sign = 2 ^ (b.t + b.k) := by rw [sign, hf.width, Nat.add_sub_cancel]
  have hnegative : (v.bits &&& f.sign ≠ 0) = (v.bits / 2 ^ (b.t + b.k) % 2 = 1) := by
    rw [hsign, ← Nat.toNat_testBit, and_two_pow_ne_zero_iff, Bool.toNat_eq_one]
  have hexp : (v.bits % f.sign) >>> f.fraction = v.bits / 2 ^ b.t % 2 ^ b.k := by
    rw [hsign, hf.fraction, Nat.shiftRight_eq_div_pow, pow_add, Nat.mod_mul_right_div_self]
  have hF : v.bits % 2 ^ b.t < 2 ^ b.t := Nat.mod_lt _ (Nat.two_pow_pos _)
  have hor : v.bits % 2 ^ b.t ||| 2 ^ b.t = 2 ^ b.t + v.bits % 2 ^ b.t := by
    have h := Nat.two_pow_add_eq_or_of_lt hF 1
    rw [mul_one] at h
    rw [h, Nat.or_comm]
  have hmax : ∀ E : ℕ, (E : ℤ) = 2 * b.bias + 1 ↔ E = 2 ^ b.k - 1 := by
    intro E
    have hpow := b.two_pow_k
    have hbias := b.one_le_bias
    have hcast : ((2 ^ b.k : ℕ) : ℤ) = 2 ^ b.k := by push_cast; rfl
    omega
  unfold unpack
  simp only [hexp]
  simp only [hf.bias, hf.fraction, hmax, hnegative, hor, Int.natCast_eq_zero]

/-- `unpack` reads what the word stands for. -/
theorem unpack_datum (hf : f.Of b) {v : FloatBits} (hv : v.interchange = b) :
    v.datum = if (f.unpack v).nan then .nan
      else if (f.unpack v).infinity then .infinity (f.unpack v).negative
      else .finite (f.unpack v).negative (f.unpack v).sig (f.unpack v).exp := by
  have hk : 2 ^ 2 ≤ 2 ^ b.k := Nat.pow_le_pow_right (by omega) b.two_le_k
  unfold FloatBits.datum Interchange.decode Interchange.ofFields
  rw [hv, unpack_eq hf]
  generalize v.bits / 2 ^ b.t % 2 ^ b.k = E
  generalize v.bits % 2 ^ b.t = F
  simp only [decide_eq_true_eq]
  by_cases hmax : E = 2 ^ b.k - 1
  · rw [if_pos hmax]
    by_cases hzero : F = 0
    · rw [if_pos hzero, if_neg (fun h => h.2 hzero), if_pos ⟨hmax, hzero⟩]
    · rw [if_neg hzero, if_pos ⟨hmax, hzero⟩]
  · by_cases hzero : E = 0
    · rw [if_neg hmax, if_pos hzero, if_neg (fun h => hmax h.1), if_neg (fun h => hmax h.1),
        if_pos (Or.inl hzero), Interchange.low]
      congr 1
      omega
    · rw [if_neg hmax, if_neg hzero, if_neg (fun h => hmax h.1), if_neg (fun h => hmax h.1),
        if_neg (by omega)]
      congr 1
      omega

end FloatFormat

end Whale
