import Whale.Lib.Rounding

set_option autoImplicit false

/-! # Binary interchange formats

A word of such a format has a sign bit, an exponent field of `k` bits and a trailing
significand field of `t` bits. The exponent field is biased; all ones stand for infinities and
for what is not a number, all zeros for zeros and subnormal numbers. -/

namespace Whale

/-- What a word stands for; a finite datum is `sig * 2 ^ exp` with its sign. -/
inductive Datum where
  | nan
  | infinity (negative : Bool)
  | finite (negative : Bool) (sig : ℕ) (exp : ℤ)
  deriving DecidableEq

/-- The exact result of an operation: a zero has a sign, another number has its own. -/
inductive Exact where
  | nan
  | infinity (negative : Bool)
  | zero (negative : Bool)
  | real (v : ℚ)
  deriving DecidableEq

structure Interchange where
  t : ℕ
  k : ℕ
  t_pos : 0 < t
  two_le_k : 2 ≤ k

/-! ## Signed magnitudes -/

/-- The number of a magnitude and a sign. -/
def signed (negative : Bool) (v : ℚ) : ℚ := if negative then -v else v

@[simp]
theorem signed_false (v : ℚ) : signed false v = v := rfl

@[simp]
theorem signed_true (v : ℚ) : signed true v = -v := rfl

@[simp]
theorem abs_signed (negative : Bool) (v : ℚ) : |signed negative v| = |v| := by
  cases negative with
  | false => rfl
  | true => exact abs_neg v

@[simp]
theorem signed_eq_zero_iff {negative : Bool} {v : ℚ} : signed negative v = 0 ↔ v = 0 := by
  cases negative with
  | false => exact Iff.rfl
  | true => exact neg_eq_zero

theorem signed_not (negative : Bool) (v : ℚ) : signed (!negative) v = -signed negative v := by
  cases negative with
  | false => rfl
  | true => exact (neg_neg v).symm

theorem signed_mul (a b : Bool) (v w : ℚ) :
    signed a v * signed b w = signed (a ^^ b) (v * w) := by
  cases a <;> cases b <;> simp

theorem signed_div (a b : Bool) (v w : ℚ) :
    signed a v / signed b w = signed (a ^^ b) (v / w) := by
  cases a <;> cases b <;> simp [neg_div, div_neg]

/-- The sign of a number that is not zero is read from it. -/
theorem signed_neg_iff {negative : Bool} {v : ℚ} (hv : 0 < v) :
    decide (signed negative v < 0) = negative := by
  cases negative with
  | false => exact decide_eq_false (by simpa using hv.le)
  | true => exact decide_eq_true (by simpa using hv)

/-! ## Words -/

namespace Interchange

variable (b : Interchange)

def bias : ℤ := 2 ^ (b.k - 1) - 1

/-- The exponent of the last bit of subnormal numbers. -/
def low : ℤ := 1 - b.bias - b.t

/-- The exponent of the last bit of the largest numbers. -/
def high : ℤ := b.bias - b.t

/-- The word with these fields. -/
def word (negative : Bool) (E F : ℕ) : ℕ := negative.toNat * 2 ^ (b.t + b.k) + E * 2 ^ b.t + F

/-- What the fields stand for. -/
def ofFields (negative : Bool) (E F : ℕ) : Datum :=
  if E = 2 ^ b.k - 1 then if F = 0 then .infinity negative else .nan
  else if E = 0 then .finite negative F b.low
  else .finite negative (2 ^ b.t + F) (E - b.bias - b.t)

def decode (n : ℕ) : Datum :=
  b.ofFields (decide (n / 2 ^ (b.t + b.k) % 2 = 1)) (n / 2 ^ b.t % 2 ^ b.k) (n % 2 ^ b.t)

theorem two_pow_k : (2 : ℤ) ^ b.k = 2 * (b.bias + 1) := by
  have hk : b.k = b.k - 1 + 1 := by have := b.two_le_k; omega
  rw [hk, pow_succ, bias]
  ring

theorem one_le_bias : 1 ≤ b.bias := by
  have hk := b.two_le_k
  have hle : (2 : ℤ) ^ 1 ≤ 2 ^ (b.k - 1) := pow_le_pow_right₀ (by norm_num) (by omega)
  unfold bias
  omega

theorem low_le_high : b.low ≤ b.high := by
  have := b.one_le_bias
  unfold low high
  omega

variable {b}

/-- The exponent field of all ones, next to the bias. -/
theorem exponent_lt_iff {E : ℕ} : E < 2 ^ b.k - 1 ↔ (E : ℤ) ≤ 2 * b.bias := by
  have hpow := b.two_pow_k
  have hcast : ((2 ^ b.k : ℕ) : ℤ) = 2 ^ b.k := by push_cast; rfl
  omega

theorem word_lt {negative : Bool} {E F : ℕ} (hE : E < 2 ^ b.k) (hF : F < 2 ^ b.t) :
    b.word negative E F < 2 ^ (b.t + b.k + 1) := by
  have hlow : E * 2 ^ b.t + F < 2 ^ (b.t + b.k) := by
    calc E * 2 ^ b.t + F < (E + 1) * 2 ^ b.t := by rw [add_one_mul]; omega
      _ ≤ 2 ^ b.k * 2 ^ b.t := Nat.mul_le_mul_right _ hE
      _ = 2 ^ (b.t + b.k) := by rw [← pow_add, add_comm]
  have hsign : negative.toNat * 2 ^ (b.t + b.k) ≤ 1 * 2 ^ (b.t + b.k) :=
    Nat.mul_le_mul_right _ (Bool.toNat_le negative)
  unfold word
  rw [pow_succ]
  omega

theorem word_fields (negative : Bool) {E F : ℕ} (hE : E < 2 ^ b.k) (hF : F < 2 ^ b.t) :
    b.word negative E F / 2 ^ (b.t + b.k) % 2 = negative.toNat ∧
      b.word negative E F / 2 ^ b.t % 2 ^ b.k = E ∧ b.word negative E F % 2 ^ b.t = F := by
  have htop : b.word negative E F / 2 ^ b.t = negative.toNat * 2 ^ b.k + E := by
    have hsplit : b.word negative E F = 2 ^ b.t * (negative.toNat * 2 ^ b.k + E) + F := by
      unfold word
      rw [pow_add]
      ring
    rw [hsplit, Nat.mul_add_div (Nat.two_pow_pos _), Nat.div_eq_of_lt hF, add_zero]
  refine ⟨?_, ?_, ?_⟩
  · rw [pow_add, ← Nat.div_div_eq_div_mul, htop, mul_comm, Nat.mul_add_div (Nat.two_pow_pos _),
      Nat.div_eq_of_lt hE, add_zero, Nat.mod_eq_of_lt (Bool.toNat_lt negative)]
  · rw [htop, Nat.mul_comm, Nat.mul_add_mod, Nat.mod_eq_of_lt hE]
  · unfold word
    rw [pow_add, mul_comm (2 ^ b.t), ← mul_assoc, ← add_mul, mul_comm, Nat.mul_add_mod,
      Nat.mod_eq_of_lt hF]

theorem decode_word {negative : Bool} {E F : ℕ} (hE : E < 2 ^ b.k) (hF : F < 2 ^ b.t) :
    b.decode (b.word negative E F) = b.ofFields negative E F := by
  obtain ⟨hs, hE', hF'⟩ := word_fields negative hE hF
  unfold decode
  rw [hs, hE', hF']
  cases negative <;> rfl

/-- Every word is made of its fields. -/
theorem word_decode {n : ℕ} (hn : n < 2 ^ (b.t + b.k + 1)) :
    b.word (decide (n / 2 ^ (b.t + b.k) % 2 = 1)) (n / 2 ^ b.t % 2 ^ b.k) (n % 2 ^ b.t) = n := by
  have hsign : n / 2 ^ (b.t + b.k) < 2 := by
    rw [Nat.div_lt_iff_lt_mul (Nat.two_pow_pos _), mul_comm, ← pow_succ]
    exact hn
  have htoNat : (decide (n / 2 ^ (b.t + b.k) % 2 = 1)).toNat = n / 2 ^ (b.t + b.k) := by
    rw [Nat.mod_eq_of_lt hsign]
    rcases Nat.lt_succ_iff.mp hsign |>.lt_or_eq with h | h
    · rw [Nat.lt_one_iff.mp h]
      rfl
    · rw [h]
      rfl
  have houter := Nat.div_add_mod (n / 2 ^ b.t) (2 ^ b.k)
  have hinner := Nat.div_add_mod n (2 ^ b.t)
  rw [Nat.div_div_eq_div_mul, ← pow_add] at houter
  unfold word
  rw [htoNat]
  calc n / 2 ^ (b.t + b.k) * 2 ^ (b.t + b.k) + n / 2 ^ b.t % 2 ^ b.k * 2 ^ b.t + n % 2 ^ b.t
      = 2 ^ b.t * (2 ^ b.k * (n / 2 ^ (b.t + b.k)) + n / 2 ^ b.t % 2 ^ b.k) + n % 2 ^ b.t := by
        rw [pow_add]
        ring
    _ = n := by rw [houter, hinner]

/-! ## Data -/

/-- A finite datum is a canonical number, and not too large. -/
theorem decode_finite {n : ℕ} {negative : Bool} {m : ℕ} {e : ℤ}
    (h : b.decode n = .finite negative m e) : Canonical b.t b.low m e ∧ e ≤ b.high := by
  have hF : n % 2 ^ b.t < 2 ^ b.t := Nat.mod_lt _ (Nat.two_pow_pos _)
  have hE : n / 2 ^ b.t % 2 ^ b.k < 2 ^ b.k := Nat.mod_lt _ (Nat.two_pow_pos _)
  unfold decode ofFields at h
  have hpow : 2 ^ (b.t + 1) = 2 ^ b.t + 2 ^ b.t := by rw [pow_succ, mul_two]
  split at h
  · split at h <;> cases h
  · next hspecial =>
    have hle := exponent_lt_iff.mp (by omega : n / 2 ^ b.t % 2 ^ b.k < 2 ^ b.k - 1)
    split at h
    · cases h
      exact ⟨⟨⟨by omega, le_rfl⟩, Or.inr rfl⟩, b.low_le_high⟩
    · next hzero =>
      cases h
      refine ⟨⟨⟨by omega, ?_⟩, Or.inl (by omega)⟩, ?_⟩
      · unfold low
        omega
      · unfold high
        omega

/-- What stands for a number stands for one word only. -/
theorem ofFields_injective {s s' : Bool} {E E' F F' : ℕ} (hF : F < 2 ^ b.t) (hF' : F' < 2 ^ b.t)
    (hnan : b.ofFields s E F ≠ .nan) (h : b.ofFields s E F = b.ofFields s' E' F') :
    s = s' ∧ E = E' ∧ F = F' := by
  unfold ofFields at h hnan
  split at h
  · next hmax =>
    rw [if_pos hmax] at hnan
    split at h
    · next hzero =>
      split at h
      · next hmax' =>
        split at h
        · next hzero' =>
          cases h
          exact ⟨rfl, by omega, by omega⟩
        · cases h
      · split at h <;> cases h
    · next hzero =>
      rw [if_neg hzero] at hnan
      exact absurd rfl hnan
  · split at h
    · split at h
      · split at h <;> cases h
      · split at h
        · cases h
          exact ⟨rfl, by omega, rfl⟩
        · injection h with _ hsig _
          omega
    · split at h
      · split at h <;> cases h
      · split at h
        · injection h with _ hsig _
          omega
        · injection h with hsign hsig hexp
          exact ⟨hsign, by omega, by omega⟩

theorem decode_injective {n n' : ℕ} (hn : n < 2 ^ (b.t + b.k + 1))
    (hn' : n' < 2 ^ (b.t + b.k + 1)) (hnan : b.decode n ≠ .nan) (h : b.decode n = b.decode n') :
    n = n' := by
  obtain ⟨hs, hE, hF⟩ := ofFields_injective (Nat.mod_lt _ (Nat.two_pow_pos _))
    (Nat.mod_lt _ (Nat.two_pow_pos _)) hnan h
  rw [← word_decode hn, ← word_decode hn', hs, hE, hF]

/-! ## Rounding -/

/-- The datum of a rounded magnitude: beyond the largest exponent it is an infinity. -/
def bound (b : Interchange) (negative : Bool) (m : ℕ) (e : ℤ) : Datum :=
  if b.high < e then .infinity negative else .finite negative m e

/-- The word for a canonical number that is not too large. -/
theorem ofFields_of_canonical {m : ℕ} {e : ℤ} (negative : Bool) (h : Canonical b.t b.low m e)
    (hle : e ≤ b.high) :
    b.ofFields negative (if m < 2 ^ b.t then 0 else (e + b.t + b.bias).toNat) (m % 2 ^ b.t) =
      .finite negative m e := by
  have hbias := b.one_le_bias
  have hpow : 2 ^ (b.t + 1) = 2 ^ b.t + 2 ^ b.t := by rw [pow_succ, mul_two]
  have hk : 2 ^ 2 ≤ 2 ^ b.k := Nat.pow_le_pow_right (by omega) b.two_le_k
  by_cases hm : m < 2 ^ b.t
  · have he : e = b.low := h.full.resolve_left (by omega)
    rw [if_pos hm, ofFields, if_neg (by omega), if_pos rfl, Nat.mod_eq_of_lt hm, he]
  · have hexp := h.exp
    have hsig := h.sig
    unfold low at hexp
    unfold high at hle
    have hmod : m % 2 ^ b.t = m - 2 ^ b.t := by
      rw [Nat.mod_eq_sub_mod (by omega), Nat.mod_eq_of_lt (by omega)]
    have hlt : (e + b.t + b.bias).toNat < 2 ^ b.k - 1 := exponent_lt_iff.mpr (by omega)
    have hback : 2 ^ b.t + (m - 2 ^ b.t) = m := by omega
    rw [if_neg hm, ofFields, if_neg (by omega), if_neg (by omega), hmod, hback]
    congr 1
    omega

/-- `d` is the exact result rounded to nearest, ties to even. -/
def Rounds (b : Interchange) : Exact → Datum → Prop
  | .nan, d => d = .nan
  | .infinity negative, d => d = .infinity negative
  | .zero negative, d => d = .finite negative 0 b.low
  | .real v, d => ∃ m e, Nearest b.t b.low |v| m e ∧ d = b.bound (decide (v < 0)) m e

end Interchange

/-! ## Exact results -/

/-- A result with the sign it has if it is zero. -/
def Exact.number (negative : Bool) (v : ℚ) : Exact := if v = 0 then .zero negative else .real v

theorem Exact.number_zero (negative : Bool) : Exact.number negative 0 = .zero negative := if_pos rfl

theorem Exact.number_of_ne {negative : Bool} {v : ℚ} (hv : v ≠ 0) :
    Exact.number negative v = .real v := if_neg hv

namespace Datum

def neg : Datum → Datum
  | .nan => .nan
  | .infinity s => .infinity (!s)
  | .finite s m e => .finite (!s) m e

/-- A sum is a negative zero only if both operands are. -/
def add : Datum → Datum → Exact
  | .nan, _ | _, .nan => .nan
  | .infinity s, .infinity s' => if s = s' then .infinity s else .nan
  | .infinity s, .finite .. | .finite .., .infinity s => .infinity s
  | .finite s m e, .finite s' m' e' =>
      .number (s && s') (signed s (dyadic m e) + signed s' (dyadic m' e'))

def sub (x y : Datum) : Exact := x.add y.neg

def mul : Datum → Datum → Exact
  | .nan, _ | _, .nan => .nan
  | .infinity s, .infinity s' => .infinity (s ^^ s')
  | .infinity s, .finite s' m _ | .finite s m _, .infinity s' =>
      if m = 0 then .nan else .infinity (s ^^ s')
  | .finite s m e, .finite s' m' e' =>
      .number (s ^^ s') (signed s (dyadic m e) * signed s' (dyadic m' e'))

def div : Datum → Datum → Exact
  | .nan, _ | _, .nan | .infinity _, .infinity _ => .nan
  | .infinity s, .finite s' .. => .infinity (s ^^ s')
  | .finite s .., .infinity s' => .zero (s ^^ s')
  | .finite s m e, .finite s' m' e' =>
      if m' = 0 then if m = 0 then .nan else .infinity (s ^^ s')
      else .number (s ^^ s') (signed s (dyadic m e) / signed s' (dyadic m' e'))

end Datum

end Whale
