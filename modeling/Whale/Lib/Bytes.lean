import Mathlib.Data.Nat.Bitwise
import Mathlib.Tactic.Common
import Whale.Lib.Word

set_option autoImplicit false

/-! # Byte strings

Little-endian numbers, replacing a part of a list in place, and rounding up to an alignment.
-/

namespace Whale

/-! ## Little-endian numbers -/

/-- The `n` low bytes of `v`, least significant byte first. -/
def leBytes : Nat → Nat → List UInt8
  | 0, _ => []
  | n + 1, v => UInt8.ofNat v :: leBytes n (v / 256)

/-- The number a byte string denotes, least significant byte first. -/
def leValue : List UInt8 → Nat
  | [] => 0
  | b :: bs => b.toNat + 256 * leValue bs

@[simp] theorem length_leBytes (n v : Nat) : (leBytes n v).length = n := by
  induction n generalizing v with
  | zero => rfl
  | succ n ih => simp [leBytes, ih]

theorem leValue_leBytes (n v : Nat) : leValue (leBytes n v) = v % 256 ^ n := by
  induction n generalizing v with
  | zero => simp [leBytes, leValue, Nat.mod_one]
  | succ n ih =>
      have hb : (UInt8.ofNat v).toNat = v % 256 := by simp
      rw [leBytes, leValue, ih, hb, Nat.pow_succ, Nat.mul_comm (256 ^ n) 256, Nat.mod_mul]

theorem leValue_leBytes_of_lt {n v : Nat} (h : v < 256 ^ n) : leValue (leBytes n v) = v := by
  rw [leValue_leBytes, Nat.mod_eq_of_lt h]

theorem leValue_lt (bs : List UInt8) : leValue bs < 256 ^ bs.length := by
  induction bs with
  | nil => simp [leValue]
  | cons b bs ih =>
      have hb : b.toNat < 256 := b.toNat_lt
      rw [leValue, List.length_cons, Nat.pow_succ]
      omega

theorem leBytes_leValue (bs : List UInt8) : leBytes bs.length (leValue bs) = bs := by
  induction bs with
  | nil => rfl
  | cons b bs ih =>
      have hb : b.toNat < 256 := b.toNat_lt
      have hdiv : (b.toNat + 256 * leValue bs) / 256 = leValue bs := by omega
      rw [leValue, List.length_cons, leBytes, hdiv, ih]
      congr 1
      apply UInt8.toNat.inj
      simp only [UInt8.toNat_ofNat']
      omega

theorem leValue_injective {as bs : List UInt8} (hlen : as.length = bs.length)
    (h : leValue as = leValue bs) : as = bs := by
  rw [← leBytes_leValue as, ← leBytes_leValue bs, hlen, h]

theorem take_leBytes {n k : Nat} (v : Nat) (h : k ≤ n) : (leBytes n v).take k = leBytes k v := by
  induction n generalizing k v with
  | zero =>
      obtain rfl : k = 0 := by omega
      rfl
  | succ n ih =>
      cases k with
      | zero => rfl
      | succ k =>
          show UInt8.ofNat v :: (leBytes n (v / 256)).take k = _
          rw [ih _ (by omega)]
          rfl

theorem getElem?_leBytes {n i : Nat} (v : Nat) (h : i < n) :
    (leBytes n v)[i]? = some (UInt8.ofNat (v / 256 ^ i)) := by
  induction n generalizing v i with
  | zero => omega
  | succ n ih =>
      cases i with
      | zero => simp [leBytes]
      | succ i =>
          have hdiv : v / 256 / 256 ^ i = v / 256 ^ (i + 1) := by
            rw [Nat.div_div_eq_div_mul, Nat.pow_succ, Nat.mul_comm]
          rw [leBytes, List.getElem?_cons_succ, ih (v / 256) (by omega), hdiv]

/-! ## Parts of a list -/

variable {α : Type}

/-- The `n` elements of `xs` from position `start` on. -/
def slice (xs : List α) (start n : Nat) : List α := (xs.drop start).take n

/-- `xs` with the elements from position `start` on replaced by `ys`. -/
def patch (xs : List α) (start : Nat) (ys : List α) : List α :=
  xs.take start ++ ys ++ xs.drop (start + ys.length)

theorem length_slice {xs : List α} {start n : Nat} (h : start + n ≤ xs.length) :
    (slice xs start n).length = n := by
  simp only [slice, List.length_take, List.length_drop]
  omega

theorem getElem?_slice (xs : List α) (start n i : Nat) :
    (slice xs start n)[i]? = if i < n then xs[start + i]? else none := by
  simp only [slice, List.getElem?_take, List.getElem?_drop]

theorem length_patch {xs ys : List α} {start : Nat} (h : start + ys.length ≤ xs.length) :
    (patch xs start ys).length = xs.length := by
  simp only [patch, List.length_append, List.length_take, List.length_drop]
  omega

theorem getElem?_patch {xs ys : List α} {start : Nat} (h : start + ys.length ≤ xs.length)
    (i : Nat) :
    (patch xs start ys)[i]? =
      if start ≤ i ∧ i < start + ys.length then ys[i - start]? else xs[i]? := by
  have htake : (xs.take start).length = start := by
    rw [List.length_take]
    omega
  rw [patch, List.append_assoc]
  by_cases h₁ : i < start
  · rw [List.getElem?_append_left (by omega), List.getElem?_take, if_pos h₁,
      if_neg (by omega)]
  · rw [List.getElem?_append_right (by omega), htake]
    by_cases h₂ : i < start + ys.length
    · rw [List.getElem?_append_left (by omega), if_pos (by omega)]
    · rw [List.getElem?_append_right (by omega), if_neg (by omega), List.getElem?_drop]
      congr 1
      omega

theorem getElem?_patch_inside {xs ys : List α} {start i : Nat}
    (h : start + ys.length ≤ xs.length) (hi : i < ys.length) :
    (patch xs start ys)[start + i]? = ys[i]? := by
  rw [getElem?_patch h, if_pos (by omega), Nat.add_sub_cancel_left]

theorem getElem?_patch_outside {xs ys : List α} {start i : Nat}
    (h : start + ys.length ≤ xs.length) (hi : i < start ∨ start + ys.length ≤ i) :
    (patch xs start ys)[i]? = xs[i]? := by
  rw [getElem?_patch h, if_neg (by omega)]

/-! ## Alignment -/

/-- `a & !(align - 1)`. -/
def alignDown (a align : Nat) : Nat := a - (a &&& (align - 1))

theorem alignDown_two_pow (a k : Nat) : alignDown a (2 ^ k) = a - a % 2 ^ k := by
  rw [alignDown, Nat.and_two_pow_sub_one_eq_mod]

theorem two_pow_dvd_alignDown (a k : Nat) : 2 ^ k ∣ alignDown a (2 ^ k) := by
  rw [alignDown_two_pow]
  exact Nat.dvd_sub_mod a

/-- `u64::wrapping_neg`. -/
def wrappingNeg (a : Nat) : Nat := (wordBound - a % wordBound) % wordBound

/-- Round `a` up to a multiple of the power of two `align`, unless that leaves the words. -/
def checkedAlignUp (a align : Nat) : Option Nat :=
  checkedAdd a (wrappingNeg a &&& (align - 1))

/-- Rounding up to a power of two gives the next multiple. -/
theorem checkedAlignUp_two_pow {a k r : Nat} (hk : k ≤ 64)
    (h : checkedAlignUp a (2 ^ k) = some r) :
    a ≤ r ∧ r < a + 2 ^ k ∧ 2 ^ k ∣ r ∧ r < wordBound := by
  unfold checkedAlignUp at h
  rw [Nat.and_two_pow_sub_one_eq_mod, checkedAdd_eq_some] at h
  obtain ⟨rfl, hbound⟩ := h
  have hpos : 0 < 2 ^ k := Nat.two_pow_pos k
  have hmod : wrappingNeg a % 2 ^ k < 2 ^ k := Nat.mod_lt _ hpos
  refine ⟨Nat.le_add_right _ _, by omega, ?_, hbound⟩
  have ha : a < wordBound := by omega
  have hword : 2 ^ k ∣ wordBound := pow_dvd_pow 2 hk
  rcases Nat.eq_zero_or_pos a with rfl | hzero
  · simp [wrappingNeg, wordBound]
  · have hneg : wrappingNeg a = wordBound - a := by
      unfold wrappingNeg
      rw [Nat.mod_eq_of_lt ha, Nat.mod_eq_of_lt (by omega)]
    have hsum : (a + (wordBound - a)) % 2 ^ k = 0 := by
      rw [Nat.add_sub_cancel' ha.le]
      exact Nat.mod_eq_zero_of_dvd hword
    refine Nat.dvd_of_mod_eq_zero ?_
    rw [hneg, Nat.add_mod_mod]
    exact hsum

/-- The least multiple of `align` that is not below `a`. -/
def roundUp (a align : Nat) : Nat := (a + align - 1) / align * align

theorem dvd_roundUp (a align : Nat) : align ∣ roundUp a align := Nat.dvd_mul_left _ _

theorem le_roundUp {align : Nat} (h : 0 < align) (a : Nat) : a ≤ roundUp a align := by
  unfold roundUp
  have hdiv := Nat.div_add_mod (a + align - 1) align
  have hlt := Nat.mod_lt (a + align - 1) h
  rw [Nat.mul_comm]
  omega

/-- A multiple less than one step above `a` is the least one. -/
theorem roundUp_eq {a align r : Nat} (hle : a ≤ r) (hlt : r < a + align) (hdvd : align ∣ r) :
    roundUp a align = r := by
  obtain ⟨q, rfl⟩ := hdvd
  have hpos : 0 < align := by omega
  have hdiv : (a + align - 1) / align = q := by
    apply Nat.div_eq_of_lt_le
    · rw [Nat.mul_comm]
      omega
    · rw [Nat.mul_comm, Nat.mul_succ]
      omega
  rw [roundUp, hdiv, Nat.mul_comm]

/-- Rounding up to a power of two is exact where it does not leave the words. -/
theorem checkedAlignUp_iff {a k r : Nat} (hk : k ≤ 64) :
    checkedAlignUp a (2 ^ k) = some r ↔ roundUp a (2 ^ k) = r ∧ r < wordBound := by
  have hpos : 0 < 2 ^ k := Nat.two_pow_pos k
  constructor
  · intro h
    obtain ⟨hle, hlt, hdvd, hbound⟩ := checkedAlignUp_two_pow hk h
    exact ⟨roundUp_eq hle hlt hdvd, hbound⟩
  · rintro ⟨rfl, hbound⟩
    have ha : a < wordBound := (le_roundUp hpos a).trans_lt hbound
    obtain ⟨m, hm⟩ : 2 ^ k ∣ wordBound := pow_dvd_pow 2 hk
    have hneg : (a + wrappingNeg a % 2 ^ k) % 2 ^ k = 0 := by
      rw [Nat.add_mod_mod]
      rcases Nat.eq_zero_or_pos a with rfl | hzero
      · simp [wrappingNeg]
      · have hsum : a + wrappingNeg a = wordBound := by
          unfold wrappingNeg
          rw [Nat.mod_eq_of_lt ha, Nat.mod_eq_of_lt (by omega)]
          omega
        rw [hsum, hm, Nat.mul_mod_right]
    have hlt := Nat.mod_lt (wrappingNeg a) hpos
    have hround := roundUp_eq (Nat.le_add_right a _) (by omega) (Nat.dvd_of_mod_eq_zero hneg)
    unfold checkedAlignUp
    rw [Nat.and_two_pow_sub_one_eq_mod, checkedAdd_eq_some]
    exact ⟨hround.symm, hbound⟩

end Whale

/-! # Slices of an input

A part of a byte string by its place. Parts are only taken of parts, so that each of them lies in
the input. -/

namespace Whale

structure Slice where
  start : Nat
  length : Nat
  deriving DecidableEq

namespace Slice

/-- The whole input. -/
def whole (input : List UInt8) : Slice := ⟨0, input.length⟩

def stop (s : Slice) : Nat := s.start + s.length

/-- What the slice holds. -/
def bytes (s : Slice) (input : List UInt8) : List UInt8 := slice input s.start s.length

/-- The part from `lo` up to `hi`, if there is one. -/
def get (s : Slice) (lo hi : Nat) : Option Slice :=
  if lo ≤ hi ∧ hi ≤ s.length then some ⟨s.start + lo, hi - lo⟩ else none

/-- The slice lies in the input. -/
def Inside (s : Slice) (input : List UInt8) : Prop := s.stop ≤ input.length

theorem whole_inside (input : List UInt8) : (whole input).Inside input := by
  simp [Inside, stop, whole]

theorem get_eq_some {s t : Slice} {lo hi : Nat} :
    s.get lo hi = some t ↔ lo ≤ hi ∧ hi ≤ s.length ∧ t = ⟨s.start + lo, hi - lo⟩ := by
  unfold get
  split
  · rename_i h
    rw [Option.some.injEq]
    exact ⟨fun ht => ⟨h.1, h.2, ht.symm⟩, fun ht => ht.2.2.symm⟩
  · rename_i h
    exact ⟨nofun, fun ht => absurd ⟨ht.1, ht.2.1⟩ h⟩

theorem get_within {s t : Slice} {lo hi : Nat} (h : s.get lo hi = some t) :
    s.start ≤ t.start ∧ t.stop ≤ s.stop := by
  obtain ⟨hle, hlength, rfl⟩ := get_eq_some.mp h
  unfold stop
  simp only
  omega

theorem get_inside {input : List UInt8} {s t : Slice} {lo hi : Nat} (hs : s.Inside input)
    (h : s.get lo hi = some t) : t.Inside input := (get_within h).2.trans hs

theorem length_bytes {input : List UInt8} {s : Slice} (h : s.Inside input) :
    (s.bytes input).length = s.length := length_slice h

/-- A slice that ends before another one begins. -/
def Before (s t : Slice) : Prop := s.stop ≤ t.start

theorem bytes_middle {pre mid post : List UInt8} {s : Slice} (hstart : s.start = pre.length)
    (hlength : s.length = mid.length) : s.bytes (pre ++ (mid ++ post)) = mid := by
  unfold bytes slice
  rw [hstart, hlength, List.drop_left, List.take_left]

end Slice

end Whale
