import Mathlib.Data.List.Chain
import Whale.Lib.Bytes

set_option autoImplicit false

/-! # Regions of a byte string

What a slice of a patched list is, and frames: two lists that differ at most in a set of
positions have the same slices outside it (`SameOutside`). -/

namespace Whale

variable {α : Type}

/-! ## Slices -/

variable {a n : Nat}

theorem slice_congr {xs ys : List α} {a b n : Nat} (h : ∀ i < n, xs[a + i]? = ys[b + i]?) :
    slice xs a n = slice ys b n := by
  apply List.ext_getElem?
  intro i
  rw [getElem?_slice, getElem?_slice]
  by_cases hi : i < n
  · rw [if_pos hi, if_pos hi, h i hi]
  · rw [if_neg hi, if_neg hi]

/-- A slice is the list that agrees with it everywhere. -/
theorem slice_eq {xs ys : List α} (h : ∀ i < ys.length, xs[a + i]? = ys[i]?) :
    slice xs a ys.length = ys := by
  apply List.ext_getElem?
  intro i
  rw [getElem?_slice]
  by_cases hi : i < ys.length
  · rw [if_pos hi, h i hi]
  · rw [if_neg hi, List.getElem?_eq_none (by omega)]

theorem slice_slice {xs : List α} {a n b m : Nat} (h : b + m ≤ n) :
    slice (slice xs a n) b m = slice xs (a + b) m := by
  refine slice_congr fun i hi => ?_
  rw [getElem?_slice, if_pos (by omega), Nat.add_assoc]

@[simp] theorem slice_zero (xs : List α) (a : Nat) : slice xs a 0 = [] := List.take_zero

theorem slice_zero_length (xs : List α) : slice xs 0 xs.length = xs := by
  rw [slice, List.drop_zero, List.take_length]

theorem slice_append_left {xs ys : List α} (h : a + n ≤ xs.length) :
    slice (xs ++ ys) a n = slice xs a n := by
  refine slice_congr fun i hi => ?_
  rw [List.getElem?_append_left (by omega)]

variable {s t : List α}

theorem slice_append_right : slice (s ++ t) (s.length + a) n = slice t a n := by
  refine slice_congr fun i hi => ?_
  rw [List.getElem?_append_right (by omega)]
  congr 1
  omega

theorem slice_add (xs : List α) (a n m : Nat) :
    slice xs a (n + m) = slice xs a n ++ slice xs (a + n) m := by
  unfold slice
  rw [List.take_add, List.drop_drop]

/-- A slice is the slices of equal length that it consists of. -/
theorem slice_chunks (xs : List α) (a n m : Nat) :
    slice xs a (m * n) = ((List.range m).map fun i => slice xs (a + i * n) n).flatten := by
  induction m with
  | zero =>
      rw [Nat.zero_mul]
      rfl
  | succ m ih =>
      rw [List.range_succ, List.map_append, List.flatten_append, ← ih, Nat.succ_mul, slice_add]
      simp

theorem getElem?_slice_of_lt {a n i : Nat} (h : i < n) : (slice s a n)[i]? = s[a + i]? := by
  rw [getElem?_slice, if_pos h]

/-! ## Slices of a patch -/

theorem slice_patch_self {k : Nat} (h : k + t.length ≤ s.length) :
    slice (patch s k t) k t.length = t :=
  slice_eq fun _ hi => getElem?_patch_inside h hi

theorem slice_patch_outside {xs ys : List α} {start a n : Nat}
    (h : start + ys.length ≤ xs.length) (hout : a + n ≤ start ∨ start + ys.length ≤ a) :
    slice (patch xs start ys) a n = slice xs a n :=
  slice_congr fun i hi => getElem?_patch_outside h (by omega)

/-- A patch inside a region is a patch of the region. -/
theorem slice_patch_inside {xs ys : List α} {a n k : Nat} (h : a + n ≤ xs.length)
    (hk : k + ys.length ≤ n) :
    slice (patch xs (a + k) ys) a n = patch (slice xs a n) k ys := by
  have hlength : (slice xs a n).length = n := length_slice h
  apply List.ext_getElem?
  intro i
  rw [getElem?_slice, getElem?_patch (by omega), getElem?_patch (by omega), getElem?_slice]
  by_cases hi : i < n
  · rw [if_pos hi, if_pos hi]
    by_cases hin : k ≤ i ∧ i < k + ys.length
    · rw [if_pos (by omega), if_pos hin]
      congr 1
      omega
    · rw [if_neg (by omega), if_neg hin]
  · rw [if_neg hi, if_neg (by omega), if_neg hi]

theorem patch_zeros (bs : List UInt8) :
    patch (List.replicate n 0) 0 bs = bs ++ List.replicate (n - bs.length) 0 := by
  unfold patch
  rw [List.take_zero, List.nil_append, Nat.zero_add, List.drop_replicate]

/-! ## Frames -/

/-- The lists are equally long and agree on every position that was not touched. -/
structure SameOutside (touched : Nat → Prop) (xs ys : List α) : Prop where
  length : ys.length = xs.length
  agree : ∀ k, ¬ touched k → ys[k]? = xs[k]?

namespace SameOutside

variable {touched : Nat → Prop} {xs ys zs : List α}

theorem refl (touched : Nat → Prop) (xs : List α) : SameOutside touched xs xs :=
  ⟨rfl, fun _ _ => rfl⟩

theorem mono {p : Nat → Prop} (h : SameOutside touched xs ys) (hsub : ∀ k, touched k → p k) :
    SameOutside p xs ys :=
  ⟨h.length, fun k hk => h.agree k fun hin => hk (hsub k hin)⟩

theorem trans (h : SameOutside touched xs ys) (h' : SameOutside touched ys zs) :
    SameOutside touched xs zs :=
  ⟨h'.length.trans h.length, fun k hk => (h'.agree k hk).trans (h.agree k hk)⟩

theorem patch {k : Nat} (h : k + t.length ≤ s.length) :
    SameOutside (fun i => k ≤ i ∧ i < k + t.length) s (patch s k t) :=
  ⟨length_patch h, fun i hi => getElem?_patch_outside h (by omega)⟩

theorem slice (h : SameOutside touched xs ys) (hout : ∀ k, a ≤ k → k < a + n → ¬ touched k) :
    slice ys a n = slice xs a n :=
  slice_congr fun i hi => h.agree (a + i) (hout _ (Nat.le_add_right _ _) (by omega))

end SameOutside

/-! ## What stands at a position -/

/-- From position `start` on stands `r`. -/
def Holds (xs : List α) (start : Nat) (r : List α) : Prop :=
  start + r.length ≤ xs.length ∧ slice xs start r.length = r

namespace Holds

variable {xs ys r : List α} {start k : Nat}

theorem patch_self (h : start + r.length ≤ xs.length) : Holds (patch xs start r) start r :=
  ⟨by rw [length_patch h]; exact h, slice_patch_self h⟩

/-- A patch inside `r` patches `r`. -/
theorem patch (h : Holds xs start r) (hk : k + t.length ≤ r.length) :
    Holds (Whale.patch xs (start + k) t) start (Whale.patch r k t) := by
  have hlength : (Whale.patch r k t).length = r.length := length_patch hk
  have hbound := h.1
  constructor
  · rw [hlength, length_patch (by omega)]
    exact hbound
  · rw [hlength, slice_patch_inside hbound hk, h.2]

theorem frame {touched : Nat → Prop} (h : Holds xs start r) (hframe : SameOutside touched xs ys)
    (hout : ∀ k, start ≤ k → k < start + r.length → ¬ touched k) : Holds ys start r :=
  ⟨by rw [hframe.length]; exact h.1, by rw [hframe.slice hout]; exact h.2⟩

theorem slice (h : Holds xs start r) (hle : a + n ≤ r.length) :
    slice xs (start + a) n = slice r a n := by
  rw [← slice_slice hle, h.2]

theorem getElem? (h : Holds xs start r) (hk : k < r.length) : xs[start + k]? = r[k]? := by
  have hget := getElem?_slice_of_lt (s := xs) (a := start) hk
  rw [h.2] at hget
  exact hget.symm

theorem replicate {a : α} {n m : Nat} (h : start + n ≤ m) :
    Holds (List.replicate m a) start (List.replicate n a) := by
  constructor
  · rw [List.length_replicate, List.length_replicate]
    exact h
  · refine slice_eq fun i hi => ?_
    rw [List.length_replicate] at hi
    rw [List.getElem?_replicate, List.getElem?_replicate, if_pos (by omega), if_pos hi]

theorem replicate_part {a : α} {n m i : Nat} (h : Holds xs start (List.replicate m a))
    (hle : i + n ≤ m) : Holds xs (start + i) (List.replicate n a) := by
  have hlength : (List.replicate m a).length = m := List.length_replicate
  have hbound := h.1
  rw [hlength] at hbound
  constructor
  · rw [List.length_replicate]
    omega
  · refine slice_eq fun k hk => ?_
    rw [List.length_replicate] at hk
    rw [Nat.add_assoc, h.getElem? (by omega), List.getElem?_replicate, List.getElem?_replicate,
      if_pos (by omega), if_pos hk]

end Holds

/-! ## Numbers in place -/

/-- The number of `n` bytes at a position. -/
def field (bs : List UInt8) (at' n : Nat) : Nat := leValue (slice bs at' n)

theorem Holds.field {bs : List UInt8} {k n v : Nat} (h : Holds bs k (leBytes n v))
    (hv : v < 256 ^ n) : field bs k n = v := by
  have hslice := h.2
  rw [length_leBytes] at hslice
  rw [Whale.field, hslice, leValue_leBytes_of_lt hv]

theorem word_of_slice {bs : List UInt8} {w : BitVec 32}
    (h : slice bs 0 4 = leBytes 4 w.toNat) : BitVec.ofNat 32 (leValue (slice bs 0 4)) = w := by
  have hlt : w.toNat < 256 ^ 4 := w.isLt
  rw [h, leValue_leBytes, Nat.mod_eq_of_lt hlt, BitVec.ofNat_toNat, BitVec.setWidth_eq]

theorem doubleword_of_slice {bs : List UInt8} {w : BitVec 64}
    (h : slice bs 0 8 = leBytes 8 w.toNat) : BitVec.ofNat 64 (leValue (slice bs 0 8)) = w := by
  have hlt : w.toNat < 256 ^ 8 := w.isLt
  rw [h, leValue_leBytes, Nat.mod_eq_of_lt hlt, BitVec.ofNat_toNat, BitVec.setWidth_eq]

/-! ## Several writes -/

/-- Put every part at its position, one after the other. -/
def writes (xs : List α) (ws : List (Nat × List α)) : List α :=
  ws.foldl (fun xs w => patch xs w.1 w.2) xs

/-- A part ends before another one starts. -/
def Precedes (a b : Nat × List α) : Prop := a.1 + a.2.length ≤ b.1

instance : IsTrans (Nat × List α) Precedes :=
  ⟨fun a b c h₁ h₂ => by unfold Precedes at *; omega⟩

/-- Each part ends before the next one starts. -/
def InOrder (ws : List (Nat × List α)) : Prop := ws.IsChain Precedes

/-- A position of one of the parts. -/
def Written (ws : List (Nat × List α)) (k : Nat) : Prop :=
  ∃ w ∈ ws, w.1 ≤ k ∧ k < w.1 + w.2.length

theorem frame_writes {ws : List (Nat × List α)} (h : ∀ w ∈ ws, w.1 + w.2.length ≤ s.length) :
    SameOutside (Written ws) s (writes s ws) := by
  induction ws generalizing s with
  | nil => exact SameOutside.refl _ _
  | cons w ws ih =>
      have hpatch := SameOutside.patch (h w List.mem_cons_self)
      have hrest := @ih (patch s w.1 w.2) fun w' hw' => by
        rw [hpatch.length]
        exact h w' (List.mem_cons_of_mem _ hw')
      refine (hpatch.mono fun k hk => ?_).trans (hrest.mono fun k hk => ?_)
      · exact ⟨w, List.mem_cons_self, hk⟩
      · obtain ⟨w', hw', hk'⟩ := hk
        exact ⟨w', List.mem_cons_of_mem _ hw', hk'⟩

/-- Parts in ascending order all stand in the result. -/
theorem holds_writes {ws : List (Nat × List α)} (h : ∀ w ∈ ws, w.1 + w.2.length ≤ s.length)
    (horder : InOrder ws) : ∀ w ∈ ws, Holds (writes s ws) w.1 w.2 := by
  induction ws generalizing s with
  | nil => exact fun w hw => nomatch hw
  | cons v ws ih =>
      have hlength := length_patch (h v List.mem_cons_self)
      have hfits : ∀ w ∈ ws, w.1 + w.2.length ≤ (patch s v.1 v.2).length := fun w hw => by
        rw [hlength]
        exact h w (List.mem_cons_of_mem _ hw)
      intro w hw
      rcases List.mem_cons.mp hw with rfl | hw
      · refine (Holds.patch_self (h w List.mem_cons_self)).frame (frame_writes hfits) ?_
        rintro k h₁ h₂ ⟨w', hw', h₃, h₄⟩
        have hle : w.1 + w.2.length ≤ w'.1 := horder.rel_cons hw'
        omega
      · exact ih hfits horder.tail w hw

end Whale
