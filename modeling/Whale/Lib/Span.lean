import Whale.Lib.Bytes

set_option autoImplicit false

/-! # Spans in ascending order

A span is a start and a length. `Ascending lo spans hi` says that the spans follow one another
between `lo` and `hi`, with gaps allowed: such spans are disjoint, and a list of patches with
ascending spans can be read back patch by patch (`getElem?_patchAll`). -/

namespace Whale

def Ascending : Nat → List (Nat × Nat) → Nat → Prop
  | lo, [], hi => lo ≤ hi
  | lo, s :: spans, hi => lo ≤ s.1 ∧ Ascending (s.1 + s.2) spans hi

namespace Ascending

variable {lo mid hi : Nat} {xs ys : List (Nat × Nat)}

theorem le (h : Ascending lo xs hi) : lo ≤ hi := by
  induction xs generalizing lo with
  | nil => exact h
  | cons s xs ih =>
      have hrest := ih h.2
      have hstart := h.1
      omega

theorem mono (h : Ascending lo xs hi) {lo' hi' : Nat} (hlo : lo' ≤ lo) (hhi : hi ≤ hi') :
    Ascending lo' xs hi' := by
  induction xs generalizing lo lo' with
  | nil => exact hlo.trans (Nat.le_trans h hhi)
  | cons s xs ih => exact ⟨hlo.trans h.1, ih h.2 le_rfl⟩

theorem append (hx : Ascending lo xs mid) (hy : Ascending mid ys hi) :
    Ascending lo (xs ++ ys) hi := by
  induction xs generalizing lo with
  | nil => exact hy.mono hx le_rfl
  | cons s xs ih => exact ⟨hx.1, ih hx.2⟩

theorem mem (h : Ascending lo xs hi) {s : Nat × Nat} (hs : s ∈ xs) : lo ≤ s.1 ∧ s.1 + s.2 ≤ hi := by
  induction xs generalizing lo with
  | nil => cases hs
  | cons t xs ih =>
      rcases List.mem_cons.mp hs with rfl | hs
      · exact ⟨h.1, h.2.le⟩
      · have hrest := ih h.2 hs
        have hstart := h.1
        omega

theorem pairwise (h : Ascending lo xs hi) : xs.Pairwise fun s t => s.1 + s.2 ≤ t.1 := by
  induction xs generalizing lo with
  | nil => exact List.Pairwise.nil
  | cons s xs ih =>
      refine List.Pairwise.cons (fun t ht => ?_) (ih h.2)
      exact (h.2.mem ht).1

end Ascending

/-! ## Patches -/

variable {α : Type}

/-- Make all patches, one after the other. -/
def patchAll (xs : List α) (patches : List (Nat × List α)) : List α :=
  patches.foldl (fun xs p => patch xs p.1 p.2) xs

/-- The spans of patches. -/
def patchSpans (patches : List (Nat × List α)) : List (Nat × Nat) :=
  patches.map fun p => (p.1, p.2.length)

theorem length_patchAll {patches : List (Nat × List α)} (xs : List α)
    (h : ∀ p ∈ patches, p.1 + p.2.length ≤ xs.length) :
    (patchAll xs patches).length = xs.length := by
  induction patches generalizing xs with
  | nil => rfl
  | cons p patches ih =>
      have hlen : (patch xs p.1 p.2).length = xs.length :=
        length_patch (h p List.mem_cons_self)
      show (patchAll (patch xs p.1 p.2) patches).length = xs.length
      rw [ih, hlen]
      intro q hq
      rw [hlen]
      exact h q (List.mem_cons_of_mem p hq)

theorem getElem?_patchAll_outside {patches : List (Nat × List α)} (xs : List α)
    (h : ∀ p ∈ patches, p.1 + p.2.length ≤ xs.length) {i : Nat}
    (hi : ∀ p ∈ patches, i < p.1 ∨ p.1 + p.2.length ≤ i) :
    (patchAll xs patches)[i]? = xs[i]? := by
  induction patches generalizing xs with
  | nil => rfl
  | cons p patches ih =>
      have hp := h p List.mem_cons_self
      show (patchAll (patch xs p.1 p.2) patches)[i]? = xs[i]?
      rw [ih]
      · exact getElem?_patch_outside hp (hi p List.mem_cons_self)
      · intro q hq
        rw [length_patch hp]
        exact h q (List.mem_cons_of_mem p hq)
      · exact fun q hq => hi q (List.mem_cons_of_mem p hq)

theorem getElem?_patchAll {patches : List (Nat × List α)} {lo : Nat} (xs : List α)
    (h : Ascending lo (patchSpans patches) xs.length) {p : Nat × List α} (hp : p ∈ patches)
    {i : Nat} (hi : i < p.2.length) : (patchAll xs patches)[p.1 + i]? = p.2[i]? := by
  have hrange : ∀ {lo} {patches : List (Nat × List α)} {n},
      Ascending lo (patchSpans patches) n → ∀ q ∈ patches, lo ≤ q.1 ∧ q.1 + q.2.length ≤ n :=
    fun h q hq => h.mem (List.mem_map_of_mem hq)
  induction patches generalizing xs lo with
  | nil => cases hp
  | cons q patches ih =>
      have hq := (hrange h q List.mem_cons_self).2
      have hlen : (patch xs q.1 q.2).length = xs.length := length_patch hq
      have hrest : Ascending (q.1 + q.2.length) (patchSpans patches) (patch xs q.1 q.2).length := by
        rw [hlen]
        exact h.2
      show (patchAll (patch xs q.1 q.2) patches)[p.1 + i]? = p.2[i]?
      rcases List.mem_cons.mp hp with rfl | hp
      · -- The later patches lie behind this one.
        rw [getElem?_patchAll_outside, getElem?_patch_inside hq hi]
        · exact fun r hr => (hrange hrest r hr).2
        · intro r hr
          have hr := (hrange hrest r hr).1
          exact Or.inl (by omega)
      · exact ih _ hrest hp

/-- A number among ascending patches is read back. -/
theorem leValue_slice_patchAll {patches : List (Nat × List UInt8)} {lo pos n v : Nat}
    (xs : List UInt8) (h : Ascending lo (patchSpans patches) xs.length)
    (hp : (pos, leBytes n v) ∈ patches) (hv : v < 256 ^ n) :
    leValue (slice (patchAll xs patches) pos n) = v := by
  have hslice : slice (patchAll xs patches) pos n = leBytes n v := by
    refine List.ext_getElem? fun i => ?_
    rw [getElem?_slice]
    by_cases hi : i < n
    · rw [if_pos hi]
      exact getElem?_patchAll xs h hp (by rw [length_leBytes]; exact hi)
    · rw [if_neg hi, List.getElem?_eq_none (by rw [length_leBytes]; omega)]
  rw [hslice, leValue_leBytes, Nat.mod_eq_of_lt hv]

end Whale
