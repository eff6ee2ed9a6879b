import Mathlib.Algebra.Order.BigOperators.Group.List
import Mathlib.Algebra.Order.Ring.Int
import Mathlib.Algebra.Order.Ring.Nat
import Mathlib.Tactic.Common

set_option autoImplicit false

/-! # Sizes that settle

Items have full sizes, and flexible items may have a short one instead. What decides between the
two need not be monotone: an item that was short and has to grow is marked, and a marked item has
its full size from then on. Each size changes twice at most, so the sizes settle. -/

namespace Whale

structure Sizing where
  count : Nat
  flexible : Nat → Bool
  full : Nat → Nat
  short : Nat

namespace Sizing

/-- The sizes of the items, and which of them are marked. -/
structure State where
  size : Nat → Nat
  marked : Nat → Bool

variable (z : Sizing) {s s' : State}

/-- An item has its full size, or it is short and not marked. -/
def Allowed (size : Nat) (marked : Bool) (i : Nat) : Prop :=
  size = z.full i ∨ (z.flexible i = true ∧ size = z.short ∧ z.short < z.full i ∧ marked = false)

/-- All sizes are chosen again, and items that grow are marked. -/
structure Step (s s' : State) : Prop where
  allowed : ∀ i < z.count, z.Allowed (s'.size i) (s.marked i) i
  keeps : ∀ i < z.count, s.marked i = true → s'.marked i = true
  marks : ∀ i < z.count, z.flexible i = true → s.size i = z.short → z.short < s'.size i →
    s'.marked i = true
  grown : ∀ i < z.count, s'.marked i = true → s.marked i = true ∨ z.short < s'.size i

def Valid (s : State) : Prop := ∀ i < z.count, z.Allowed (s.size i) (s.marked i) i

/-- How often the size of a flexible item can still change. -/
def remaining (s : State) (i : Nat) : Nat :=
  if z.flexible i = true then
    if s.marked i = true then 0 else if s.size i = z.short then 1 else 2
  else 0

def budget (s : State) : Nat := ((List.range z.count).map (z.remaining s)).sum

variable {z}

theorem Step.valid (h : z.Step s s') : z.Valid s' := by
  intro i hi
  rcases h.allowed i hi with hfull | ⟨hflexible, hshort, hlt, hunmarked⟩
  · exact .inl hfull
  · refine .inr ⟨hflexible, hshort, hlt, ?_⟩
    rw [Bool.eq_false_iff]
    intro hmarked
    rcases h.grown i hi hmarked with hold | hgrown
    · rw [hunmarked] at hold
      cases hold
    · omega

/-- A step never adds changes, and it uses one up where a size changes. -/
theorem Step.remaining (hs : z.Valid s) (h : z.Step s s') {i : Nat} (hi : i < z.count) :
    z.remaining s' i ≤ z.remaining s i ∧
      (s'.size i ≠ s.size i → z.remaining s' i < z.remaining s i) := by
  have hbefore := hs i hi
  have hafter := h.allowed i hi
  unfold Sizing.remaining
  by_cases hflexible : z.flexible i = true
  · rw [if_pos hflexible, if_pos hflexible]
    by_cases hmarked : s.marked i = true
    · -- Marked: both sizes are full.
      rw [if_pos (h.keeps i hi hmarked), if_pos hmarked]
      refine ⟨le_rfl, fun hne => absurd ?_ hne⟩
      have hfull : ∀ {size : Nat}, z.Allowed size (s.marked i) i → size = z.full i := by
        intro size hallowed
        refine hallowed.resolve_right ?_
        rintro ⟨-, -, -, hunmarked⟩
        rw [hmarked] at hunmarked
        cases hunmarked
      rw [hfull hbefore, hfull hafter]
    · rw [if_neg hmarked]
      have hmarks := h.marks i hi hflexible
      unfold Allowed at hbefore hafter
      by_cases hmarked' : s'.marked i = true
      · rw [if_pos hmarked']
        by_cases hsize : s.size i = z.short
        · rw [if_pos hsize]
          exact ⟨Nat.zero_le _, fun _ => Nat.one_pos⟩
        · rw [if_neg hsize]
          exact ⟨Nat.zero_le _, fun _ => Nat.two_pos⟩
      · rw [if_neg hmarked']
        by_cases hsize : s.size i = z.short
        · -- A short size that does not change.
          have hsize' : s'.size i = z.short := by
            rcases hafter with hfull | ⟨-, hshort, -⟩
            · by_contra hne
              have hlt : ¬ z.short < s'.size i := fun hlt => hmarked' (hmarks hsize hlt)
              rcases hbefore with hfull' | ⟨-, -, hshort, -⟩ <;> omega
            · exact hshort
          rw [if_pos hsize, if_pos hsize']
          exact ⟨le_rfl, fun hne => absurd (hsize'.trans hsize.symm) hne⟩
        · rw [if_neg hsize]
          by_cases hsize' : s'.size i = z.short
          · rw [if_pos hsize']
            exact ⟨Nat.le_succ 1, fun _ => Nat.one_lt_two⟩
          · rw [if_neg hsize']
            refine ⟨le_rfl, fun hne => absurd ?_ hne⟩
            have hfull := hbefore.resolve_right fun h => hsize h.2.1
            have hfull' := hafter.resolve_right fun h => hsize' h.2.1
            rw [hfull, hfull']
  · -- An item that is not flexible has its full size.
    rw [if_neg hflexible, if_neg hflexible]
    refine ⟨le_rfl, fun hne => absurd ?_ hne⟩
    have hfull : ∀ {size : Nat}, z.Allowed size (s.marked i) i → size = z.full i :=
      fun hallowed => hallowed.resolve_right fun hshort => hflexible hshort.1
    rw [hfull hbefore, hfull hafter]

theorem Step.budget_lt (hs : z.Valid s) (h : z.Step s s')
    (hchange : ∃ i < z.count, s'.size i ≠ s.size i) : z.budget s' < z.budget s := by
  unfold budget
  refine List.sum_lt_sum _ _ ?_ ?_
  · intro i hi
    exact (h.remaining hs (List.mem_range.mp hi)).1
  · obtain ⟨i, hi, hne⟩ := hchange
    exact ⟨i, List.mem_range.mpr hi, (h.remaining hs hi).2 hne⟩

/-- Two changes for each flexible item. -/
theorem budget_le (s : State) : z.budget s ≤ 2 * (List.range z.count).countP z.flexible := by
  unfold budget
  induction List.range z.count with
  | nil => exact le_rfl
  | cons i l ih =>
      rw [List.map_cons, List.sum_cons, List.countP_cons]
      have hi : z.remaining s i ≤ 2 * if z.flexible i = true then 1 else 0 := by
        unfold Sizing.remaining
        split
        · split
          · omega
          · split <;> omega
        · omega
      omega

end Sizing

end Whale
