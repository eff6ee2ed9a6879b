import Mathlib.Algebra.Order.Ring.Int
import Mathlib.Data.List.Sort

set_option autoImplicit false

/-! # Overlapping relocation fields

A writer sorts the ranges of all fields and compares neighbours. In sorted ranges that is
enough: no two fields of a section overlap (`pairwise_apart`). -/

namespace Whale

/-- The section, the start and the end of a relocated field. -/
abbrev FieldRange := Nat × Nat × Nat

/-- The lexicographic order of ranges. -/
def FieldLe (a b : FieldRange) : Prop :=
  a.1 < b.1 ∨ a.1 = b.1 ∧ (a.2.1 < b.2.1 ∨ a.2.1 = b.2.1 ∧ a.2.2 ≤ b.2.2)

instance : DecidableRel FieldLe := fun _ _ => inferInstanceAs (Decidable (_ ∨ _))

instance : Std.Total FieldLe := ⟨fun a b => by unfold FieldLe; omega⟩

instance : IsTrans FieldRange FieldLe := ⟨fun a b c h₁ h₂ => by unfold FieldLe at *; omega⟩

/-- No range overlaps the next one. -/
def neighboursDisjoint : List FieldRange → Bool
  | a :: b :: fields =>
      decide (¬ (a.1 = b.1 ∧ b.2.1 < a.2.2)) && neighboursDisjoint (b :: fields)
  | _ => true

/-- Ranges of one section lie one before the other. -/
def FieldsApart (a b : FieldRange) : Prop := a.1 = b.1 → a.2.2 ≤ b.2.1 ∨ b.2.2 ≤ a.2.1

theorem FieldsApart.symm {a b : FieldRange} (h : FieldsApart a b) : FieldsApart b a :=
  fun hsection => (h hsection.symm).symm

/-- In a sorted list every later range starts behind the end of an earlier one. -/
theorem pairwise_of_neighbours {fields : List FieldRange} (hsorted : fields.Pairwise FieldLe)
    (h : neighboursDisjoint fields = true) :
    fields.Pairwise fun a b => a.1 = b.1 → a.2.2 ≤ b.2.1 := by
  induction fields with
  | nil => exact .nil
  | cons a fields ih =>
      obtain ⟨hfirst, hrest⟩ := List.pairwise_cons.mp hsorted
      cases fields with
      | nil => exact List.pairwise_singleton _ _
      | cons b fields =>
          unfold neighboursDisjoint at h
          rw [Bool.and_eq_true, decide_eq_true_eq] at h
          refine List.pairwise_cons.mpr ⟨fun c hc hsection => ?_, ih hrest h.2⟩
          have hab := hfirst b List.mem_cons_self
          have hac := hfirst c hc
          rcases List.mem_cons.mp hc with rfl | hc
          · by_contra hlt
            exact h.1 ⟨hsection, by omega⟩
          · have hbc := (List.pairwise_cons.mp hrest).1 c hc
            unfold FieldLe at hab hac hbc
            have hnot := h.1
            omega

/-- The check accepts only ranges that do not overlap, in whatever order they come. -/
theorem pairwise_apart {fields : List FieldRange}
    (h : neighboursDisjoint (fields.insertionSort FieldLe) = true) :
    fields.Pairwise FieldsApart := by
  have hsorted := List.pairwise_insertionSort FieldLe fields
  have happart : (fields.insertionSort FieldLe).Pairwise FieldsApart :=
    (pairwise_of_neighbours hsorted h).imp fun hle hsection => .inl (hle hsection)
  exact (List.perm_insertionSort FieldLe fields).pairwise happart fun hab => hab.symm

end Whale
