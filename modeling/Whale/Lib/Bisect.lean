import Mathlib.Algebra.Order.Ring.Int
import Mathlib.Data.List.TakeWhile
import Mathlib.Tactic.Common

set_option autoImplicit false

/-! # Searching sorted lists

A list is partitioned by a predicate when every element that has it stands before those that do
not. Bisection finds where such a list turns, which is where `dropWhile` would have stopped; in
front of the turn and behind it the list is its own filter. -/

namespace Whale

variable {α : Type}

def Partitioned (p : α → Bool) (xs : List α) : Prop :=
  xs.Pairwise fun a b => p b = true → p a = true

/-! ## Bisection -/

/-- Halving the interval from `lo` to `hi`, at most `fuel` times. -/
def bisect (p : Nat → Bool) : Nat → Nat → Nat → Nat
  | 0, lo, _ => lo
  | fuel + 1, lo, hi =>
      if lo < hi then
        let mid := lo + (hi - lo) / 2
        if p mid = true then bisect p fuel (mid + 1) hi else bisect p fuel lo mid
      else lo

/-- `slice::partition_point`: the index of the first element without `p`. -/
def partitionPoint (p : α → Bool) (xs : List α) : Nat :=
  bisect (fun i => xs[i]?.any p) xs.length 0 xs.length

/-- Bisection ends at the index where `p` turns from true to false. -/
theorem bisect_eq {p : Nat → Bool} {turn fuel lo hi : Nat}
    (hturn : ∀ i < hi, p i = true ↔ i < turn) (hlo : lo ≤ turn) (hhi : turn ≤ hi)
    (hfuel : hi - lo ≤ fuel) : bisect p fuel lo hi = turn := by
  induction fuel generalizing lo hi with
  | zero =>
      show lo = turn
      omega
  | succ fuel ih =>
      unfold bisect
      by_cases hlt : lo < hi
      · rw [if_pos hlt]
        dsimp only
        have hmid : lo + (hi - lo) / 2 < hi := by omega
        by_cases hp : p (lo + (hi - lo) / 2) = true
        · rw [if_pos hp]
          have hbefore := (hturn _ hmid).mp hp
          exact ih hturn hbefore hhi (by omega)
        · rw [if_neg hp]
          have hbehind : turn ≤ lo + (hi - lo) / 2 := by
            by_contra hnot
            exact hp ((hturn _ hmid).mpr (by omega))
          exact ih (fun i hi => hturn i (by omega)) hlo hbehind (by omega)
      · rw [if_neg hlt]
        omega

/-! ## Partitioned lists -/

variable {p : α → Bool} {xs : List α}

theorem Partitioned.tail {x : α} (h : Partitioned p (x :: xs)) : Partitioned p xs :=
  (List.pairwise_cons.mp h).2

/-- Where one element lacks `p`, no later one has it. -/
theorem Partitioned.not_of_head {x : α} (h : Partitioned p (x :: xs)) (hx : ¬ p x = true) :
    ∀ y ∈ xs, ¬ p y = true :=
  fun y hy hp => hx ((List.pairwise_cons.mp h).1 y hy hp)

theorem Partitioned.dropWhile_eq (h : Partitioned p xs) :
    xs.dropWhile p = xs.filter fun x => !p x := by
  induction xs with
  | nil => rfl
  | cons x xs ih =>
      by_cases hx : p x = true
      · rw [List.dropWhile_cons_of_pos hx, List.filter_cons_of_neg (by simp [hx])]
        exact ih h.tail
      · rw [List.dropWhile_cons_of_neg hx, List.filter_cons_of_pos (by simp [hx])]
        refine congrArg (x :: ·) (List.filter_eq_self.mpr fun y hy => ?_).symm
        simpa using h.not_of_head hx y hy

theorem Partitioned.takeWhile_eq (h : Partitioned p xs) : xs.takeWhile p = xs.filter p := by
  induction xs with
  | nil => rfl
  | cons x xs ih =>
      by_cases hx : p x = true
      · rw [List.takeWhile_cons_of_pos hx, List.filter_cons_of_pos hx, ih h.tail]
      · rw [List.takeWhile_cons_of_neg hx, List.filter_cons_of_neg hx]
        exact (List.filter_eq_nil_iff.mpr (h.not_of_head hx)).symm

/-- The elements with `p` are the first ones. -/
theorem Partitioned.any_getElem? (h : Partitioned p xs) {i : Nat} (hi : i < xs.length) :
    xs[i]?.any p = true ↔ i < (xs.takeWhile p).length := by
  induction xs generalizing i with
  | nil => exact absurd hi (Nat.not_lt_zero i)
  | cons x xs ih =>
      by_cases hx : p x = true
      · rw [List.takeWhile_cons_of_pos hx, List.length_cons]
        cases i with
        | zero => simp [hx]
        | succ i =>
            rw [List.getElem?_cons_succ, ih h.tail (Nat.lt_of_succ_lt_succ hi)]
            exact Nat.succ_lt_succ_iff.symm
      · rw [List.takeWhile_cons_of_neg hx]
        refine iff_of_false ?_ (Nat.not_lt_zero i)
        rw [List.getElem?_eq_getElem hi, Option.any_some]
        cases i with
        | zero => exact hx
        | succ i => exact h.not_of_head hx _ (List.getElem_mem _)

/-- The search finds the turn of a partitioned list. -/
theorem Partitioned.partitionPoint_eq (h : Partitioned p xs) :
    partitionPoint p xs = (xs.takeWhile p).length := by
  have hle : (xs.takeWhile p).length ≤ xs.length := (List.takeWhile_prefix p).length_le
  exact bisect_eq (fun i hi => h.any_getElem? hi) (Nat.zero_le _) hle (Nat.sub_le _ _)

theorem Partitioned.drop_partitionPoint (h : Partitioned p xs) :
    xs.drop (partitionPoint p xs) = xs.filter fun x => !p x := by
  calc xs.drop (partitionPoint p xs)
      = (xs.takeWhile p ++ xs.dropWhile p).drop (xs.takeWhile p).length := by
        rw [List.takeWhile_append_dropWhile, h.partitionPoint_eq]
    _ = xs.dropWhile p := List.drop_left
    _ = xs.filter fun x => !p x := h.dropWhile_eq

end Whale
