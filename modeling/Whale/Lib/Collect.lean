import Mathlib.Algebra.Order.Ring.Int
import Mathlib.Data.List.Forall2
import Mathlib.Tactic.Common

set_option autoImplicit false

/-! # Collecting optional results -/

namespace Whale

variable {α β : Type}

variable {xs : List α}

/-- When every element has a result with a property, all results are collected. -/
theorem mapM_some {f : α → Option β} {P : α → β → Prop} (h : ∀ x ∈ xs, ∃ y, f x = some y ∧ P x y) :
    ∃ ys, xs.mapM f = some ys ∧ List.Forall₂ P xs ys := by
  induction xs with
  | nil => exact ⟨[], rfl, .nil⟩
  | cons x xs ih =>
      obtain ⟨y, hy, hP⟩ := h x List.mem_cons_self
      obtain ⟨ys, hys, hall⟩ := ih fun x' hx' => h x' (List.mem_cons_of_mem _ hx')
      refine ⟨y :: ys, ?_, .cons hP hall⟩
      rw [List.mapM_cons, hy, hys]
      rfl

variable {R : α → β → Prop}

theorem exists_of_forall₂ {ys : List β} (h : List.Forall₂ R xs ys) {x : α} (hx : x ∈ xs) :
    ∃ y ∈ ys, R x y := by
  induction h with
  | nil => cases hx
  | @cons a b as bs hab hrest ih =>
      rcases List.mem_cons.mp hx with rfl | hx
      · exact ⟨b, List.mem_cons_self, hab⟩
      · obtain ⟨y, hy, hR⟩ := ih hx
        exact ⟨y, List.mem_cons_of_mem _ hy, hR⟩

/-- A relation between the elements of one list carries over to those of the other. -/
theorem pairwise_of_forall₂ {S : α → α → Prop} {T : β → β → Prop}
    (htransfer : ∀ a a' b b', R a b → R a' b' → S a a' → T b b') {as : List α} {bs : List β}
    (h : List.Forall₂ R as bs) (hpairwise : as.Pairwise S) : bs.Pairwise T := by
  induction h with
  | nil => exact .nil
  | @cons a b as bs hab hrest ih =>
      obtain ⟨hfirst, hpairwise⟩ := List.pairwise_cons.mp hpairwise
      refine List.pairwise_cons.mpr ⟨fun b' hb' => ?_, ih hpairwise⟩
      obtain ⟨a', ha', hR⟩ := exists_of_forall₂ hrest.flip hb'
      exact htransfer a a' b b' hab hR (hfirst a' ha')

theorem forall₂_getElem? {as : List α} {bs : List β} (h : List.Forall₂ R as bs) {i : Nat} {a : α}
    (ha : as[i]? = some a) : ∃ b, bs[i]? = some b ∧ R a b := by
  induction h generalizing i with
  | nil => cases ha
  | cons hab _ ih =>
      cases i with
      | zero =>
          cases ha
          exact ⟨_, rfl, hab⟩
      | succ i => exact ih ha

theorem forall₂_eraseIdx {as : List α} {bs : List β} (h : List.Forall₂ R as bs) (i : Nat) :
    List.Forall₂ R (as.eraseIdx i) (bs.eraseIdx i) := by
  induction h generalizing i with
  | nil => exact .nil
  | cons hab hrest ih =>
      cases i with
      | zero => exact hrest
      | succ i => exact .cons hab (ih i)

/-- A relation by position is a relation of the lists. -/
theorem forall₂_of_range {ys : List β}
    (h : List.Forall₂ (fun n y => ∀ x, xs[n]? = some x → R x y) (List.range xs.length) ys) :
    List.Forall₂ R xs ys := by
  obtain ⟨hlength, hall⟩ := List.forall₂_iff_get.mp h
  rw [List.length_range] at hlength
  refine List.forall₂_iff_get.mpr ⟨hlength, fun i h₁ h₂ => ?_⟩
  have hi := hall i (by rw [List.length_range]; exact h₁) h₂
  simp only [List.get_eq_getElem, List.getElem_range] at hi
  exact hi _ (List.getElem?_eq_getElem h₁)

theorem eq_map_of_forall₂ {f : α → β} {ys : List β} (h : List.Forall₂ (fun x y => y = f x) xs ys) :
    ys = xs.map f := by
  induction h with
  | nil => rfl
  | cons hxy hrest ih => rw [List.map_cons, ← ih, hxy]

theorem getElem?_of_drop_eq_cons {l rest : List α} {i : Nat} {a : α}
    (h : l.drop i = a :: rest) : l[i]? = some a ∧ l.drop (i + 1) = rest := by
  have hi : i < l.length := by
    by_contra hge
    rw [List.drop_eq_nil_of_le (Nat.le_of_not_lt hge)] at h
    cases h
  rw [List.drop_eq_getElem_cons hi, List.cons.injEq] at h
  exact ⟨by rw [List.getElem?_eq_getElem hi, h.1], h.2⟩

theorem zipIdx_map_range (f : Nat → α) (n : Nat) :
    ((List.range n).map f).zipIdx = (List.range n).map fun i => (f i, i) := by
  apply List.ext_getElem
  · simp
  · simp

theorem set_of_getElem? {l : List α} {i : Nat} {a : α} (h : l[i]? = some a) : l.set i a = l := by
  refine List.ext_getElem? fun k => ?_
  rw [List.getElem?_set]
  by_cases hk : i = k
  · subst hk
    rw [if_pos rfl, if_pos (List.getElem?_eq_some_iff.mp h).1, h]
  · rw [if_neg hk]

theorem forall_getElem?_cons {α : Type} {P : Nat → α → Prop} {p : Nat} {a : α} {l : List α} :
    (∀ j x, (a :: l)[j]? = some x → P (p + j) x) ↔
      P p a ∧ ∀ j x, l[j]? = some x → P (p + 1 + j) x := by
  constructor
  · refine fun h => ⟨h 0 a rfl, fun j x hx => ?_⟩
    rw [Nat.add_assoc, Nat.add_comm 1]
    exact h (j + 1) x hx
  · rintro ⟨hfirst, hrest⟩ j x hx
    cases j with
    | zero =>
      cases hx
      exact hfirst
    | succ j =>
      rw [Nat.add_comm j, ← Nat.add_assoc]
      exact hrest j x hx

/-- A fold adds the weights of the elements to a measure that each step raises by one of them. -/
theorem foldl_measure {f : β → α → β} {measure : β → Nat} {weight : α → Nat}
    (h : ∀ b a, measure (f b a) = measure b + weight a) (xs : List α) (b : β) :
    measure (xs.foldl f b) = measure b + (xs.map weight).sum := by
  induction xs generalizing b with
  | nil => rfl
  | cons x xs ih =>
      rw [List.foldl_cons, ih, h, List.map_cons, List.sum_cons, Nat.add_assoc]

/-- One element is replaced in a sum over a list. -/
theorem sum_map_set (f : α → Nat) {l : List α} {i : Nat} {a : α} (h : l[i]? = some a) (b : α) :
    ((l.set i b).map f).sum + f a = (l.map f).sum + f b := by
  induction l generalizing i with
  | nil => cases h
  | cons x l ih =>
      cases i with
      | zero =>
          cases h
          simp only [List.set_cons_zero, List.map_cons, List.sum_cons]
          omega
      | succ i =>
          have hrest := ih h
          simp only [List.set_cons_succ, List.map_cons, List.sum_cons]
          omega

/-- Counting by keys below `n` counts the elements with such keys. -/
theorem sum_length_filter_lt (key : α → Nat) (xs : List α) (n : Nat) :
    ((List.range n).map fun i => (xs.filter (key · = i)).length).sum =
      (xs.filter (key · < n)).length := by
  induction n with
  | zero => simp
  | succ n ih =>
      have hsplit : (xs.filter (key · < n + 1)).length =
          (xs.filter (key · < n)).length + (xs.filter (key · = n)).length := by
        clear ih
        induction xs with
        | nil => rfl
        | cons x xs ih =>
            simp only [List.filter_cons, decide_eq_true_eq]
            rcases Nat.lt_trichotomy (key x) n with h | h | h
            · rw [if_pos (by omega), if_pos h, if_neg (by omega)]
              simp only [List.length_cons, ih]
              omega
            · rw [if_pos (by omega), if_neg (by omega), if_pos h]
              simp only [List.length_cons, ih]
              omega
            · rw [if_neg (by omega), if_neg (by omega), if_neg (by omega), ih]
      rw [List.range_succ, List.map_append, List.sum_append, ih, hsplit, List.map_singleton,
        List.sum_singleton]

theorem sum_length_filter {key : α → Nat} {n : Nat} (h : ∀ x ∈ xs, key x < n) :
    ((List.range n).map fun i => (xs.filter (key · = i)).length).sum = xs.length := by
  rw [sum_length_filter_lt, List.filter_eq_self.mpr fun x hx => decide_eq_true (h x hx)]

end Whale
