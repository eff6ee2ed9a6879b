import Mathlib.Algebra.Order.Ring.Int
import Mathlib.Data.List.Lemmas
import Mathlib.Data.List.Nodup
import Mathlib.Tactic.Common

set_option autoImplicit false

/-! # Finite maps as lists of entries

A hash map as the list of its entries, in some order, each key at most once. `insert`
replaces the entry of its key, `retain` keeps the entries whose key satisfies a test, and
`extend` inserts a list of entries one after the other. -/

namespace Whale

variable {κ ν : Type} [DecidableEq κ]

abbrev AssocMap (κ ν : Type) := List (κ × ν)

namespace AssocMap

/-- The value of a key. -/
def get (k : κ) : AssocMap κ ν → Option ν
  | [] => none
  | e :: m => if e.1 = k then some e.2 else get k m

/-- Remove the entry of a key. -/
def erase (k : κ) (m : AssocMap κ ν) : AssocMap κ ν := m.filter (fun e => e.1 ≠ k)

/-- Set the value of a key. -/
def insert (k : κ) (v : ν) (m : AssocMap κ ν) : AssocMap κ ν := (k, v) :: erase k m

/-- Keep the entries whose key satisfies `p`. -/
def retain (p : κ → Bool) (m : AssocMap κ ν) : AssocMap κ ν := m.filter (fun e => p e.1)

/-- Insert a list of entries, the first one first. -/
def extend (m : AssocMap κ ν) (es : List (κ × ν)) : AssocMap κ ν :=
  es.foldl (fun m e => insert e.1 e.2 m) m

/-- Each key has one entry. -/
def UniqueKeys (m : AssocMap κ ν) : Prop := (m.map Prod.fst).Nodup

/-! ## Lookup -/

@[simp] theorem get_nil (k : κ) : get k ([] : AssocMap κ ν) = none := rfl

theorem get_cons (k : κ) (e : κ × ν) (m : AssocMap κ ν) :
    get k (e :: m) = if e.1 = k then some e.2 else get k m := rfl

theorem get_filter (p : κ → Bool) (k : κ) (m : AssocMap κ ν) :
    get k (m.filter (fun e => p e.1)) = if p k then get k m else none := by
  induction m with
  | nil => simp
  | cons e m ih =>
      by_cases hp : p e.1
      · rw [List.filter_cons_of_pos (by simpa using hp), get_cons, get_cons, ih]
        by_cases hk : e.1 = k
        · subst hk
          simp [hp]
        · simp [hk]
      · rw [List.filter_cons_of_neg (by simpa using hp), ih, get_cons]
        by_cases hk : e.1 = k
        · subst hk
          simp [hp]
        · simp [hk]

@[simp] theorem get_retain (p : κ → Bool) (k : κ) (m : AssocMap κ ν) :
    get k (retain p m) = if p k then get k m else none :=
  get_filter p k m

theorem get_erase_ne {j k : κ} (h : j ≠ k) (m : AssocMap κ ν) : get j (erase k m) = get j m := by
  have := get_filter (fun e => decide (e ≠ k)) j m
  simpa [erase, h] using this

@[simp] theorem get_insert_self (k : κ) (v : ν) (m : AssocMap κ ν) :
    get k (insert k v m) = some v := by
  simp [insert, get_cons]

theorem get_insert_ne {j k : κ} (h : j ≠ k) (v : ν) (m : AssocMap κ ν) :
    get j (insert k v m) = get j m := by
  rw [insert, get_cons, if_neg (fun e => h e.symm), get_erase_ne h]

theorem get_insert (j k : κ) (v : ν) (m : AssocMap κ ν) :
    get j (insert k v m) = if j = k then some v else get j m := by
  by_cases h : j = k
  · subst h
    simp
  · rw [get_insert_ne h, if_neg h]

theorem get_extend_of_not_mem {k : κ} (es : List (κ × ν)) (m : AssocMap κ ν)
    (h : k ∉ es.map Prod.fst) : get k (extend m es) = get k m := by
  induction es generalizing m with
  | nil => rfl
  | cons e es ih =>
      simp only [List.map_cons, List.mem_cons, not_or] at h
      show get k (extend (insert e.1 e.2 m) es) = get k m
      rw [ih _ h.2, get_insert_ne h.1]

theorem get_extend_of_mem {k : κ} {v : ν} (es : List (κ × ν)) (m : AssocMap κ ν)
    (hu : UniqueKeys es) (h : (k, v) ∈ es) : get k (extend m es) = some v := by
  induction es generalizing m with
  | nil => simp at h
  | cons e es ih =>
      obtain ⟨hne, hu⟩ := List.nodup_cons.mp (show (e.1 :: es.map Prod.fst).Nodup from hu)
      show get k (extend (insert e.1 e.2 m) es) = some v
      rcases List.mem_cons.mp h with rfl | h
      · rw [get_extend_of_not_mem es _ hne, get_insert_self]
      · exact ih _ hu h

variable {m : AssocMap κ ν}

theorem mem_of_get {k : κ} {v : ν} (h : get k m = some v) : (k, v) ∈ m := by
  induction m with
  | nil => simp at h
  | cons e m ih =>
      rw [get_cons] at h
      split at h
      · rename_i hk
        cases h
        exact List.mem_cons.mpr (Or.inl (by rw [← hk]))
      · exact List.mem_cons.mpr (Or.inr (ih h))

theorem get_of_mem {k : κ} {v : ν} (hu : UniqueKeys m) (h : (k, v) ∈ m) : get k m = some v := by
  induction m with
  | nil => simp at h
  | cons e m ih =>
      obtain ⟨hne, hu⟩ := List.nodup_cons.mp (show (e.1 :: m.map Prod.fst).Nodup from hu)
      rw [get_cons]
      rcases List.mem_cons.mp h with rfl | h
      · simp
      · have hk : e.1 ≠ k := fun hk => hne (hk ▸ List.mem_map.mpr ⟨(k, v), h, rfl⟩)
        rw [if_neg hk, ih hu h]

theorem get_eq_none_iff {k : κ} : get k m = none ↔ k ∉ m.map Prod.fst := by
  induction m with
  | nil => simp
  | cons e m ih =>
      rw [get_cons, List.map_cons, List.mem_cons, not_or]
      split
      · rename_i hk
        simp [hk]
      · rename_i hk
        rw [ih]
        exact ⟨fun h => ⟨fun hk' => hk hk'.symm, h⟩, fun h => h.2⟩

/-- Extending by entries with unique keys: the new entries win. -/
theorem get_extend {es : List (κ × ν)} (hu : UniqueKeys es) (m : AssocMap κ ν) (k : κ) :
    get k (extend m es) = (get k es).or (get k m) := by
  cases h : get k es with
  | none => rw [get_extend_of_not_mem es m (get_eq_none_iff.mp h), Option.none_or]
  | some v => rw [get_extend_of_mem es m hu (mem_of_get h), Option.some_or]

/-! ## Unique keys and sizes -/

omit [DecidableEq κ] in
theorem uniqueKeys_nil : UniqueKeys ([] : AssocMap κ ν) := List.nodup_nil

omit [DecidableEq κ] in
theorem uniqueKeys_filter (p : κ × ν → Bool) (h : UniqueKeys m) : UniqueKeys (m.filter p) :=
  h.sublist (List.filter_sublist.map Prod.fst)

omit [DecidableEq κ] in
theorem uniqueKeys_retain (p : κ → Bool) (h : UniqueKeys m) : UniqueKeys (retain p m) :=
  uniqueKeys_filter _ h

theorem not_mem_erase (k : κ) (m : AssocMap κ ν) : k ∉ (erase k m).map Prod.fst := by
  simp [erase]

theorem uniqueKeys_insert (k : κ) (v : ν) (h : UniqueKeys m) : UniqueKeys (insert k v m) :=
  List.nodup_cons.mpr ⟨not_mem_erase k m, uniqueKeys_filter _ h⟩

theorem uniqueKeys_extend (es : List (κ × ν)) (h : UniqueKeys m) : UniqueKeys (extend m es) := by
  induction es generalizing m with
  | nil => exact h
  | cons e es ih => exact ih (uniqueKeys_insert e.1 e.2 h)

theorem erase_of_not_mem {k : κ} (h : k ∉ m.map Prod.fst) : erase k m = m := by
  rw [erase, List.filter_eq_self]
  intro e he
  have hne : e.1 ≠ k := fun hk => h (List.mem_map.mpr ⟨e, he, hk⟩)
  simpa using hne

theorem mem_keys_insert {j k : κ} {v : ν} :
    j ∈ (insert k v m).map Prod.fst → j = k ∨ j ∈ m.map Prod.fst := by
  intro h
  rw [insert, List.map_cons, List.mem_cons] at h
  rcases h with h | h
  · exact Or.inl h
  · right
    obtain ⟨e, he, rfl⟩ := List.mem_map.mp h
    exact List.mem_map.mpr ⟨e, (List.mem_filter.mp he).1, rfl⟩

/-- Inserting new, distinct keys adds their number to the size. -/
theorem length_extend (es : List (κ × ν)) (m : AssocMap κ ν) (hu : UniqueKeys es)
    (hfresh : ∀ k ∈ es.map Prod.fst, k ∉ m.map Prod.fst) :
    (extend m es).length = m.length + es.length := by
  induction es generalizing m with
  | nil => rfl
  | cons e es ih =>
      obtain ⟨hne, hu⟩ := List.nodup_cons.mp (show (e.1 :: es.map Prod.fst).Nodup from hu)
      have hlen : (insert e.1 e.2 m).length = m.length + 1 := by
        rw [insert, erase_of_not_mem (hfresh _ (by simp)), List.length_cons]
      show (extend (insert e.1 e.2 m) es).length = _
      rw [ih _ hu, hlen, List.length_cons]
      · omega
      · intro k hk hmem
        rcases mem_keys_insert hmem with rfl | hmem
        · exact hne hk
        · exact hfresh k (by simp [hk]) hmem

omit [DecidableEq κ] in
/-- What `retain` drops and what it keeps make up the whole map. -/
theorem length_retain_add (p : κ → Bool) (m : AssocMap κ ν) :
    (retain (fun k => !p k) m).length + (m.filter (fun e => p e.1)).length = m.length := by
  induction m with
  | nil => rfl
  | cons e m ih =>
      simp only [retain] at ih ⊢
      cases h : p e.1 <;> simp only [List.filter_cons, h, Bool.not_false, Bool.not_true,
        if_true, Bool.false_eq_true, if_false, List.length_cons] <;> omega

/-! ## Positions -/

/-- The keys of the elements of a list with their positions. -/
def positions {α : Type} (key : α → κ) (i : Nat) (l : List α) : List (κ × Nat) :=
  (l.zipIdx i).map fun e => (key e.1, e.2)

omit [DecidableEq κ] in
theorem map_fst_positions {α : Type} (key : α → κ) (i : Nat) (l : List α) :
    (positions key i l).map Prod.fst = l.map key := by
  induction l generalizing i with
  | nil => rfl
  | cons a l ih =>
    rw [List.map_cons, ← ih (i + 1)]
    rfl

/-- A table of positions leads back to the element with the key. -/
theorem get_positions {α : Type} {key : α → κ} {l : List α} (hu : (l.map key).Nodup) {k : κ}
    {j : Nat} :
    get k (extend [] (positions key 0 l)) = some j ↔ ∃ a, l[j]? = some a ∧ key a = k := by
  have hunique : UniqueKeys (positions key 0 l) := by
    rw [UniqueKeys, map_fst_positions]
    exact hu
  rw [get_extend hunique, get_nil, Option.or_none]
  have hmem : (k, j) ∈ positions key 0 l ↔ ∃ a, l[j]? = some a ∧ key a = k := by
    simp only [positions, List.mem_map, Prod.exists, List.mem_zipIdx_iff_getElem?, Prod.mk.injEq]
    constructor
    · rintro ⟨a, i, hi, hkey, rfl⟩
      exact ⟨a, hi, hkey⟩
    · rintro ⟨a, hj, hkey⟩
      exact ⟨a, j, hj, hkey, rfl⟩
  rw [← hmem]
  exact ⟨mem_of_get, get_of_mem hunique⟩

end AssocMap

end Whale
