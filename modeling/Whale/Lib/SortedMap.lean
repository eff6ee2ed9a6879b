import Mathlib.Algebra.Order.Ring.Int
import Mathlib.Data.List.Lex

set_option autoImplicit false

/-! # Sorted maps

A map as its entries in the order of their keys, with the query for the first entry from a key
on. Over strings, all the keys that start with a string stand together right behind it. -/

namespace Whale

structure SortedMap (κ ν : Type) [LinearOrder κ] where
  entries : List (κ × ν)
  sorted : entries.Pairwise fun a b => a.1 < b.1

namespace SortedMap

variable {κ ν : Type} [LinearOrder κ]

def empty : SortedMap κ ν := ⟨[], .nil⟩

def keys (m : SortedMap κ ν) : List κ := m.entries.map Prod.fst

def get (m : SortedMap κ ν) (key : κ) : Option ν :=
  (m.entries.find? fun e => e.1 = key).map Prod.snd

/-- The first entry whose key is not below the given one. -/
def firstFrom (m : SortedMap κ ν) (key : κ) : Option (κ × ν) :=
  m.entries.find? fun e => key ≤ e.1

/-- An entry at its place; it replaces one with the same key. -/
def insertEntry (key : κ) (value : ν) : List (κ × ν) → List (κ × ν)
  | [] => [(key, value)]
  | e :: es =>
      if key < e.1 then (key, value) :: e :: es
      else if key = e.1 then (key, value) :: es
      else e :: insertEntry key value es

theorem mem_insertEntry {key : κ} {value : ν} {e : κ × ν} {es : List (κ × ν)}
    (h : e ∈ insertEntry key value es) : e = (key, value) ∨ e ∈ es := by
  induction es with
  | nil => exact .inl (List.mem_singleton.mp h)
  | cons e' es ih =>
      unfold insertEntry at h
      split at h
      · exact List.mem_cons.mp h
      · split at h
        · exact (List.mem_cons.mp h).imp_right (List.mem_cons_of_mem _)
        · rcases List.mem_cons.mp h with rfl | h
          · exact .inr List.mem_cons_self
          · exact (ih h).imp_right (List.mem_cons_of_mem _)

theorem sorted_insertEntry (key : κ) (value : ν) {es : List (κ × ν)}
    (h : es.Pairwise fun a b => a.1 < b.1) :
    (insertEntry key value es).Pairwise fun a b => a.1 < b.1 := by
  induction es with
  | nil => exact List.pairwise_singleton _ _
  | cons e es ih =>
      obtain ⟨hfirst, hrest⟩ := List.pairwise_cons.mp h
      unfold insertEntry
      split
      case isTrue hlt =>
        refine h.cons fun b hb => ?_
        rcases List.mem_cons.mp hb with rfl | hb
        · exact hlt
        · exact hlt.trans (hfirst b hb)
      case isFalse hge =>
        split
        case isTrue heq =>
          rw [← heq] at hfirst
          exact hrest.cons hfirst
        case isFalse hne =>
          refine (ih hrest).cons fun b hb => ?_
          rcases mem_insertEntry hb with rfl | hb
          · exact lt_of_le_of_ne (not_lt.mp hge) (Ne.symm hne)
          · exact hfirst b hb

def insert (m : SortedMap κ ν) (key : κ) (value : ν) : SortedMap κ ν :=
  ⟨insertEntry key value m.entries, sorted_insertEntry key value m.sorted⟩

@[simp] theorem keys_empty : (empty : SortedMap κ ν).keys = [] := rfl

theorem mem_keys_insert {m : SortedMap κ ν} {key key' : κ} {value : ν} :
    key' ∈ (m.insert key value).keys ↔ key' = key ∨ key' ∈ m.keys := by
  suffices h : ∀ es : List (κ × ν), key' ∈ (insertEntry key value es).map Prod.fst ↔
      key' = key ∨ key' ∈ es.map Prod.fst from h m.entries
  intro es
  induction es with
  | nil => simp [insertEntry]
  | cons e es ih =>
      unfold insertEntry
      split
      · simp
      · split
        case isTrue heq => simp [heq]
        case isFalse =>
          rw [List.map_cons, List.map_cons, List.mem_cons, List.mem_cons, ih]
          tauto

theorem get_isSome_iff {m : SortedMap κ ν} {key : κ} :
    (m.get key).isSome = true ↔ key ∈ m.keys := by
  unfold get keys
  rw [Option.isSome_map, List.find?_isSome, List.mem_map]
  simp only [decide_eq_true_eq]

/-! ## The first entry from a key on -/

theorem firstFrom_mem {m : SortedMap κ ν} {key : κ} {e : κ × ν} (h : m.firstFrom key = some e) :
    e ∈ m.entries ∧ key ≤ e.1 :=
  ⟨List.mem_of_find?_eq_some h, by simpa using List.find?_some (show _ = _ from h)⟩

/-- There is one when some key is not below, and no such key comes before it. -/
theorem firstFrom_least {m : SortedMap κ ν} {key key' : κ} (hmem : key' ∈ m.keys)
    (hle : key ≤ key') : ∃ e, m.firstFrom key = some e ∧ e.1 ≤ key' := by
  obtain ⟨entries, hsorted⟩ := m
  unfold firstFrom
  unfold keys at hmem
  induction entries with
  | nil => cases hmem
  | cons e es ih =>
      obtain ⟨hfirst, hrest⟩ := List.pairwise_cons.mp hsorted
      by_cases hkey : key ≤ e.1
      · refine ⟨e, List.find?_cons_of_pos (decide_eq_true hkey), ?_⟩
        rcases List.mem_cons.mp hmem with rfl | hmem
        · exact le_rfl
        · obtain ⟨e', he', rfl⟩ := List.mem_map.mp hmem
          exact (hfirst e' he').le
      · have hmem' : key' ∈ es.map Prod.fst := by
          refine (List.mem_cons.mp hmem).resolve_left ?_
          rintro rfl
          exact hkey hle
        obtain ⟨e', hfind, hle'⟩ := ih hrest hmem'
        refine ⟨e', ?_, hle'⟩
        rw [← hfind]
        exact List.find?_cons_of_neg (by simpa using hkey)

end SortedMap

/-! ## Keys that start with a string -/

section

variable {α ν : Type} [LinearOrder α]

theorem le_of_startsWith {start x : List α} (h : start <+: x) : start ≤ x := by
  obtain ⟨rest, rfl⟩ := h
  induction start with
  | nil => exact not_lt.mp (List.not_lt_nil _)
  | cons a start ih => exact List.cons_le_cons a ih

/-- Between a string and one that starts with it, all strings start with it. -/
theorem prefix_of_between {start x y : List α} (hx : start ≤ x) (hxy : x ≤ y)
    (hy : start <+: y) : start <+: x := by
  induction start generalizing x y with
  | nil => exact List.nil_prefix
  | cons a start ih =>
      obtain ⟨rest, rfl⟩ := hy
      cases x with
      | nil => exact absurd (List.nil_lt_cons a start) (not_lt.mpr hx)
      | cons b x =>
          rw [List.cons_append] at hxy
          rw [← not_lt, List.cons_lt_cons_iff, not_or] at hx hxy
          obtain rfl : a = b := le_antisymm (not_lt.mp hx.1) (not_lt.mp hxy.1)
          refine List.cons_prefix_cons.mpr ⟨rfl, ih ?_ ?_ (List.prefix_append start rest)⟩
          · exact not_lt.mp fun h => hx.2 ⟨rfl, h⟩
          · exact not_lt.mp fun h => hxy.2 ⟨rfl, h⟩

/-- The first entry from a string on starts with it if any key does. -/
theorem SortedMap.firstFrom_prefix_iff (m : SortedMap (List α) ν) (start : List α) :
    (∃ e, m.firstFrom start = some e ∧ start <+: e.1) ↔ ∃ key ∈ m.keys, start <+: key := by
  constructor
  · rintro ⟨e, he, hstart⟩
    exact ⟨e.1, List.mem_map_of_mem (firstFrom_mem he).1, hstart⟩
  · rintro ⟨key, hmem, hstart⟩
    obtain ⟨e, he, hle⟩ := firstFrom_least hmem (le_of_startsWith hstart)
    exact ⟨e, he, prefix_of_between (firstFrom_mem he).2 hle hstart⟩

end

end Whale
