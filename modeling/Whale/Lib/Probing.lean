import Mathlib.Algebra.Order.Ring.Int
import Mathlib.Logic.Function.Basic
import Mathlib.Tactic.Common

set_option autoImplicit false

/-! # Open addressing

A table of `n` slots, some of which hold a key. A search for a key starts at the slot the key
hashes to and goes on to the next slot, around the end, while it meets other keys. In a table
where every key stands on the way of its own search, a search that stops at an empty slot
shows that the key is not there. -/

namespace Whale.Probing

variable {K : Type} {n : Nat} {start : K → Nat} {table table' : Nat → Option K} {key : K}

/-- The slot of a search after `t` steps. -/
def slotAt (n start t : Nat) : Nat := (start + t) % n

/-- The first `t` slots of the search hold other keys. -/
def Passed (n : Nat) (start : K → Nat) (table : Nat → Option K) (key : K) (t : Nat) : Prop :=
  ∀ u < t, ∃ other, table (slotAt n (start key) u) = some other ∧ other ≠ key

/-- The search finds the key after `t` steps. -/
def Found (n : Nat) (start : K → Nat) (table : Nat → Option K) (key : K) (t : Nat) : Prop :=
  t < n ∧ Passed n start table key t ∧ table (slotAt n (start key) t) = some key

/-- Every key is found where it stands. -/
def Consistent (n : Nat) (start : K → Nat) (table : Nat → Option K) : Prop :=
  ∀ slot < n, ∀ key, table slot = some key →
    ∃ t, Found n start table key t ∧ slot = slotAt n (start key) t

/-- The second table has the keys of the first one where they were. -/
def Extends (table table' : Nat → Option K) : Prop :=
  ∀ slot key, table slot = some key → table' slot = some key

theorem Extends.refl (table : Nat → Option K) : Extends table table := fun _ _ h => h

theorem Extends.trans {table'' : Nat → Option K} (h : Extends table table')
    (h' : Extends table' table'') : Extends table table'' := fun slot key hk =>
  h' slot key (h slot key hk)

theorem slotAt_lt {start t : Nat} (h : 0 < n) : slotAt n start t < n := Nat.mod_lt _ h

theorem passed_zero : Passed n start table key 0 := fun _ hu => absurd hu (Nat.not_lt_zero _)

theorem Passed.succ {t : Nat} {other : K} (h : Passed n start table key t)
    (hslot : table (slotAt n (start key) t) = some other) (hne : other ≠ key) :
    Passed n start table key (t + 1) := by
  intro u hu
  rcases Nat.lt_succ_iff_lt_or_eq.mp hu with hlt | rfl
  · exact h u hlt
  · exact ⟨other, hslot, hne⟩

theorem Passed.mono {t : Nat} (h : Passed n start table key t) (hext : Extends table table') :
    Passed n start table' key t := fun u hu => by
  obtain ⟨other, hslot, hne⟩ := h u hu
  exact ⟨other, hext _ _ hslot, hne⟩

theorem Found.mono {t : Nat} (h : Found n start table key t) (hext : Extends table table') :
    Found n start table' key t := ⟨h.1, h.2.1.mono hext, hext _ _ h.2.2⟩

/-- A search does not go beyond the key or an empty slot. -/
theorem Passed.le {t t' : Nat} (h : Passed n start table key t)
    (hstop : table (slotAt n (start key) t') = none ∨
      table (slotAt n (start key) t') = some key) : t ≤ t' := by
  by_contra hlt
  obtain ⟨other, hslot, hne⟩ := h t' (Nat.lt_of_not_le hlt)
  rcases hstop with hnone | hsome
  · rw [hnone] at hslot
    cases hslot
  · rw [hsome] at hslot
    exact hne (Option.some.inj hslot).symm

/-- No key stands twice. -/
theorem Consistent.unique (h : Consistent n start table) {slot slot' : Nat} (hslot : slot < n)
    (hslot' : slot' < n) (hkey : table slot = some key) (hkey' : table slot' = some key) :
    slot = slot' := by
  obtain ⟨t, ht, rfl⟩ := h slot hslot key hkey
  obtain ⟨t', ht', rfl⟩ := h slot' hslot' key hkey'
  have heq : t = t' :=
    Nat.le_antisymm (ht.2.1.le (.inr ht'.2.2)) (ht'.2.1.le (.inr ht.2.2))
  rw [heq]

/-- A search that stops at an empty slot shows that the key is nowhere. -/
theorem Consistent.notMem (h : Consistent n start table) {t : Nat}
    (hpassed : Passed n start table key t) (hempty : table (slotAt n (start key) t) = none) :
    ∀ slot < n, table slot ≠ some key := by
  intro slot hslot hkey
  obtain ⟨t', ht', rfl⟩ := h slot hslot key hkey
  have heq : t = t' :=
    Nat.le_antisymm (hpassed.le (.inr ht'.2.2)) (ht'.2.1.le (.inl hempty))
  rw [heq, ht'.2.2] at hempty
  cases hempty

theorem extends_update {slot : Nat}
    (h : table slot = none ∨ table slot = some key) :
    Extends table (Function.update table slot (some key)) := by
  intro other k hk
  by_cases heq : other = slot
  · subst heq
    rw [Function.update_self]
    rcases h with hnone | hsome
    · rw [hnone] at hk
      cases hk
    · exact hsome.symm.trans hk
  · rw [Function.update_of_ne heq]
    exact hk

/-- Where the search for a key stops the key may be put. -/
theorem Consistent.update (h : Consistent n start table) {t : Nat} (ht : t < n)
    (hpassed : Passed n start table key t)
    (hstop : table (slotAt n (start key) t) = none ∨
      table (slotAt n (start key) t) = some key) :
    Consistent n start (Function.update table (slotAt n (start key) t) (some key)) := by
  have hext := extends_update hstop
  intro slot hslot k hk
  by_cases heq : slot = slotAt n (start key) t
  · rw [heq, Function.update_self] at hk
    cases hk
    exact ⟨t, ⟨ht, hpassed.mono hext, by rw [Function.update_self]⟩, heq⟩
  · rw [Function.update_of_ne heq] at hk
    obtain ⟨t', ht', hslot'⟩ := h slot hslot k hk
    exact ⟨t', ht'.mono hext, hslot'⟩

theorem consistent_empty : Consistent n start fun _ => none := fun _ _ _ hk => nomatch hk

/-! ## The cost of a search -/

variable {cost : K → Nat}

/-- The cost of passing the first `t` slots: one step and one comparison for each. -/
def passCost (n : Nat) (start : Nat) (table : Nat → Option K) (cost : K → Nat) : Nat → Nat
  | 0 => 0
  | t + 1 => passCost n start table cost t + 1 + (table (slotAt n start t)).elim 0 cost

theorem passCost_mono {start t t' : Nat} (h : t ≤ t') :
    passCost n start table cost t ≤ passCost n start table cost t' := by
  induction h with
  | refl => exact Nat.le_refl _
  | step _ ih =>
      rw [passCost]
      exact Nat.le_trans ih (by omega)

/-- Passed slots stay as they are, so that passing them again costs the same. -/
theorem passCost_extends {t : Nat} (h : Passed n start table key t)
    (hext : Extends table table') :
    passCost n (start key) table' cost t = passCost n (start key) table cost t := by
  induction t with
  | zero => rfl
  | succ t ih =>
      obtain ⟨other, hslot, -⟩ := h t (Nat.lt_succ_self t)
      have hrest := ih fun u hu => h u (Nat.lt_succ_of_lt hu)
      rw [passCost, passCost, hrest, hslot, hext _ _ hslot]

end Whale.Probing
