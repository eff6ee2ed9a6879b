import Mathlib.Algebra.Order.Ring.Int
import Mathlib.Data.List.Forall2
import Mathlib.Tactic.Common

set_option autoImplicit false

/-! # Who owns the cells of a growing store

Activations are opened and closed like a stack and numbered in the order in which they are opened.
The cells of a store that grows at its end belong to the activation that was innermost when they
were added; the cells that were there before have no owner.

Each active activation has a start: the length of the store when it was opened. Since numbers
grow, the cells behind the start are those of the activation itself and of all younger ones
(`Ledger.Sound`), whether these are still active or not. -/

namespace Whale

structure Ledger where
  /-- The activations that have not been closed, the innermost first. -/
  active : List Nat
  /-- The owner of each cell. -/
  owners : List (Option Nat)
  /-- The number of the next activation. -/
  created : Nat
  deriving DecidableEq

namespace Ledger

/-- One activation, and `n` cells that were there before. -/
def start (n : Nat) : Ledger := ⟨[0], List.replicate n none, 1⟩

def opened (l : Ledger) : Ledger := { l with active := l.created :: l.active, created := l.created + 1 }

def closed (l : Ledger) : Ledger := { l with active := l.active.tail }

/-- `n` more cells for the innermost activation. -/
def grown (l : Ledger) (n : Nat) : Ledger :=
  { l with owners := l.owners ++ List.replicate n l.active.head? }

/-- Behind the start of an activation are its own cells and those of younger ones. -/
def Region (owners : List (Option Nat)) (act start : Nat) : Prop :=
  start ≤ owners.length ∧ ∀ (id : Nat) (owner : Option Nat), owners[id]? = some owner →
    (start ≤ id ↔ ∃ a, owner = some a ∧ act ≤ a)

/-- The starts of the active activations fit the owners. -/
structure Sound (l : Ledger) (starts : List Nat) : Prop where
  regions : List.Forall₂ (Region l.owners) l.active starts
  descending : l.active.Pairwise (· > ·)
  active_lt : ∀ a ∈ l.active, a < l.created
  owner_lt : ∀ a, some a ∈ l.owners → a < l.created

variable {l : Ledger} {starts : List Nat}

theorem sound_start (n : Nat) : (start n).Sound [n] where
  regions := by
    refine .cons ⟨(List.length_replicate ..).symm.le, fun id owner h => ?_⟩ .nil
    obtain ⟨hlt, howner⟩ := List.getElem?_eq_some_iff.mp h
    have hid : id < n := lt_of_lt_of_eq hlt (List.length_replicate ..)
    have hnone : none = owner := (List.getElem_replicate ..).symm.trans howner
    rw [← hnone]
    constructor
    · intro hn
      omega
    · rintro ⟨a, ha, -⟩
      cases ha
  descending := List.pairwise_singleton _ _
  active_lt := by
    intro a ha
    rw [List.mem_singleton.mp ha]
    exact Nat.zero_lt_one
  owner_lt := by
    intro a ha
    cases List.eq_of_mem_replicate ha

/-- A new activation starts at the end of the store. -/
theorem Sound.opened (h : l.Sound starts) : l.opened.Sound (l.owners.length :: starts) where
  regions := by
    refine .cons ⟨le_rfl, fun id owner hid => ?_⟩ h.regions
    have hlt := (List.getElem?_eq_some_iff.mp hid).1
    constructor
    · intro hle
      exact absurd hlt (Nat.not_lt.mpr hle)
    · rintro ⟨a, rfl, ha⟩
      exact absurd (h.owner_lt a (List.mem_of_getElem? hid)) (Nat.not_lt.mpr ha)
  descending := List.pairwise_cons.mpr ⟨h.active_lt, h.descending⟩
  active_lt := by
    intro a ha
    rcases List.mem_cons.mp ha with rfl | ha
    · exact Nat.lt_succ_self _
    · exact Nat.lt_succ_of_lt (h.active_lt a ha)
  owner_lt := fun a ha => Nat.lt_succ_of_lt (h.owner_lt a ha)

theorem Sound.closed (h : l.Sound starts) : l.closed.Sound starts.tail where
  regions := by
    have hregions := h.regions
    show List.Forall₂ _ l.active.tail starts.tail
    generalize l.active = active at hregions ⊢
    cases hregions with
    | nil => exact .nil
    | cons _ hrest => exact hrest
  descending := h.descending.sublist (List.tail_sublist _)
  active_lt := fun a ha => h.active_lt a (List.mem_of_mem_tail ha)
  owner_lt := h.owner_lt

/-- The innermost activation is the youngest active one. -/
theorem Sound.le_head (h : l.Sound starts) {act : Nat} {outer : List Nat}
    (hact : l.active = act :: outer) {a : Nat} (ha : a ∈ l.active) : a ≤ act := by
  have hdesc := h.descending
  rw [hact] at hdesc ha
  rcases List.mem_cons.mp ha with rfl | ha
  · exact le_rfl
  · exact Nat.le_of_lt (List.rel_of_pairwise_cons hdesc ha)

/-- The region of an activation that is at most as young as the innermost one grows with it. -/
theorem Region.grown {owners : List (Option Nat)} {a start act : Nat} (h : Region owners a start)
    (hle : a ≤ act) (n : Nat) : Region (owners ++ List.replicate n (some act)) a start := by
  refine ⟨h.1.trans (by rw [List.length_append]; exact Nat.le_add_right _ _), fun id owner hid => ?_⟩
  by_cases hlt : id < owners.length
  · rw [List.getElem?_append_left hlt] at hid
    exact h.2 id owner hid
  · have hge : owners.length ≤ id := Nat.not_lt.mp hlt
    rw [List.getElem?_append_right hge] at hid
    have howner := List.eq_of_mem_replicate (List.mem_of_getElem? hid)
    exact ⟨fun _ => ⟨act, howner, hle⟩, fun _ => h.1.trans hge⟩

theorem Sound.grown (h : l.Sound starts) (hactive : l.active ≠ []) (n : Nat) :
    (l.grown n).Sound starts := by
  obtain ⟨act, outer, hact⟩ := List.exists_cons_of_ne_nil hactive
  have hhead : l.active.head? = some act := by rw [hact, List.head?_cons]
  refine ⟨?_, h.descending, h.active_lt, fun a ha => ?_⟩
  · show List.Forall₂ (Region (l.owners ++ List.replicate n l.active.head?)) _ _
    rw [hhead]
    have hboth := (List.forall₂_and_left _ _).mpr
      ⟨fun a ha => h.le_head hact ha, h.regions⟩
    exact hboth.imp fun a start hregion => hregion.2.grown hregion.1 n
  · have hmem : some a ∈ l.owners ++ List.replicate n l.active.head? := ha
    rcases List.mem_append.mp hmem with hold | hnew
    · exact h.owner_lt a hold
    · have heq : some a = some act := (List.eq_of_mem_replicate hnew).trans hhead
      cases heq
      exact h.active_lt act (hact ▸ List.mem_cons_self)

/-- Behind the start of the innermost activation, an owner that is active is this activation. -/
theorem Sound.innermost (h : l.Sound starts) {act start : Nat} {outer rest : List Nat}
    (hact : l.active = act :: outer) (hstart : starts = start :: rest) {id : Nat}
    {owner : Option Nat} (hid : l.owners[id]? = some owner) :
    start ≤ id ↔ ∃ a, owner = some a ∧ act ≤ a := by
  have hregions := h.regions
  rw [hact, hstart] at hregions
  exact (List.forall₂_cons.mp hregions).1.2 id owner hid

end Ledger

end Whale
