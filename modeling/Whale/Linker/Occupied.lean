import Mathlib.Data.List.Pairwise
import Mathlib.Data.List.TakeWhile
import Whale.Linker.Relocation

set_option autoImplicit false

/-! # The occupied fields

The ends of the patches are kept in the order of their keys, and a new patch is compared with its
two neighbours only. As the entries are apart, that finds every overlap (`overlaps_iff`). -/

namespace Whale.Linker

/-! ## Prefixes of sorted lists -/

section Prefix

variable {α : Type} {p : α → Bool} {l : List α}

/-- Where `p` holds of everything in front of an element it holds of, `takeWhile` is a filter. -/
theorem mem_takeWhile_iff (hdown : l.Pairwise fun a b => p b = true → p a = true) {a : α} :
    a ∈ l.takeWhile p ↔ a ∈ l ∧ p a = true := by
  constructor
  · exact fun h => ⟨(l.takeWhile_subset p) h, List.mem_takeWhile_imp h⟩
  · rintro ⟨hmem, ha⟩
    induction l with
    | nil => cases hmem
    | cons b l ih =>
        obtain ⟨hfirst, hrest⟩ := List.pairwise_cons.mp hdown
        rcases List.mem_cons.mp hmem with rfl | hmem
        · rw [List.takeWhile_cons_of_pos ha]
          exact List.mem_cons_self
        · rw [List.takeWhile_cons_of_pos (hfirst a hmem ha)]
          exact List.mem_cons_of_mem b (ih hrest hmem)

theorem mem_dropWhile_iff (hdown : l.Pairwise fun a b => p b = true → p a = true) {a : α} :
    a ∈ l.dropWhile p ↔ a ∈ l ∧ p a = false := by
  induction l with
  | nil => simp
  | cons b l ih =>
      obtain ⟨hfirst, hrest⟩ := List.pairwise_cons.mp hdown
      cases hb : p b with
      | true =>
          rw [List.dropWhile_cons_of_pos hb, ih hrest, List.mem_cons]
          constructor
          · exact fun ⟨hmem, ha⟩ => ⟨.inr hmem, ha⟩
          · rintro ⟨rfl | hmem, ha⟩
            · rw [hb] at ha
              cases ha
            · exact ⟨hmem, ha⟩
      | false =>
          rw [List.dropWhile_cons_of_neg (by simp [hb])]
          constructor
          · intro hmem
            refine ⟨hmem, ?_⟩
            rcases List.mem_cons.mp hmem with rfl | hmem
            · exact hb
            · by_contra hne
              rw [hfirst a hmem (by simpa using hne)] at hb
              cases hb
          · exact fun h => h.1

theorem rel_getLast? {R : α → α → Prop} (hsorted : l.Pairwise R) {z : α}
    (hz : l.getLast? = some z) : z ∈ l ∧ ∀ a ∈ l, a = z ∨ R a z := by
  obtain ⟨front, rfl⟩ := List.getLast?_eq_some_iff.mp hz
  refine ⟨by simp, fun a ha => ?_⟩
  rcases List.mem_append.mp ha with ha | ha
  · exact .inr ((List.pairwise_append.mp hsorted).2.2 a ha z List.mem_cons_self)
  · exact .inl (List.mem_singleton.mp ha)

theorem rel_head? {R : α → α → Prop} (hsorted : l.Pairwise R) {z : α} (hz : l.head? = some z) :
    z ∈ l ∧ ∀ a ∈ l, a = z ∨ R z a := by
  obtain ⟨rest, rfl⟩ := List.head?_eq_some_iff.mp hz
  refine ⟨List.mem_cons_self, fun a ha => ?_⟩
  rcases List.mem_cons.mp ha with rfl | ha
  · exact .inl rfl
  · exact .inr ((List.pairwise_cons.mp hsorted).1 a ha)

end Prefix

/-! ## The order of the keys -/

namespace PatchKey

theorem lt_iff {a b : PatchKey} : PatchKey.lt a b = true ↔
    a.1 < b.1 ∨ a.1 = b.1 ∧ (a.2.1 < b.2.1 ∨ a.2.1 = b.2.1 ∧ a.2.2 < b.2.2) := by
  simp [PatchKey.lt]

theorem not_lt_iff {a b : PatchKey} : PatchKey.lt a b = false ↔
    b.1 < a.1 ∨ b.1 = a.1 ∧ (b.2.1 < a.2.1 ∨ b.2.1 = a.2.1 ∧ b.2.2 ≤ a.2.2) := by
  rw [← Bool.not_eq_true, lt_iff]
  omega

theorem eq_iff {a b : PatchKey} : a = b ↔ a.1 = b.1 ∧ a.2.1 = b.2.1 ∧ a.2.2 = b.2.2 := by
  rw [Prod.ext_iff, Prod.ext_iff]

theorem lt_trans {a b c : PatchKey} (hab : PatchKey.lt a b = true) (hbc : PatchKey.lt b c = true) :
    PatchKey.lt a c = true := by
  rw [lt_iff] at *
  omega

end PatchKey

/-! ## Fields -/

/-- The entry and the field from `key` to `stop` are in one section and share a byte. -/
def Touches (key : PatchKey) (stop : Nat) (e : PatchKey × Nat) : Prop :=
  e.1.1 = key.1 ∧ e.1.2.1 = key.2.1 ∧ e.1.2.2 < stop ∧ key.2.2 < e.2

namespace Occupied

/-- The entries are in order, not empty and apart. -/
structure Ordered (occupied : Occupied) : Prop where
  sorted : occupied.Pairwise fun a b => PatchKey.lt a.1 b.1 = true
  filled : ∀ e ∈ occupied, e.1.2.2 < e.2
  apart : occupied.Pairwise fun a b => ¬ Touches a.1 a.2 b

variable {occupied : Occupied} {key : PatchKey} {stop : Nat}

theorem ordered_nil : Ordered [] := ⟨.nil, nofun, .nil⟩

/-- The entry before the field touches it if any entry that does not start behind it does. -/
theorem before_iff (h : occupied.Ordered) :
    ((occupied.takeWhile fun e => !PatchKey.lt key e.1).getLast?).any
        (fun e => e.1.1 = key.1 && e.1.2.1 = key.2.1 && e.2 > key.2.2) = true ↔
      ∃ e ∈ occupied, PatchKey.lt key e.1 = false ∧ e.1.1 = key.1 ∧ e.1.2.1 = key.2.1 ∧
        key.2.2 < e.2 := by
  have hdown : occupied.Pairwise fun a b =>
      (!PatchKey.lt key b.1) = true → (!PatchKey.lt key a.1) = true := by
    refine h.sorted.imp fun {a b} hab hb => ?_
    rw [Bool.not_eq_true', PatchKey.not_lt_iff] at *
    rw [PatchKey.lt_iff] at hab
    omega
  have hmem : ∀ e, e ∈ occupied.takeWhile (fun e => !PatchKey.lt key e.1) ↔
      e ∈ occupied ∧ PatchKey.lt key e.1 = false := by
    intro e
    rw [mem_takeWhile_iff hdown, Bool.not_eq_true']
  have hsorted := h.sorted.sublist (List.takeWhile_sublist fun e => !PatchKey.lt key e.1)
  have hapart := h.apart.sublist (List.takeWhile_sublist fun e => !PatchKey.lt key e.1)
  generalize occupied.takeWhile (fun e => !PatchKey.lt key e.1) = front at *
  constructor
  · intro hany
    cases hlast : front.getLast? with
    | none =>
        rw [hlast] at hany
        cases hany
    | some z =>
        rw [hlast] at hany
        simp only [Option.any_some, Bool.and_eq_true, decide_eq_true_eq] at hany
        obtain ⟨hz, hle⟩ := (hmem z).mp (rel_getLast? hsorted hlast).1
        exact ⟨z, hz, hle, hany.1.1, hany.1.2, hany.2⟩
  · rintro ⟨e, he, hle, hobject, hsection, hend⟩
    have hfront := (hmem e).mpr ⟨he, hle⟩
    cases hlast : front.getLast? with
    | none =>
        rw [List.getLast?_eq_none_iff.mp hlast] at hfront
        cases hfront
    | some z =>
        obtain ⟨hz, hbelow⟩ := rel_getLast? hsorted hlast
        simp only [Option.any_some, Bool.and_eq_true, decide_eq_true_eq]
        rcases hbelow e hfront with rfl | hlt
        · exact ⟨⟨hobject, hsection⟩, hend⟩
        -- Between the entry and the field lies the last one, which the entry does not reach.
        · have hgap := (rel_getLast? hapart hlast).2 e hfront
          have hzle := ((hmem z).mp hz).2
          have hfilled := h.filled z ((hmem z).mp hz).1
          rw [PatchKey.lt_iff] at hlt
          rw [PatchKey.not_lt_iff] at hzle
          rcases hgap with rfl | hgap
          · omega
          · unfold Touches at hgap
            omega

/-- The entry behind the field touches it if any entry that does not start before it does. -/
theorem after_iff (h : occupied.Ordered) :
    ((occupied.dropWhile fun e => PatchKey.lt e.1 key).head?).any
        (fun e => e.1.1 = key.1 && e.1.2.1 = key.2.1 && e.1.2.2 < stop) = true ↔
      ∃ e ∈ occupied, PatchKey.lt e.1 key = false ∧ e.1.1 = key.1 ∧ e.1.2.1 = key.2.1 ∧
        e.1.2.2 < stop := by
  have hdown : occupied.Pairwise fun a b =>
      PatchKey.lt b.1 key = true → PatchKey.lt a.1 key = true :=
    h.sorted.imp fun hab hb => PatchKey.lt_trans hab hb
  have hmem : ∀ e, e ∈ occupied.dropWhile (fun e => PatchKey.lt e.1 key) ↔
      e ∈ occupied ∧ PatchKey.lt e.1 key = false := fun e => mem_dropWhile_iff hdown
  have hsorted := h.sorted.sublist (List.dropWhile_sublist fun e => PatchKey.lt e.1 key)
  generalize occupied.dropWhile (fun e => PatchKey.lt e.1 key) = back at *
  constructor
  · intro hany
    cases hhead : back.head? with
    | none =>
        rw [hhead] at hany
        cases hany
    | some z =>
        rw [hhead] at hany
        simp only [Option.any_some, Bool.and_eq_true, decide_eq_true_eq] at hany
        obtain ⟨hz, hle⟩ := (hmem z).mp (rel_head? hsorted hhead).1
        exact ⟨z, hz, hle, hany.1.1, hany.1.2, hany.2⟩
  · rintro ⟨e, he, hle, hobject, hsection, hstart⟩
    have hback := (hmem e).mpr ⟨he, hle⟩
    cases hhead : back.head? with
    | none =>
        rw [List.head?_eq_none_iff.mp hhead] at hback
        cases hback
    | some z =>
        obtain ⟨hz, habove⟩ := rel_head? hsorted hhead
        simp only [Option.any_some, Bool.and_eq_true, decide_eq_true_eq]
        rcases habove e hback with rfl | hlt
        · exact ⟨⟨hobject, hsection⟩, hstart⟩
        · have hzle := ((hmem z).mp hz).2
          rw [PatchKey.lt_iff] at hlt
          rw [PatchKey.not_lt_iff] at hzle
          omega

/-- The two neighbours tell whether any entry touches the field. -/
theorem overlaps_iff (h : occupied.Ordered) (hstop : key.2.2 < stop) :
    occupied.overlaps key stop = true ↔ ∃ e ∈ occupied, Touches key stop e := by
  show (_ || _) = true ↔ _
  rw [Bool.or_eq_true, before_iff h, after_iff h]
  constructor
  · rintro (⟨e, he, hle, hobject, hsection, hend⟩ | ⟨e, he, hle, hobject, hsection, hstart⟩)
    · refine ⟨e, he, hobject, hsection, ?_, hend⟩
      rw [PatchKey.not_lt_iff] at hle
      omega
    · refine ⟨e, he, hobject, hsection, hstart, ?_⟩
      have hfilled := h.filled e he
      rw [PatchKey.not_lt_iff] at hle
      omega
  · rintro ⟨e, he, hobject, hsection, hstart, hend⟩
    cases hlt : PatchKey.lt key e.1 with
    | false => exact .inl ⟨e, he, hlt, hobject, hsection, hend⟩
    | true =>
        refine .inr ⟨e, he, ?_, hobject, hsection, hstart⟩
        rw [PatchKey.lt_iff] at hlt
        rw [PatchKey.not_lt_iff]
        omega

/-! ## Insertion -/

theorem mem_insert (hnew : ∀ e ∈ occupied, e.1 ≠ key) {e : PatchKey × Nat} :
    e ∈ occupied.insert key stop ↔ e = (key, stop) ∨ e ∈ occupied := by
  induction occupied with
  | nil => exact List.mem_cons
  | cons a occupied ih =>
      have hrest := ih fun e he => hnew e (List.mem_cons_of_mem a he)
      unfold Occupied.insert
      split
      · exact List.mem_cons
      · rw [if_neg (Ne.symm (hnew a List.mem_cons_self)), List.mem_cons, List.mem_cons, hrest]
        exact or_left_comm

/-- A field that touches no entry has a key of its own. -/
theorem Ordered.fresh (h : occupied.Ordered) (hstop : key.2.2 < stop)
    (hnot : ∀ e ∈ occupied, ¬ Touches key stop e) : ∀ e ∈ occupied, e.1 ≠ key := by
  rintro e he rfl
  exact hnot e he ⟨rfl, rfl, hstop, h.filled e he⟩

/-- A field that touches no entry goes to its place between them. -/
theorem Ordered.insert (h : occupied.Ordered) (hstop : key.2.2 < stop)
    (hnot : ∀ e ∈ occupied, ¬ Touches key stop e) : (occupied.insert key stop).Ordered := by
  have hnew := h.fresh hstop hnot
  induction occupied with
  | nil =>
      refine ⟨List.pairwise_singleton _ _, ?_, List.pairwise_singleton _ _⟩
      intro e he
      rw [List.mem_singleton.mp he]
      exact hstop
  | cons a occupied ih =>
      obtain ⟨hsorted, hsorted'⟩ := List.pairwise_cons.mp h.sorted
      obtain ⟨hapart, hapart'⟩ := List.pairwise_cons.mp h.apart
      have hrest := ih ⟨hsorted', fun e he => h.filled e (List.mem_cons_of_mem a he), hapart'⟩
        (fun e he => hnot e (List.mem_cons_of_mem a he))
        fun e he => hnew e (List.mem_cons_of_mem a he)
      unfold Occupied.insert
      -- The new key goes before the first larger one, and it touches neither neighbour.
      by_cases hlt : PatchKey.lt key a.1 = true
      · rw [if_pos hlt]
        refine ⟨?_, ?_, ?_⟩
        · refine List.pairwise_cons.mpr ⟨fun e he => ?_, h.sorted⟩
          rcases List.mem_cons.mp he with rfl | he
          · exact hlt
          · exact PatchKey.lt_trans hlt (hsorted e he)
        · intro e he
          rcases List.mem_cons.mp he with rfl | he
          · exact hstop
          · exact h.filled e he
        · exact List.pairwise_cons.mpr ⟨hnot, h.apart⟩
      · rw [if_neg hlt, if_neg (Ne.symm (hnew a List.mem_cons_self))]
        have hmem : ∀ e, e ∈ Occupied.insert key stop occupied ↔ e = (key, stop) ∨ e ∈ occupied :=
          fun e => mem_insert fun e he => hnew e (List.mem_cons_of_mem a he)
        refine ⟨?_, ?_, ?_⟩
        · refine List.pairwise_cons.mpr ⟨fun e he => ?_, hrest.sorted⟩
          rcases (hmem e).mp he with rfl | he
          · have hne := hnew a List.mem_cons_self
            show PatchKey.lt a.1 key = true
            rw [Ne, PatchKey.eq_iff] at hne
            rw [PatchKey.lt_iff] at hlt ⊢
            omega
          · exact hsorted e he
        · intro e he
          rcases List.mem_cons.mp he with rfl | he
          · exact h.filled e List.mem_cons_self
          · exact hrest.filled e he
        · refine List.pairwise_cons.mpr ⟨fun e he => ?_, hrest.apart⟩
          rcases (hmem e).mp he with rfl | he
          · intro ⟨hobject, hsection, hstart, hend⟩
            exact hnot a List.mem_cons_self ⟨hobject.symm, hsection.symm, hend, hstart⟩
          · exact hapart e he

end Occupied

end Whale.Linker
