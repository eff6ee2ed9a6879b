import Whale.Memory.Cells

set_option autoImplicit false

/-! # Tracked memory refines the cells

The tracked memory keeps bytes, initialization and fragments apart. `Rel` relates it to a
store of cells: the cell of a position is read off the three (`Allocation.cell`), fragments
stand on initialized bytes only, and every fragment agrees with the byte it stands on
(`Block.Sound`). Each operation keeps the relation and does what the abstract operation
does, unless a budget is exhausted (`step_refines`); so does every run (`run_refines`). -/

namespace Whale

/-! ## The relation -/

/-- The cell at position `i` of an allocation. -/
def Allocation.cell (a : Allocation) (i : Nat) : Cell :=
  match a.initialized[i]?, a.bytes[i]? with
  | some flag, some byte => if flag = 0 then none else some ⟨byte, a.fragments.get i⟩
  | _, _ => none

/-- A tagged cell holds the byte of the pointer it is tagged with. -/
def Block.Sound (b : Block) : Prop :=
  ∀ i content f, b.cells i = some content → content.tag = some f →
    f.byte < 8 ∧ content.byte = UInt8.ofNat (f.pointer.bits.toNat / 256 ^ f.byte)

/-- A live allocation holds the cells of its block. -/
structure Body (a : Allocation) (b : Block) : Prop where
  small : b.size < wordBound
  bytes : a.bytes.length = b.size
  initialized : a.initialized.length = b.size
  cells : ∀ i < b.size, b.cells i = a.cell i
  fragments : ∀ i f, a.fragments.get i = some f → i < b.size ∧ b.tag i = some f
  sound : b.Sound

structure BlockRel (a : Allocation) (b : Block) : Prop where
  kind : a.kind = b.kind
  base : a.address = b.base
  generation : a.generation = 0
  live : a.alive = b.live
  read : a.read = true
  write : a.write = b.writable
  unique : a.fragments.UniqueKeys
  body : b.live = true → Body a b

/-- The number of fragments of all allocations. -/
def totalFragments (as : List Allocation) : Nat := (as.map fun a => a.fragments.length).sum

structure Rel (m : Memory) (σ : CellStore) : Prop where
  arena : m.arena = σ.arena
  next : m.nextAddress = σ.next
  length : m.allocations.length = σ.blocks.length
  block : ∀ (id : Nat) a b, m.allocations[id]? = some a → σ.blocks[id]? = some b → BlockRel a b
  fragments : m.fragments = totalFragments m.allocations

theorem rel_new (arena : Nat) (capacity : List MapOp → Nat) (limits : MemoryLimits) :
    Rel (Memory.new arena capacity limits) (CellStore.empty arena) where
  arena := rfl
  next := rfl
  length := rfl
  block := by
    intro id a b h
    simp [Memory.new] at h
  fragments := rfl

variable {σ : CellStore}

variable {m : Memory} {id : Nat}

/-- Related memories have allocations and blocks at the same places. -/
theorem Rel.allocation (h : Rel m σ) {b : Block} (hb : σ.blocks[id]? = some b) :
    ∃ a, m.allocations[id]? = some a ∧ BlockRel a b := by
  have hid : id < m.allocations.length := by
    rw [h.length]
    exact (List.getElem?_eq_some_iff.mp hb).1
  refine ⟨m.allocations[id], List.getElem?_eq_getElem hid, ?_⟩
  exact h.block id _ b (List.getElem?_eq_getElem hid) hb

theorem Rel.blocks_none (h : Rel m σ) (hb : σ.blocks[id]? = none) : m.allocations[id]? = none := by
  rw [List.getElem?_eq_none_iff] at hb ⊢
  rw [h.length]
  exact hb

variable {a : Allocation}

theorem totalFragments_modify {as : List Allocation} (f : Allocation → Allocation)
    (h : as[id]? = some a) :
    totalFragments (as.modify id f) + a.fragments.length =
      totalFragments as + (f a).fragments.length := by
  induction as generalizing id with
  | nil => simp at h
  | cons x as ih =>
      cases id with
      | zero =>
          simp only [List.getElem?_cons_zero, Option.some.injEq] at h
          subst h
          simp only [totalFragments, List.modify_zero_cons, List.map_cons, List.sum_cons]
          omega
      | succ id =>
          have := ih (by simpa using h)
          simp only [totalFragments, List.modify_succ_cons, List.map_cons, List.sum_cons] at this ⊢
          omega

theorem fragments_le_total {as : List Allocation} (h : as[id]? = some a) :
    a.fragments.length ≤ totalFragments as := by
  have := totalFragments_modify (fun a => { a with fragments := [] }) h
  simp only [List.length_nil] at this
  omega

/-- Changing one allocation and its block keeps the relation, when the two still correspond
and the counter is adjusted. -/
theorem Rel.update (h : Rel m σ) {b : Block} (ha : m.allocations[id]? = some a)
    (hb : σ.blocks[id]? = some b) (f : Allocation → Allocation) (g : Block → Block) {count : Nat}
    (hrel : BlockRel (f a) (g b))
    (hcount : count + a.fragments.length = m.fragments + (f a).fragments.length) :
    Rel { m.update id f with fragments := count } (σ.update id g) where
  arena := h.arena
  next := h.next
  length := by
    simp only [Memory.update, CellStore.update, List.length_modify]
    exact h.length
  block := by
    intro j a' b' ha' hb'
    simp only [Memory.update, CellStore.update, List.getElem?_modify] at ha' hb'
    by_cases hj : id = j
    · subst hj
      simp only [ha, hb, if_true, Option.map_eq_map, Option.map_some, Option.some.injEq] at ha' hb'
      subst ha' hb'
      exact hrel
    · simp only [hj, if_false, Option.map_eq_map, Option.map_id'] at ha' hb'
      exact h.block j a' b' ha' hb'
  fragments := by
    have := totalFragments_modify f ha
    have := h.fragments
    simp only [Memory.update]
    omega

/-! ## Looking -/

theorem charge_run (m : Memory) (n : Nat) :
    (∃ w, Memory.charge n m = .ok () { m with work := w }) ∨
      ∃ l, Memory.charge n m = .error (.limit .work l) m := by
  unfold Memory.charge
  rw [bind_run_ok (get_run m), bind_run, orThrow_run]
  cases h : (checkedAdd m.work n).filter (· ≤ m.limits.maxWork) with
  | none => exact Or.inr ⟨_, rfl⟩
  | some w => exact Or.inl ⟨w, rfl⟩

theorem look_run {α : Type} (f : Memory → Except Fault α) (m : Memory) :
    Memory.look f m = match f m with
      | .ok a => .ok a m
      | .error e => .error e m := rfl

/-- Charging does not touch what is related. -/
theorem Rel.charged (h : Rel m σ) (w : Nat) : Rel { m with work := w } σ :=
  ⟨h.arena, h.next, h.length, h.block, h.fragments⟩

/-- What the memory knows about a pointer is its authority. -/
theorem identity_spec (h : Rel m σ) (p : Pointer) :
    (∃ cap b, σ.authority p = some (cap, b) ∧ m.identity p = .ok (cap.allocation, cap)) ∨
      (σ.authority p = none ∧ ∃ t, m.identity p = .error (.trap t)) := by
  unfold Memory.identity CellStore.authority
  by_cases h0 : p.address = 0
  · right
    refine ⟨?_, _, if_pos h0⟩
    split
    · rfl
    · split
      · rfl
      · exact if_neg fun hall => hall.1 h0
  · rw [if_neg h0]
    cases hcap : p.capability with
    | none => exact Or.inr ⟨rfl, _, rfl⟩
    | some cap =>
        by_cases harena : cap.arena = m.arena
        · simp only [harena, ne_eq, not_true_eq_false, if_false]
          cases hb : σ.blocks[cap.allocation]? with
          | none =>
              rw [h.blocks_none hb]
              exact Or.inr ⟨rfl, _, rfl⟩
          | some b =>
              obtain ⟨a, ha, hrel⟩ := h.allocation hb
              rw [ha]
              simp only [hrel.live, hrel.generation, hrel.base]
              by_cases hlive : b.live = true ∧ cap.generation = 0
              · obtain ⟨hlive, hgen⟩ := hlive
                have hbytes := (hrel.body hlive).bytes
                have hadd : checkedAdd b.base cap.offset = some p.address.toNat ↔
                    p.address.toNat = b.base + cap.offset := by
                  rw [checkedAdd_eq_some]
                  have := p.address.toNat_lt
                  unfold wordBound
                  omega
                simp only [hlive, hgen, Bool.true_eq_false, not_true_eq_false, or_false,
                  if_false, hbytes, hadd, h.arena, h0, not_false_eq_true, true_and]
                by_cases hall : cap.lower ≤ cap.offset ∧ cap.offset ≤ cap.upper ∧
                    cap.upper ≤ b.size ∧ p.address.toNat = b.base + cap.offset
                · left
                  refine ⟨cap, b, if_pos hall, ?_⟩
                  rw [if_neg (by omega)]
                · right
                  refine ⟨if_neg hall, _, if_pos (by omega)⟩
              · right
                refine ⟨if_neg ?_, .expiredAllocation, ?_⟩
                · rintro ⟨-, -, hgen, hlive', -⟩
                  exact hlive ⟨hlive', hgen⟩
                rw [if_pos]
                by_cases hl : b.live = true
                · exact Or.inr fun hg => hlive ⟨hl, hg.symm⟩
                · exact Or.inl (by simpa using hl)
        · right
          constructor
          · dsimp only
            split
            · rfl
            · refine if_neg ?_
              rintro ⟨-, ha, -⟩
              exact harena (ha.trans h.arena.symm)
          · exact ⟨_, if_pos harena⟩

/-- An access of the memory succeeds exactly when it is granted. -/
theorem access_spec (h : Rel m σ) (p : Pointer) (n : Nat) {align : Nat} (halign : 0 < align)
    (write : Bool) :
    (∃ cap b, σ.grant p n align write = some (cap, b) ∧
        m.access p n align write = .ok (cap.allocation, cap.offset, cap.offset + n)) ∨
      (σ.grant p n align write = none ∧ ∃ t, m.access p n align write = .error (.trap t)) := by
  unfold Memory.access CellStore.grant
  rcases identity_spec h p with ⟨cap, b, hauth, hid⟩ | ⟨hauth, t, hid⟩
  · rw [hauth, hid]
    have hholds := CellStore.authority_eq_some.mp hauth
    obtain ⟨a, ha, hrel⟩ := h.allocation hholds.block
    have hsmall := (hrel.body hholds.live).small
    have hupper := hholds.upper
    simp only [ok_bind]
    cases hadd : checkedAdd cap.offset n with
    | none =>
        right
        refine ⟨if_neg ?_, _, rfl⟩
        rintro ⟨hrange, -⟩
        unfold checkedAdd at hadd
        split at hadd
        · cases hadd
        · omega
    | some stop =>
        obtain ⟨rfl, -⟩ := checkedAdd_eq_some.mp hadd
        simp only [orThrow_some, ok_bind]
        -- The range, the permission and the alignment are checked in this order.
        by_cases hrange : cap.offset + n ≤ cap.upper
        · rw [require_of hrange]
          simp only [ok_bind, Memory.allocation, ha, orThrow_some]
          have hperm : ((if write = true then cap.write && a.write else cap.read && a.read) = true)
              ↔ (if write = true then cap.write = true ∧ b.writable = true
                  else cap.read = true) := by
            cases write <;> simp [hrel.write, hrel.read]
          by_cases hp : (if write = true then cap.write = true ∧ b.writable = true
              else cap.read = true)
          · rw [require_of (hperm.mpr hp)]
            simp only [ok_bind]
            rw [require_of (by omega : align ≠ 0)]
            simp only [ok_bind]
            by_cases hal : p.address.toNat % align = 0
            · rw [require_of hal]
              exact Or.inl ⟨cap, b, if_pos ⟨hrange, hp, hal⟩, rfl⟩
            · rw [require_of_not hal]
              exact Or.inr ⟨if_neg fun hall => hal hall.2.2, _, rfl⟩
          · rw [require_of_not (fun hh => hp (hperm.mp hh))]
            exact Or.inr ⟨if_neg fun hall => hp hall.2.1, _, rfl⟩
        · rw [require_of_not hrange]
          exact Or.inr ⟨if_neg fun hall => hrange hall.1, _, rfl⟩
  · rw [hauth, hid]
    exact Or.inr ⟨rfl, t, rfl⟩

/-! ## Writing a range -/

variable {start : Nat}

/-- Writing a range of an allocation and of its block. The allocation is unchanged outside
the range and holds the written cells inside it. -/
theorem Body.write {a a' : Allocation} {b : Block} (h : Body a b) {start n : Nat}
    {f : Nat → Cell} (hrange : start + n ≤ b.size)
    (hbytes : a'.bytes.length = a.bytes.length)
    (hinit : a'.initialized.length = a.initialized.length)
    (hout : ∀ i, i < start ∨ start + n ≤ i → a'.bytes[i]? = a.bytes[i]? ∧
      a'.initialized[i]? = a.initialized[i]? ∧ a'.fragments.get i = a.fragments.get i)
    (hin : ∀ j < n, a'.cell (start + j) = f j ∧
      a'.fragments.get (start + j) = (f j).bind Content.tag)
    (hsound : ∀ j < n, ∀ content g, f j = some content → content.tag = some g →
      g.byte < 8 ∧ content.byte = UInt8.ofNat (g.pointer.bits.toNat / 256 ^ g.byte)) :
    Body a' (b.write start n f) where
  small := h.small
  bytes := hbytes.trans h.bytes
  initialized := hinit.trans h.initialized
  cells := by
    intro i hi
    by_cases hmem : start ≤ i ∧ i < start + n
    · have := (hin (i - start) (by omega)).1
      rw [Nat.add_sub_cancel' hmem.1] at this
      simp only [Block.write, hmem, and_self, if_true, this]
    · obtain ⟨h₁, h₂, h₃⟩ := hout i (by omega)
      simp only [Block.write, hmem, if_false]
      rw [h.cells i hi]
      simp only [Allocation.cell, h₁, h₂, h₃]
  fragments := by
    intro i g hg
    by_cases hmem : start ≤ i ∧ i < start + n
    · have := (hin (i - start) (by omega)).2
      rw [Nat.add_sub_cancel' hmem.1, hg] at this
      refine ⟨by simp only [Block.write]; omega, ?_⟩
      simp only [Block.tag, Block.write, hmem, and_self, if_true, ← this]
    · rw [(hout i (by omega)).2.2] at hg
      obtain ⟨hi, htag⟩ := h.fragments i g hg
      refine ⟨hi, ?_⟩
      simp only [Block.tag, Block.write, hmem, if_false]
      exact htag
  sound := by
    intro i content g hc hg
    by_cases hmem : start ≤ i ∧ i < start + n
    · simp only [Block.write, hmem, and_self, if_true] at hc
      exact hsound (i - start) (by omega) content g hc hg
    · simp only [Block.write, hmem, if_false] at hc
      exact h.sound i content g hc hg

/-- A cell without a fragment has no tag, and the other way round. -/
theorem Body.get_eq_tag {b : Block} (h : Body a b) {i : Nat} (hi : i < b.size) :
    a.fragments.get i = b.tag i := by
  cases hg : a.fragments.get i with
  | some g => exact (h.fragments i g hg).2.symm
  | none =>
      have hbytes : i < a.bytes.length := by rw [h.bytes]; exact hi
      have hinit : i < a.initialized.length := by rw [h.initialized]; exact hi
      rw [Block.tag, h.cells i hi, Allocation.cell, List.getElem?_eq_getElem hinit,
        List.getElem?_eq_getElem hbytes, hg]
      dsimp only
      split <;> rfl

/-- New fragments for a range: one for each key, all keys in the range. -/
structure RangeFragments (start stop : Nat) (new : List (Nat × Fragment)) : Prop where
  unique : AssocMap.UniqueKeys new
  range : ∀ e ∈ new, start ≤ e.1 ∧ e.1 < stop

theorem rangeFragments_nil (start stop : Nat) : RangeFragments start stop [] :=
  ⟨AssocMap.uniqueKeys_nil, by simp⟩

variable {new : List (Nat × Fragment)}

theorem get_replaced {start stop : Nat} (h : RangeFragments start stop new) (i : Nat) :
    (a.replaced start stop new).fragments.get i =
      if start ≤ i ∧ i < stop then AssocMap.get i new else a.fragments.get i := by
  simp only [Allocation.replaced, AssocMap.get_extend h.unique, AssocMap.get_retain]
  by_cases hi : start ≤ i ∧ i < stop
  · simp [hi]
  · have hnew : AssocMap.get i new = none := by
      rw [AssocMap.get_eq_none_iff]
      intro hmem
      obtain ⟨e, he, rfl⟩ := List.mem_map.mp hmem
      exact hi (h.range e he)
    simp [hi, hnew]

theorem length_replaced (a : Allocation) {start stop : Nat} (h : RangeFragments start stop new) :
    (a.replaced start stop new).fragments.length +
        (a.fragments.filter fun e => start ≤ e.1 ∧ e.1 < stop).length =
      a.fragments.length + new.length := by
  have hkeep := AssocMap.length_retain_add (fun i => decide (start ≤ i ∧ i < stop)) a.fragments
  have hlen := AssocMap.length_extend new
    (a.fragments.retain fun i => !decide (start ≤ i ∧ i < stop)) h.unique (by
      intro k hk hmem
      obtain ⟨e, he, rfl⟩ := List.mem_map.mp hk
      obtain ⟨e', he', hkey⟩ := List.mem_map.mp hmem
      have := (List.mem_filter.mp he').2
      have hr := h.range e he
      rw [hkey] at this
      simp only [hr, and_self, decide_true, Bool.not_true, Bool.false_eq_true] at this)
  simp only [Allocation.replaced]
  omega

theorem unique_replaced (start stop : Nat) (new : List (Nat × Fragment))
    (h : a.fragments.UniqueKeys) : (a.replaced start stop new).fragments.UniqueKeys :=
  AssocMap.uniqueKeys_extend new (AssocMap.uniqueKeys_retain _ h)

/-- `replace_fragments` replaces the fragments of the range, or a budget is exhausted. -/
theorem replaceFragments_run (m : Memory) (ha : m.allocations[id]? = some a)
    (hcount : m.fragments = totalFragments m.allocations) {start stop : Nat}
    (h : RangeFragments start stop new) :
    (∃ w count, count + a.fragments.length =
          m.fragments + (a.replaced start stop new).fragments.length ∧
        Memory.replaceFragments id start stop new m =
          .ok () { m.update id (·.replaced start stop new) with
            fragments := count, work := w }) ∨
      ∃ resource l w, Memory.replaceFragments id start stop new m =
        .error (.limit resource l) { m with work := w } := by
  unfold Memory.replaceFragments
  rw [bind_run_ok (get_run m)]
  have hlook : Memory.look (Memory.allocation · id) m = .ok a m := by
    simp only [look_run, Memory.allocation, ha, orThrow_some]
  rw [bind_run_ok hlook]
  rcases charge_run m (3 * m.capacity a.history + new.length) with ⟨w, hw⟩ | ⟨l, hl⟩
  · rw [bind_run_ok hw]
    have hlen := length_replaced a h
    have htotal := fragments_le_total ha
    have hfilter : (a.fragments.filter fun e => start ≤ e.1 ∧ e.1 < stop).length ≤
        a.fragments.length := List.length_filter_le _ _
    have hsub : checkedSub m.fragments
        (a.fragments.filter fun e => start ≤ e.1 ∧ e.1 < stop).length =
        some (m.fragments -
          (a.fragments.filter fun e => start ≤ e.1 ∧ e.1 < stop).length) :=
      checkedSub_eq_some.mpr ⟨by omega, rfl⟩
    rw [bind_run, orThrow_run, hsub]
    dsimp only
    rw [bind_run, require_run]
    -- The count loses the fragments in the range and gains the new ones.
    by_cases hmax : m.fragments -
        (a.fragments.filter fun e => start ≤ e.1 ∧ e.1 < stop).length + new.length ≤
        m.limits.maxPointerFragments
    · rw [if_pos hmax]
      left
      refine ⟨w, _, ?_, rfl⟩
      omega
    · rw [if_neg hmax]
      exact Or.inr ⟨_, _, w, rfl⟩
  · rw [bind_run_error hl]
    exact Or.inr ⟨_, _, m.work, rfl⟩

end Whale
