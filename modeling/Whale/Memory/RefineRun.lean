import Whale.Memory.Access

set_option autoImplicit false

/-! # Lifetimes, pointer arithmetic, and whole runs

The operations that do not touch bytes, and the two main results: one step of the tracked
memory is one step of the cells (`step_refines`), and so is a run of any length
(`run_refines`). -/

namespace Whale

/-! ## Allocation -/

/-- A new allocation: all bytes uninitialized. -/
def Allocation.fresh (kind : AllocationKind) (base size : Nat) : Allocation where
  kind := kind
  address := base
  generation := 0
  alive := true
  read := true
  write := true
  bytes := List.replicate size 0
  initialized := List.replicate size 0
  fragments := []
  history := []

/-- A new block: all cells uninitialized. -/
def Block.fresh (kind : AllocationKind) (base size : Nat) : Block where
  kind := kind
  base := base
  size := size
  live := true
  writable := true
  cells := fun _ => none

theorem blockRel_fresh (kind : AllocationKind) (base : Nat) {size : Nat}
    (hsize : size < wordBound) :
    BlockRel (Allocation.fresh kind base size) (Block.fresh kind base size) where
  kind := rfl
  base := rfl
  generation := rfl
  live := rfl
  read := rfl
  write := rfl
  unique := AssocMap.uniqueKeys_nil
  body _ :=
    { small := hsize
      bytes := List.length_replicate
      initialized := List.length_replicate
      cells := by
        intro i hi
        have hi' : i < size := hi
        have hzero : (List.replicate size (0 : UInt8))[i]? = some 0 := by
          rw [List.getElem?_replicate, if_pos hi']
        rw [Allocation.cell_eq (a := Allocation.fresh kind base size) hzero hzero, if_pos rfl]
        rfl
      fragments := by
        intro i f hf
        cases hf
      sound := by
        intro i content f hc
        cases hc }

variable {m : Memory} {σ : CellStore}

theorem Rel.push (h : Rel m σ) {a : Allocation} {b : Block} (hrel : BlockRel a b)
    (hfrag : a.fragments = []) (bytes next work : Nat) :
    Rel { m with allocations := m.allocations ++ [a], bytes := bytes, nextAddress := next,
                 work := work }
      { σ with blocks := σ.blocks ++ [b], next := next } where
  arena := h.arena
  next := rfl
  length := by
    simp only [List.length_append, List.length_singleton, h.length]
  block := by
    intro id a' b' ha hb
    rw [List.getElem?_append] at ha hb
    rw [h.length] at ha
    split at ha
    · rename_i hlt
      rw [if_pos hlt] at hb
      exact h.block id a' b' ha hb
    · rename_i hge
      rw [if_neg hge] at hb
      have hid : id - σ.blocks.length = 0 := by
        have := (List.getElem?_eq_some_iff.mp hb).1
        simp only [List.length_singleton] at this
        omega
      rw [hid] at ha hb
      cases ha
      cases hb
      exact hrel
  fragments := by
    simp only [totalFragments, List.map_append, List.sum_append, List.map_cons, List.map_nil,
      List.sum_cons, List.sum_nil, hfrag, List.length_nil, Nat.add_zero]
    exact h.fragments

/-- The pointer to a new allocation. -/
def freshPointer (arena id base size : Nat) : Pointer where
  address := UInt64.ofNat base
  capability := some
    { arena := arena, allocation := id, generation := 0, lower := 0, upper := size, offset := 0,
      read := true, write := true }

theorem CellStore.allocate_eq (σ : CellStore) (kind : AllocationKind) {size align base next : Nat}
    (hbase : Memory.placeAddress σ.next align = some base)
    (hnext : Memory.afterAddress base size = some next) :
    σ.allocate kind size align = some (freshPointer σ.arena σ.blocks.length base size,
      { σ with blocks := σ.blocks ++ [Block.fresh kind base size], next := next }) := by
  simp only [CellStore.allocate, hbase, hnext]
  rfl

/-- An allocation takes the next free addresses, or is refused for lack of them, or exhausts
a budget. -/
theorem allocate_run (h : Rel m σ) (size : Nat) {natural align : Nat}
    (halign : 0 < max align natural) (hwork : size * 2 + 1 < wordBound) :
    (∃ base next bytes work, Memory.placeAddress σ.next (max align natural) = some base ∧
        Memory.afterAddress base size = some next ∧
        Memory.allocate size natural align m =
          .ok (freshPointer σ.arena σ.blocks.length base size)
            { m with
              allocations := m.allocations ++ [Allocation.fresh .stack base size]
              bytes := bytes, nextAddress := next, work := work }) ∨
      (∃ t, Memory.allocate size natural align m = .error (.trap t) m ∧
        ∀ kind, σ.allocate kind size (max align natural) = none) ∨
      ∃ r l, Memory.allocate size natural align m = .error (.limit r l) m := by
  unfold Memory.allocate
  rw [bind_run_ok (get_run m), bind_run, require_run]
  -- The checks of the source in order; each failure is a limit or a trap of both sides.
  by_cases hcount : m.allocations.length < m.limits.maxAllocations
  swap
  · rw [if_neg hcount]
    exact Or.inr (Or.inr ⟨_, _, rfl⟩)
  rw [if_pos hcount]
  dsimp only
  rw [bind_run, orThrow_run]
  cases hbytes : (checkedAdd m.bytes size).filter (· ≤ m.limits.maxBytes) with
  | none => exact Or.inr (Or.inr ⟨_, _, rfl⟩)
  | some bytes =>
    dsimp only
    rw [bind_run, require_run, if_pos (by omega)]
    dsimp only
    rw [bind_run, orThrow_run, h.next]
    cases hbase : Memory.placeAddress σ.next (max align natural) with
    | none =>
        right; left
        exact ⟨_, rfl, fun kind => by simp only [CellStore.allocate, hbase]⟩
    | some base =>
      dsimp only
      rw [bind_run, orThrow_run]
      cases hnext : Memory.afterAddress base size with
      | none =>
          right; left
          exact ⟨_, rfl, fun kind => by simp only [CellStore.allocate, hbase, hnext]⟩
      | some next =>
        have hmul : checkedMul size 2 = some (size * 2) :=
          checkedMul_eq_some.mpr ⟨rfl, by omega⟩
        have hwork' : Memory.allocationWork size = some (size * 2 + 1) := by
          simp only [Memory.allocationWork, hmul, Option.bind_eq_bind, Option.bind_some]
          exact checkedAdd_eq_some.mpr ⟨rfl, hwork⟩
        dsimp only
        rw [bind_run, orThrow_run, hwork']
        dsimp only
        rcases charge_run m (size * 2 + 1) with ⟨w, hw⟩ | ⟨l, hl⟩
        · left
          refine ⟨base, next, bytes, w, rfl, hnext, ?_⟩
          rw [bind_run_ok hw, bind_run_ok (modify_run _ _), ← h.arena, ← h.length]
          rfl
        · rw [bind_run_error hl]
          exact Or.inr (Or.inr ⟨_, _, rfl⟩)

/-- An allocation that fits behind the others is smaller than the address space. -/
theorem size_lt_of_afterAddress {base size next : Nat}
    (h : Memory.afterAddress base size = some next) : size < wordBound := by
  unfold Memory.afterAddress at h
  rw [Option.bind_eq_bind, Option.bind_eq_some_iff] at h
  obtain ⟨a, ha, -⟩ := h
  obtain ⟨rfl, hlt⟩ := checkedAdd_eq_some.mp ha
  omega

theorem allocate_refines (h : Rel m σ) (size natural align : Nat) (halign : 0 < max align natural)
    (hwork : size * 2 + 1 < wordBound) :
    Outcome σ (.allocate size natural align) ((MemoryOp.allocate size natural align).run m) := by
  simp only [MemoryOp.run]
  rcases allocate_run h size halign hwork with
    ⟨base, next, bytes, w, hbase, hnext, hrun⟩ | ⟨t, hrun, hnone⟩ | ⟨r, l, hrun⟩
  · rw [bind_run_ok hrun]
    have hstep := σ.allocate_eq .stack hbase hnext
    exact ⟨_, by simp only [CellStore.step, hstep, Option.map_some],
      h.push (blockRel_fresh .stack base (size_lt_of_afterAddress hnext)) rfl bytes next w⟩
  · rw [bind_run_error hrun]
    exact ⟨by simp only [CellStore.step, hnone, Option.map_none], h⟩
  · rw [bind_run_error hrun]
    exact h

theorem modify_append_last {α : Type} (xs : List α) (x : α) (f : α → α) :
    (xs ++ [x]).modify xs.length f = xs ++ [f x] := by
  induction xs with
  | nil => rfl
  | cons y ys ih =>
      rw [List.cons_append, List.length_cons, List.modify_succ_cons, ih, List.cons_append]

theorem allocateGlobal_refines (h : Rel m σ) (size natural align : Nat)
    (halign : 0 < max align natural) (hwork : size * 2 + 1 < wordBound) :
    Outcome σ (.allocateGlobal size natural align)
      ((MemoryOp.allocateGlobal size natural align).run m) := by
  simp only [MemoryOp.run, Memory.allocateGlobal]
  rcases allocate_run h size halign hwork with
    ⟨base, next, bytes, w, hbase, hnext, hrun⟩ | ⟨t, hrun, hnone⟩ | ⟨r, l, hrun⟩
  · rw [bind_run, bind_run_ok hrun, bind_run, orThrow_run]
    dsimp only [freshPointer]
    rw [bind_run_ok (modify_run _ _)]
    have hstep := σ.allocate_eq .global hbase hnext
    refine ⟨_, by simp only [CellStore.step, hstep, Option.map_some]; rfl, ?_⟩
    dsimp only [Memory.update]
    rw [← h.length, modify_append_last]
    exact h.push (blockRel_fresh .global base (size_lt_of_afterAddress hnext)) rfl bytes next w
  · rw [bind_run, bind_run_error hrun]
    exact ⟨by simp only [CellStore.step, hnone, Option.map_none], h⟩
  · rw [bind_run, bind_run_error hrun]
    exact h

/-! ## Lifetime -/

theorem BlockRel.sealed {a : Allocation} {b : Block} (h : BlockRel a b) (writable : Bool) :
    BlockRel { a with write := writable } { b with writable := writable } where
  kind := h.kind
  base := h.base
  generation := h.generation
  live := h.live
  read := h.read
  write := rfl
  unique := h.unique
  body hlive :=
    have hbody := h.body hlive
    ⟨hbody.small, hbody.bytes, hbody.initialized, hbody.cells, hbody.fragments, hbody.sound⟩

theorem sealGlobal_refines (h : Rel m σ) (p : Pointer) (readonly : Bool) :
    Outcome σ (.sealGlobal p readonly) ((MemoryOp.sealGlobal p readonly).run m) := by
  simp only [MemoryOp.run, Memory.sealGlobal]
  rcases identity_spec h p with ⟨cap, b, hauth, hid⟩ | ⟨hauth, t, hid⟩
  · have hb := (CellStore.authority_eq_some.mp hauth).block
    obtain ⟨a, ha, hrel⟩ := h.allocation hb
    have hlook : Memory.look (Memory.allocation · cap.allocation) m = .ok a m := by
      simp only [look_run, Memory.allocation, ha, orThrow_some]
    rw [bind_run, bind_run, look_run, hid]
    dsimp only
    rw [bind_run_ok hlook, bind_run, require_run, hrel.kind]
    by_cases hkind : b.kind = .global
    · rw [if_pos hkind]
      dsimp only
      rw [bind_run_ok (modify_run _ _)]
      refine ⟨_, by simp only [CellStore.step, hauth, hkind, if_true]; rfl, ?_⟩
      exact h.update ha hb _ _ (hrel.sealed (!readonly)) rfl
    · rw [if_neg hkind]
      exact ⟨by simp only [CellStore.step, hauth, hkind, if_false], h⟩
  · rw [bind_run, bind_run, look_run, hid]
    exact ⟨by simp only [CellStore.step, hauth], h⟩

/-- The block at the end of its life. -/
def Block.dead (b : Block) : Block := { b with live := false }

theorem BlockRel.retired {a : Allocation} {b : Block} (h : BlockRel a b) :
    BlockRel a.retire b.dead := by
  unfold Allocation.retire
  by_cases hlive : a.alive = true
  · rw [if_pos hlive]
    exact ⟨h.kind, h.base, h.generation, rfl, h.read, h.write, AssocMap.uniqueKeys_nil,
      fun hl => by cases hl⟩
  · rw [if_neg hlive]
    exact ⟨h.kind, h.base, h.generation, (Bool.not_eq_true _).mp hlive, h.read, h.write, h.unique,
      fun hl => by cases hl⟩

/-- The end of one allocation's life; of a dead one, nothing changes. -/
theorem retireAllocation_run (h : Rel m σ) {id : Nat} {b : Block} (hb : σ.blocks[id]? = some b) :
    ∃ m', Memory.retireAllocation id m = .ok () m' ∧ Rel m' (σ.update id Block.dead) := by
  obtain ⟨a, ha, hrel⟩ := h.allocation hb
  have hlook : Memory.look (Memory.allocation · id) m = .ok a m := by
    simp only [look_run, Memory.allocation, ha, orThrow_some]
  unfold Memory.retireAllocation
  rw [bind_run_ok hlook]
  by_cases hlive : a.alive = true
  · rw [if_pos hlive, bind_run_ok (get_run m)]
    have hle : a.fragments.length ≤ m.fragments := by
      rw [h.fragments]
      exact fragments_le_total ha
    have hsub : checkedSub m.fragments a.fragments.length =
        some (m.fragments - a.fragments.length) := checkedSub_eq_some.mpr ⟨by omega, rfl⟩
    rw [bind_run, orThrow_run, hsub]
    refine ⟨_, rfl, h.update ha hb Allocation.retire Block.dead hrel.retired ?_⟩
    have hnil : a.retire.fragments = [] := by
      unfold Allocation.retire
      rw [if_pos hlive]
    rw [hnil, List.length_nil]
    omega
  · rw [if_neg hlive]
    have hretire : a.retire = a := if_neg hlive
    refine ⟨m, rfl, ?_⟩
    have hupdate := h.update ha hb (fun a => a) Block.dead (hretire ▸ hrel.retired) rfl
    have hmodify : m.allocations.modify id (fun a => a) = m.allocations := List.modify_id ..
    rw [Memory.update, hmodify] at hupdate
    exact hupdate

theorem retireStack_refines (h : Rel m σ) (p : Pointer) (ownerStart : Nat) :
    Outcome σ (.retireStack p ownerStart) ((MemoryOp.retireStack p ownerStart).run m) := by
  simp only [MemoryOp.run, Memory.retireStack]
  rcases identity_spec h p with ⟨cap, b, hauth, hid⟩ | ⟨hauth, t, hid⟩
  · have hholds := CellStore.authority_eq_some.mp hauth
    obtain ⟨a, ha, hrel⟩ := h.allocation hholds.block
    have hlook : Memory.look (Memory.allocation · cap.allocation) m = .ok a m := by
      simp only [look_run, Memory.allocation, ha, orThrow_some]
    rw [bind_run, bind_run, look_run, hid]
    dsimp only
    rw [bind_run_ok hlook, bind_run, require_run, hrel.kind, (hrel.body hholds.live).bytes]
    by_cases hall : ownerStart ≤ cap.allocation ∧ b.kind = .stack ∧ cap.offset = 0 ∧
        cap.lower = 0 ∧ cap.upper = b.size
    · rw [if_pos hall]
      dsimp only
      rcases charge_run m (1 + a.fragments.length) with ⟨w, hw⟩ | ⟨l, hl⟩
      · obtain ⟨m', hrun, hrel'⟩ := retireAllocation_run (h.charged w) hholds.block
        rw [bind_run_ok hw, hrun]
        exact ⟨_, by simp only [CellStore.step, hauth, hall, and_self, if_true]; rfl, hrel'⟩
      · rw [bind_run_error hl]
        exact h
    · rw [if_neg hall]
      exact ⟨by simp only [CellStore.step, hauth, hall, if_false], h⟩
  · rw [bind_run, bind_run, look_run, hid]
    exact ⟨by simp only [CellStore.step, hauth], h⟩

/-- What `retire_from` does to one block from the mark on. -/
def Block.leave (b : Block) : Block := if b.kind = .stack then b.dead else b

/-- The loop of `retire_from` ends the life of the stack blocks of the list. -/
theorem retireStacks_run (ids : List Nat) (h : Rel m σ) (hids : ∀ id ∈ ids, id < σ.blocks.length) :
    ∃ m', Memory.retireStacks ids m = .ok () m' ∧
      Rel m' (ids.foldl (fun σ id => σ.update id Block.leave) σ) := by
  induction ids generalizing m σ with
  | nil => exact ⟨m, rfl, h⟩
  | cons id ids ih =>
      have hid := hids id (by simp)
      have hb : σ.blocks[id]? = some σ.blocks[id] := List.getElem?_eq_getElem hid
      obtain ⟨a, ha, hrel⟩ := h.allocation hb
      have hlook : Memory.look (Memory.allocation · id) m = .ok a m := by
        simp only [look_run, Memory.allocation, ha, orThrow_some]
      have hrest : ∀ j ∈ ids, j < (σ.update id Block.leave).blocks.length := by
        intro j hj
        simp only [CellStore.update, List.length_modify]
        exact hids j (by simp [hj])
      unfold Memory.retireStacks
      rw [bind_run_ok hlook, hrel.kind]
      by_cases hkind : σ.blocks[id].kind = .stack
      · obtain ⟨m', hrun, hrel'⟩ := retireAllocation_run h hb
        have hleave : σ.update id Block.leave = σ.update id Block.dead :=
          σ.update_congr hb Block.leave (if_pos hkind)
        rw [← hleave] at hrel'
        rw [if_pos hkind, bind_run_ok hrun]
        exact ih hrel' hrest
      · have hleave : σ.update id Block.leave = σ := by
          have hsame : σ.update id Block.leave = σ.update id fun b => b :=
            σ.update_congr hb Block.leave (show σ.blocks[id].leave = _ from if_neg hkind)
          have hmodify : σ.blocks.modify id (fun b => b) = σ.blocks := List.modify_id ..
          rw [hsame, CellStore.update, hmodify]
        rw [← hleave] at h
        rw [if_neg hkind]
        exact ih h hrest

theorem blocks_foldl_leave (ids : List Nat) (σ : CellStore) (hnodup : ids.Nodup) (i : Nat) :
    (ids.foldl (fun σ id => σ.update id Block.leave) σ).blocks[i]? =
      if i ∈ ids then σ.blocks[i]?.map Block.leave else σ.blocks[i]? := by
  induction ids generalizing σ with
  | nil => simp
  | cons id ids ih =>
      obtain ⟨hnot, hnodup⟩ := List.nodup_cons.mp hnodup
      rw [List.foldl_cons, ih _ hnodup]
      simp only [CellStore.update, List.getElem?_modify, List.mem_cons]
      by_cases hi : id = i
      · subst hi
        simp only [hnot, if_false, if_true, true_or]
        rfl
      · have hi' : ¬ i = id := fun he => hi he.symm
        simp only [hi, hi', if_false, false_or, Option.map_eq_map, Option.map_id']

theorem foldl_leave_header (ids : List Nat) (σ : CellStore) :
    (ids.foldl (fun σ id => σ.update id Block.leave) σ).arena = σ.arena ∧
      (ids.foldl (fun σ id => σ.update id Block.leave) σ).next = σ.next := by
  induction ids generalizing σ with
  | nil => exact ⟨rfl, rfl⟩
  | cons id ids ih => exact ih (σ.update id Block.leave)

theorem foldl_leave_eq {start count : Nat} (hlen : start + count = σ.blocks.length) :
    (List.range' start count).foldl (fun σ id => σ.update id Block.leave) σ =
      { σ with blocks := σ.blocks.mapIdx fun id b =>
          if start ≤ id ∧ b.kind = .stack then { b with live := false } else b } := by
  obtain ⟨harena, hnext⟩ := foldl_leave_header (List.range' start count) σ
  have hblocks : ((List.range' start count).foldl (fun σ id => σ.update id Block.leave) σ).blocks =
      σ.blocks.mapIdx fun id b =>
        if start ≤ id ∧ b.kind = .stack then { b with live := false } else b := by
    apply List.ext_getElem?
    intro i
    rw [blocks_foldl_leave _ _ List.nodup_range', List.getElem?_mapIdx]
    simp only [List.mem_range'_1]
    cases hb : σ.blocks[i]? with
    | none => simp
    | some b =>
        have hi := (List.getElem?_eq_some_iff.mp hb).1
        by_cases hs : start ≤ i
        · rw [if_pos (by omega)]
          simp only [Option.map_some, hs, true_and]
          rfl
        · rw [if_neg (by omega)]
          simp only [Option.map_some, hs, false_and, if_false]
  cases hσ : (List.range' start count).foldl (fun σ id => σ.update id Block.leave) σ with
  | mk arena blocks next =>
      rw [hσ] at harena hnext hblocks
      simp only at harena hnext hblocks
      rw [harena, hnext, hblocks]

theorem retireFrom_refines (h : Rel m σ) {start : Nat} (hstart : start ≤ σ.blocks.length) :
    Outcome σ (.retireFrom start) ((MemoryOp.retireFrom start).run m) := by
  simp only [MemoryOp.run, Memory.retireFrom]
  have hlen : start + (m.allocations.length - start) = σ.blocks.length := by
    rw [h.length]
    omega
  have hsub : checkedSub m.allocations.length start = some (m.allocations.length - start) :=
    checkedSub_eq_some.mpr ⟨by rw [h.length]; exact hstart, rfl⟩
  rw [bind_run, bind_run_ok (get_run m), bind_run, orThrow_run, hsub]
  dsimp only
  rcases charge_run m (m.allocations.length - start) with ⟨w, hw⟩ | ⟨l, hl⟩
  · have hids : ∀ id ∈ List.range' start (m.allocations.length - start),
        id < σ.blocks.length := by
      intro id hid
      rw [List.mem_range'_1] at hid
      omega
    obtain ⟨m', hrun, hrel⟩ := retireStacks_run _ (h.charged w) hids
    rw [foldl_leave_eq hlen] at hrel
    rw [bind_run_ok hw, hrun]
    exact ⟨_, rfl, hrel⟩
  · rw [bind_run_error hl]
    exact h

/-! ## Pointer arithmetic -/

theorem checkedI128_eq {v : Int} (h : -2 ^ 127 ≤ v ∧ v < 2 ^ 127) : checkedI128 v = some v :=
  if_pos h

theorem checkedI128_eq_none {v : Int} (h : v < -2 ^ 127 ∨ 2 ^ 127 ≤ v) :
    checkedI128 v = none := by
  unfold checkedI128
  rw [if_neg (by omega)]

/-- The operands of a step: an integer index for a stride that is not `0`. -/
def StepValid (e : GepStep × ConstValue) : Prop :=
  ∀ stride, e.1 = .stride stride → 0 < stride ∧ ((∃ v, e.2 = .i v) ∨ ∃ v, e.2 = .u v)

/-- The offset of a step is its mathematical value, unless it is too large for any address. -/
theorem gepDelta_spec {e : GepStep × ConstValue} (h : StepValid e) :
    Memory.gepDelta e.1 e.2 = .ok (stepBytes e.1 e.2) ∨
      (Memory.gepDelta e.1 e.2 = .error (.trap .addressOverflow) ∧
        (stepBytes e.1 e.2 < -2 ^ 127 ∨ 2 ^ 127 ≤ stepBytes e.1 e.2)) := by
  obtain ⟨step, index⟩ := e
  cases step with
  | field offset => exact Or.inl rfl
  | stride stride =>
      obtain ⟨hpos, hindex⟩ := h stride rfl
      have hstride : (1 : Int) ≤ stride := by omega
      have hmul : ∀ i : Int, Memory.gepIndex index = .ok i → indexValue index = i →
          Memory.gepDelta (.stride stride) index = .ok (stepBytes (.stride stride) index) ∨
          (Memory.gepDelta (.stride stride) index = .error (.trap .addressOverflow) ∧
            (stepBytes (.stride stride) index < -2 ^ 127 ∨
              2 ^ 127 ≤ stepBytes (.stride stride) index)) := by
        intro i hi hv
        simp only [Memory.gepDelta, hi, ok_bind, stepBytes, hv]
        by_cases hrange : -2 ^ 127 ≤ i * stride ∧ i * stride < 2 ^ 127
        · rw [checkedI128_eq hrange]
          exact Or.inl rfl
        · rw [checkedI128_eq_none (by omega)]
          exact Or.inr ⟨rfl, by omega⟩
      rcases hindex with ⟨v, hv⟩ | ⟨v, hv⟩
      · obtain rfl : index = .i v := hv
        exact hmul v.toInt rfl rfl
      · obtain rfl : index = .u v := hv
        -- An index from `2 ^ 127` on overflows with any stride of at least one.
        by_cases hbig : (v.toNat : Int) < 2 ^ 127
        · refine hmul v.toNat ?_ rfl
          simp only [Memory.gepIndex]
          rw [checkedI128_eq ⟨by omega, hbig⟩]
          rfl
        · right
          constructor
          · simp only [Memory.gepDelta, Memory.gepIndex]
            rw [checkedI128_eq_none (by omega)]
            rfl
          · right
            have hle : (v.toNat : Int) * 1 ≤ v.toNat * stride :=
              Int.mul_le_mul_of_nonneg_left hstride (by omega)
            show (2 : Int) ^ 127 ≤ v.toNat * stride
            omega

/-- The loop of `gep` walks the addresses. -/
theorem gepOffset_spec {base : Int} (hbase : 0 ≤ base ∧ base < wordBound)
    (steps : List (GepStep × ConstValue)) (hsteps : ∀ e ∈ steps, StepValid e) (offset : Int)
    (haddress : 0 ≤ base + offset ∧ base + offset < wordBound) :
    (∃ r, walkAddress (base + offset) (steps.map fun e => stepBytes e.1 e.2) = some (base + r) ∧
        Memory.gepOffset base offset steps = .ok r ∧ 0 ≤ base + r ∧ base + r < wordBound) ∨
      (walkAddress (base + offset) (steps.map fun e => stepBytes e.1 e.2) = none ∧
        ∃ t, Memory.gepOffset base offset steps = .error (.trap t)) := by
  have hword : (wordBound : Int) = 2 ^ 64 := rfl
  -- The address so far is `base + offset`; each step leaves it a word or traps.
  induction steps generalizing offset with
  | nil => exact Or.inl ⟨offset, rfl, rfl, haddress⟩
  | cons e steps ih =>
      obtain ⟨step, index⟩ := e
      have hstep := gepDelta_spec (hsteps (step, index) (by simp))
      simp only [List.map_cons, walkAddress, Memory.gepOffset]
      rcases hstep with hdelta | ⟨hdelta, hbig⟩
      · simp only [hdelta, ok_bind]
        by_cases hin : 0 ≤ base + offset + stepBytes step index ∧
            base + offset + stepBytes step index < wordBound
        · rw [if_pos hin, checkedI128_eq (by omega)]
          simp only [orThrow_some, ok_bind]
          rw [checkedI128_eq (by omega)]
          simp only [orThrow_some, ok_bind]
          rw [require_of (by omega), Int.add_assoc]
          exact ih (fun e he => hsteps e (by simp [he])) _ (by omega)
        · rw [if_neg hin]
          right
          refine ⟨rfl, .addressOverflow, ?_⟩
          by_cases h₁ : -2 ^ 127 ≤ offset + stepBytes step index ∧
              offset + stepBytes step index < 2 ^ 127
          · rw [checkedI128_eq h₁]
            simp only [orThrow_some, ok_bind]
            by_cases h₂ : -2 ^ 127 ≤ base + (offset + stepBytes step index) ∧
                base + (offset + stepBytes step index) < 2 ^ 127
            · rw [checkedI128_eq h₂]
              simp only [orThrow_some, ok_bind]
              rw [require_of_not (by omega)]
              rfl
            · rw [checkedI128_eq_none (by omega)]
              rfl
          · rw [checkedI128_eq_none (by omega)]
            rfl
      · right
        rw [if_neg (by simp only at hbig; omega), hdelta]
        exact ⟨rfl, _, rfl⟩

theorem gep_refines (h : Rel m σ) (p : Pointer) (plan : List GepStep) (indices : List ConstValue)
    (hvalid : ∀ e ∈ plan.zip indices, StepValid e) :
    Outcome σ (.gep p plan indices) ((MemoryOp.gep p plan indices).run m) := by
  simp only [MemoryOp.run, Memory.gep]
  by_cases hempty : indices = []
  · subst hempty
    exact ⟨σ, rfl, h⟩
  have hne : ¬ indices.isEmpty = true := by simpa using hempty
  rw [bind_run, look_run, if_neg hne]
  rcases identity_spec h p with ⟨cap, b, hauth, hid⟩ | ⟨hauth, t, hid⟩
  swap
  · rw [hid]
    refine ⟨?_, h⟩
    simp only [CellStore.step, CellStore.gep, hempty, if_false, hauth, Option.map_none]
  have hholds := CellStore.authority_eq_some.mp hauth
  obtain ⟨a, ha, hrel⟩ := h.allocation hholds.block
  have hsmall := (hrel.body hholds.live).small
  have hupper := hholds.upper
  have haddr := hholds.base
  have hword : (p.address.toNat : Int) < wordBound := by
    have := p.address.toNat_lt
    unfold wordBound
    omega
  have hstart : (p.address.toNat : Int) - cap.offset + cap.offset = p.address.toNat := by omega
  rw [hid]
  simp only [ok_bind]
  have hbase : 0 ≤ (p.address.toNat : Int) - cap.offset ∧
      (p.address.toNat : Int) - cap.offset < wordBound := by omega
  rcases gepOffset_spec hbase (plan.zip indices) hvalid cap.offset (by omega) with
    ⟨r, hwalk, hrun, hr⟩ | ⟨hwalk, t, hrun⟩
  · rw [hstart] at hwalk
    have hoffset : (cap.offset : Int) +
        ((p.address.toNat : Int) - cap.offset + r - p.address.toNat) = r := by omega
    rw [hrun]
    simp only [ok_bind]
    by_cases hbounds : cap.lower ≤ r ∧ r ≤ cap.upper
    · rw [require_of (by omega : 0 ≤ r ∧ r < wordBound)]
      simp only [ok_bind]
      rw [require_of hbounds]
      simp only [ok_bind]
      rw [require_of hr]
      refine ⟨σ, ?_, h⟩
      simp only [CellStore.step, CellStore.gep, hempty, if_false, hauth, hwalk, hoffset, hbounds,
        and_self, if_true, Option.map_some]
    · have hnone : σ.step (.gep p plan indices) = none := by
        simp only [CellStore.step, CellStore.gep, hempty, if_false, hauth, hwalk, hoffset,
          hbounds, Option.map_none]
      -- Out of bounds the offset may be no word at all; both end in a trap.
      by_cases hpos : 0 ≤ r ∧ r < (wordBound : Int)
      · rw [require_of hpos]
        simp only [ok_bind]
        rw [require_of_not hbounds]
        exact ⟨hnone, h⟩
      · rw [require_of_not hpos]
        exact ⟨hnone, h⟩
  · rw [hstart] at hwalk
    rw [hrun]
    exact ⟨by simp only [CellStore.step, CellStore.gep, hempty, if_false, hauth, hwalk,
      Option.map_none], h⟩

/-! ## Steps and runs -/

/-- The work an operation asks for, which no budget covers from `2 ^ 64` on. -/
def MemoryOp.demand (m : Memory) : MemoryOp → Nat
  | .allocate size _ _ | .allocateGlobal size _ _ => size * 2 + 1
  | .copy _ src size _ =>
      match src.capability.bind fun cap => m.allocations[cap.allocation]? with
      | some a => size * 4 + m.capacity a.history
      | none => 0
  | .set _ _ size _ => size * 2
  | _ => 0

/-- One operation of the tracked memory is one step of the cells. -/
theorem step_refines (h : Rel m σ) (op : MemoryOp) (hvalid : op.Valid σ)
    (hdemand : op.demand m < wordBound) : Outcome σ op (op.run m) := by
  cases op with
  | allocate size natural align => exact allocate_refines h size natural align hvalid hdemand
  | allocateGlobal size natural align =>
      exact allocateGlobal_refines h size natural align hvalid hdemand
  | sealGlobal p readonly => exact sealGlobal_refines h p readonly
  | retireStack p ownerStart => exact retireStack_refines h p ownerStart
  | retireFrom start => exact retireFrom_refines h hvalid
  | gep p plan indices => exact gep_refines h p plan indices hvalid
  | load p ty align signature => exact load_refines h p hvalid.1 hvalid.2 signature
  | store p ty value align => exact store_refines h p hvalid
  | copy dst src size align =>
      refine copy_refines h dst src size hvalid ?_
      intro cap a hcap ha
      simp only [MemoryOp.demand, hcap, Option.bind_some, ha] at hdemand
      exact hdemand
  | set dst byte size align => exact set_refines h dst byte size hvalid hdemand
  | uninit p size align => exact uninit_refines h p size hvalid

/-- The results of operations performed in a row, and the memory after them. A failed
operation does not end the run. -/
def Memory.runOps (m : Memory) : List MemoryOp → List (Except Fault MemoryOutput) × Memory
  | [] => ([], m)
  | op :: ops =>
      match op.run m with
      | .ok out m' => (.ok out :: (runOps m' ops).1, (runOps m' ops).2)
      | .error e m' => (.error e :: (runOps m' ops).1, (runOps m' ops).2)

/-- The results of operations on the cells; a refused operation changes nothing. -/
def CellStore.runOps (σ : CellStore) : List MemoryOp → List (Option MemoryOutput) × CellStore
  | [] => ([], σ)
  | op :: ops =>
      match σ.step op with
      | some (out, σ') => (some out :: (runOps σ' ops).1, (runOps σ' ops).2)
      | none => (none :: (runOps σ ops).1, (runOps σ ops).2)

/-- Every operation of the run has the operands its caller must provide. -/
def CellStore.ValidRun (σ : CellStore) : List MemoryOp → Prop
  | [] => True
  | op :: ops => op.Valid σ ∧
      match σ.step op with
      | some (_, σ') => ValidRun σ' ops
      | none => ValidRun σ ops

/-- No operation of the run exhausts a budget. -/
def Memory.WithinBudget (m : Memory) : List MemoryOp → Prop
  | [] => True
  | op :: ops => op.demand m < wordBound ∧
      match op.run m with
      | .ok _ m' => WithinBudget m' ops
      | .error (.limit _ _) _ => False
      | .error _ m' => WithinBudget m' ops

/-- A success with the same result, or a trap where the cells refuse. -/
def Agrees : Except Fault MemoryOutput → Option MemoryOutput → Prop
  | .ok out, some out' => out = out'
  | .error (.trap _), none => True
  | _, _ => False

/-- Runs of related memories agree in every result and end related. -/
theorem runOps_refines (ops : List MemoryOp) (h : Rel m σ) (hvalid : σ.ValidRun ops)
    (hbudget : m.WithinBudget ops) :
    List.Forall₂ Agrees (m.runOps ops).1 (σ.runOps ops).1 ∧
      Rel (m.runOps ops).2 (σ.runOps ops).2 := by
  induction ops generalizing m σ with
  | nil => exact ⟨.nil, h⟩
  | cons op ops ih =>
      obtain ⟨hop, hrest⟩ := hvalid
      obtain ⟨hdemand, hbudget⟩ := hbudget
      have hstep := step_refines h op hop hdemand
      simp only [Memory.runOps, CellStore.runOps]
      cases hrun : op.run m with
      | ok out m' =>
          rw [hrun] at hstep hbudget
          obtain ⟨σ', hσ, hrel⟩ := hstep
          rw [hσ] at hrest ⊢
          obtain ⟨hall, hfinal⟩ := ih hrel hrest hbudget
          exact ⟨.cons rfl hall, hfinal⟩
      | error e m' =>
          rw [hrun] at hstep hbudget
          cases e with
          | trap t =>
              obtain ⟨hσ, hrel⟩ := hstep
              rw [hσ] at hrest ⊢
              obtain ⟨hall, hfinal⟩ := ih hrel hrest hbudget
              exact ⟨.cons trivial hall, hfinal⟩
          | limit r l => exact hbudget.elim
          | panic => exact hstep.elim

/-- The tracked memory refines the cells: whatever operations are performed on it, from the
empty memory on and within its budgets, each gives the result the cells give, a trap exactly
where they refuse; and in the cells an access succeeds under the expected conditions. -/
theorem Memory.run_refines (arena : Nat) (capacity : List MapOp → Nat) (limits : MemoryLimits)
    (ops : List MemoryOp) (hvalid : (CellStore.empty arena).ValidRun ops)
    (hbudget : (Memory.new arena capacity limits).WithinBudget ops) :
    List.Forall₂ Agrees ((Memory.new arena capacity limits).runOps ops).1
        ((CellStore.empty arena).runOps ops).1 ∧
      Rel ((Memory.new arena capacity limits).runOps ops).2
        ((CellStore.empty arena).runOps ops).2 ∧
      ((CellStore.empty arena).runOps ops).2.Accesses := by
  obtain ⟨hall, hrel⟩ := runOps_refines ops (rel_new arena capacity limits) hvalid hbudget
  exact ⟨hall, hrel, CellStore.accesses _⟩

/-- A slot for a checked result, and one for a pointer to it. -/
def pairSlot : Pointer := freshPointer 0 0 0x1000 8
def pointerSlot : Pointer := freshPointer 0 1 0x1010 8

/-- Store a checked result and a pointer to it, load both, cut the pointer, load it again. -/
def slotOps : List MemoryOp :=
  [.allocate 8 4 4, .allocate 8 8 8,
    .store pairSlot (.tuple [.u32, .bool]) (.checked (.u 7) true) 4,
    .load pairSlot (.tuple [.u32, .bool]) 4 none,
    .store pointerSlot (.ptr .u32) (.pointer pairSlot) 8,
    .load pointerSlot (.ptr .u32) 8 none,
    .set pointerSlot 0 1 1,
    .load pointerSlot (.ptr .u32) 8 none,
    .copy pairSlot pointerSlot 8 4,
    .uninit pointerSlot 8 8,
    .load pointerSlot (.ptr .u32) 8 none]

theorem Memory.run_refines_slotOps :
    List.Forall₂ Agrees ((Memory.new 0 (fun _ => 0) .default).runOps slotOps).1
        ((CellStore.empty 0).runOps slotOps).1 ∧
      Rel ((Memory.new 0 (fun _ => 0) .default).runOps slotOps).2
        ((CellStore.empty 0).runOps slotOps).2 ∧
      ((CellStore.empty 0).runOps slotOps).2.Accesses := by
  refine Memory.run_refines 0 (fun _ => 0) .default slotOps ?_ ?_
  · have h4 : 0 < max 4 4 := by decide
    have h8 : 0 < max 8 8 := by decide
    have hone : 0 < 1 := by decide
    exact ⟨h4, h8, ⟨rfl, h4, trivial⟩, ⟨rfl, h4⟩, ⟨rfl, h8, trivial⟩, ⟨rfl, h8⟩, hone, ⟨rfl, h8⟩,
      h4, h8, ⟨rfl, h8⟩, trivial⟩
  · have h17 : 17 < wordBound := by decide
    have h32 : 32 < wordBound := by decide
    have h2 : 2 < wordBound := by decide
    have h0 : 0 < wordBound := by decide
    exact ⟨h17, h17, h0, h0, h0, h0, h2, h0, h32, h0, h0, trivial⟩

/-- A load of a checked result succeeds although a byte of its range, in the gap behind the
flag, is uninitialized. -/
theorem Memory.load_skips_gap : ∃ m m',
    ((Memory.new 0 (fun _ => 0) .default).runOps (slotOps.take 3)).2 = m ∧
      m.access pairSlot 8 4 false = .ok (0, 0, 8) ∧
      (m.allocations[0]?.bind fun a => a.initialized[5]?) = some 0 ∧
      (MemoryOp.load pairSlot (.tuple [.u32, .bool]) 4 none).run m =
        .ok (.value (.checked (.u 7) true)) m' :=
  ⟨_, _, rfl, rfl, rfl, rfl⟩

end Whale
