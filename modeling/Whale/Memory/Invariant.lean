import Whale.Lib.Span
import Whale.Memory.Atomic

set_option autoImplicit false

/-! # The representation invariant of tracked memory

What every memory that operations lead to satisfies: the fragment counter is the number of
fragments, fragments stand on initialized bytes, allocations never share an address, not
even with an allocation that has ended, what has ended is empty, and no counter is over its
budget (`Memory.Invariant`). Addresses are a matter of the cells (`CellStore.Apart`) and come
down through the refinement; budgets and ended allocations the cells do not know, and
`Tidy` follows them through the operations of the tracked memory. -/

namespace Whale

/-! ## Addresses -/

/-- The addresses of the blocks ever made, each with the one past its end. -/
def CellStore.extents (σ : CellStore) : List (Nat × Nat) :=
  σ.blocks.map fun b => (b.base, b.size + 1)

/-- Blocks follow one another in the address space, below the next free address. -/
def CellStore.Apart (σ : CellStore) : Prop := Ascending 0x1000 σ.extents σ.next

/-- The addresses an operation takes for good, from what it was asked for and what it
returned. -/
def MemoryOp.taken : MemoryOp → MemoryOutput → List (Nat × Nat)
  | .allocate size _ _, .pointer p | .allocateGlobal size _ _, .pointer p =>
      [(p.address.toNat, size + 1)]
  | _, _ => []

theorem le_placeAddress {next align base : Nat} (h : Memory.placeAddress next align = some base) :
    next ≤ base := by
  unfold Memory.placeAddress at h
  obtain ⟨a, ha, rfl⟩ := Option.map_eq_some_iff.mp h
  obtain ⟨rfl, -⟩ := checkedAdd_eq_some.mp ha
  have hand : (next + (align - 1)) &&& (align - 1) ≤ align - 1 := Nat.and_le_right
  unfold alignDown
  omega

theorem afterAddress_eq {base size next : Nat} (h : Memory.afterAddress base size = some next) :
    next = base + max size 1 + 1 ∧ next < wordBound := by
  unfold Memory.afterAddress at h
  rw [Option.bind_eq_bind, Option.bind_eq_some_iff] at h
  obtain ⟨a, ha, h⟩ := h
  obtain ⟨rfl, -⟩ := checkedAdd_eq_some.mp ha
  obtain ⟨rfl, hlt⟩ := checkedAdd_eq_some.mp h
  exact ⟨rfl, hlt⟩

namespace CellStore

variable {σ σ' : CellStore}

theorem extents_update (id : Nat) (f : Block → Block)
    (hf : ∀ b, (f b).base = b.base ∧ (f b).size = b.size) :
    (σ.update id f).extents = σ.extents := by
  refine List.ext_getElem? fun i => ?_
  simp only [extents, update, List.getElem?_map, List.getElem?_modify]
  cases σ.blocks[i]? with
  | none => simp
  | some b =>
      by_cases hi : id = i
      · simp [hi, hf b]
      · simp [hi]

theorem Apart.update (h : σ.Apart) (id : Nat) (f : Block → Block)
    (hf : ∀ b, (f b).base = b.base ∧ (f b).size = b.size) :
    (σ.update id f).extents = σ.extents ++ [] ∧ (σ.update id f).Apart := by
  unfold Apart
  rw [extents_update id f hf, List.append_nil]
  exact ⟨rfl, h⟩

theorem allocate_extents (h : σ.Apart) {kind : AllocationKind} {size align : Nat} {p : Pointer}
    (ha : σ.allocate kind size align = some (p, σ')) :
    σ'.extents = σ.extents ++ [(p.address.toNat, size + 1)] ∧ σ'.Apart := by
  unfold allocate at ha
  cases hbase : Memory.placeAddress σ.next align with
  | none =>
      rw [hbase] at ha
      cases ha
  | some base =>
      cases hnext : Memory.afterAddress base size with
      | none =>
          rw [hbase] at ha
          simp only [hnext] at ha
          cases ha
      | some next =>
          rw [hbase] at ha
          simp only [hnext] at ha
          cases ha
          have hle := le_placeAddress hbase
          obtain ⟨hafter, hlt⟩ := afterAddress_eq hnext
          have haddr : (UInt64.ofNat base).toNat = base := by
            rw [UInt64.toNat_ofNat', Nat.mod_eq_of_lt]
            unfold wordBound at hlt
            omega
          unfold Apart
          simp only [extents, List.map_append, List.map_cons, List.map_nil, haddr, true_and]
          refine Ascending.append h ⟨hle, ?_⟩
          show base + (size + 1) ≤ next
          omega

/-- One step of the cells takes the addresses it says, behind all that were taken before. -/
theorem step_extents (h : σ.Apart) {op : MemoryOp} {out : MemoryOutput}
    (hstep : σ.step op = some (out, σ')) :
    σ'.extents = σ.extents ++ op.taken out ∧ σ'.Apart := by
  have hsame : σ.extents = σ.extents ++ [] := (List.append_nil _).symm
  cases op with
  | allocate size natural align =>
      obtain ⟨⟨p, σ₁⟩, ha, heq⟩ := Option.map_eq_some_iff.mp hstep
      cases heq
      exact allocate_extents h ha
  | allocateGlobal size natural align =>
      obtain ⟨⟨p, σ₁⟩, ha, heq⟩ := Option.map_eq_some_iff.mp hstep
      cases heq
      exact allocate_extents h ha
  | gep p plan indices =>
      obtain ⟨q, -, heq⟩ := Option.map_eq_some_iff.mp hstep
      cases heq
      exact ⟨hsame, h⟩
  | retireFrom start =>
      cases hstep
      have hext : CellStore.extents { σ with blocks := σ.blocks.mapIdx fun id b =>
          if start ≤ id ∧ b.kind = .stack then { b with live := false } else b } = σ.extents := by
        refine List.ext_getElem? fun i => ?_
        simp only [extents, List.getElem?_map, List.getElem?_mapIdx]
        cases σ.blocks[i]? with
        | none => rfl
        | some b =>
            simp only [Option.map_some]
            split <;> rfl
      refine ⟨hext.trans hsame, ?_⟩
      unfold Apart
      rw [hext]
      exact h
  | sealGlobal p readonly =>
      simp only [step] at hstep
      split at hstep
      · cases hstep
      · obtain ⟨-, heq⟩ := Option.ite_none_right_eq_some.mp hstep
        cases heq
        exact h.update _ _ fun _ => ⟨rfl, rfl⟩
  | retireStack p ownerStart =>
      simp only [step] at hstep
      split at hstep
      · cases hstep
      · obtain ⟨-, heq⟩ := Option.ite_none_right_eq_some.mp hstep
        cases heq
        exact h.update _ _ fun _ => ⟨rfl, rfl⟩
  | load p ty align signature =>
      simp only [step] at hstep
      split at hstep
      · cases hstep
      · obtain ⟨v, -, heq⟩ := Option.map_eq_some_iff.mp hstep
        cases heq
        exact ⟨hsame, h⟩
  | store p ty value align =>
      simp only [step] at hstep
      split at hstep
      · cases hstep
      · cases hstep
        exact h.update _ _ fun _ => ⟨rfl, rfl⟩
  | copy dst src size align =>
      simp only [step] at hstep
      split at hstep
      · cases hstep
        exact ⟨hsame, h⟩
      · split at hstep
        · obtain ⟨-, heq⟩ := Option.ite_none_left_eq_some.mp hstep
          cases heq
          exact h.update _ _ fun _ => ⟨rfl, rfl⟩
        · cases hstep
  | set dst byte size align =>
      simp only [step] at hstep
      split at hstep
      · cases hstep
        exact ⟨hsame, h⟩
      · split at hstep
        · cases hstep
        · cases hstep
          exact h.update _ _ fun _ => ⟨rfl, rfl⟩
  | uninit p size align =>
      simp only [step] at hstep
      split at hstep
      · cases hstep
      · cases hstep
        exact h.update _ _ fun _ => ⟨rfl, rfl⟩

end CellStore

/-! ## Requests too large for any budget -/

/-- An operation on related memories does one step of the cells, or fails without a panic
and keeps the relation. -/
def Related (σ : CellStore) (op : MemoryOp) : EStateM.Result Fault Memory MemoryOutput → Prop
  | .ok out m => ∃ σ', σ.step op = some (out, σ') ∧ Rel m σ'
  | .error e m => e ≠ .panic ∧ Rel m σ

theorem Outcome.related {σ : CellStore} {op : MemoryOp}
    {r : EStateM.Result Fault Memory MemoryOutput} (h : Outcome σ op r) : Related σ op r := by
  cases r with
  | ok out m => exact h
  | error e m =>
      cases e with
      | trap t => exact ⟨nofun, h.2⟩
      | limit resource limit => exact ⟨nofun, h⟩
      | panic => exact h.elim

theorem allocate_overflow {m : Memory} {size natural align : Nat}
    (halign : 0 < max align natural) (hlarge : wordBound ≤ size * 2 + 1) :
    ∃ e, Memory.allocate size natural align m = .error e m ∧ e ≠ .panic := by
  have hwork : Memory.allocationWork size = none := by
    unfold Memory.allocationWork checkedMul
    by_cases hmul : size * 2 < wordBound
    · rw [if_pos hmul]
      exact if_neg (by omega)
    · rw [if_neg hmul]
      rfl
  unfold Memory.allocate
  rw [bind_run_ok (get_run m), bind_run, require_run]
  by_cases hcount : m.allocations.length < m.limits.maxAllocations
  swap
  · rw [if_neg hcount]
    exact ⟨_, rfl, nofun⟩
  rw [if_pos hcount]
  dsimp only
  rw [bind_run, orThrow_run]
  cases (checkedAdd m.bytes size).filter (· ≤ m.limits.maxBytes) with
  | none => exact ⟨_, rfl, nofun⟩
  | some bytes =>
    dsimp only
    rw [bind_run, require_run, if_pos (by omega)]
    dsimp only
    rw [bind_run, orThrow_run]
    cases Memory.placeAddress m.nextAddress (max align natural) with
    | none => exact ⟨_, rfl, nofun⟩
    | some base =>
      dsimp only
      rw [bind_run, orThrow_run]
      cases Memory.afterAddress base size with
      | none => exact ⟨_, rfl, nofun⟩
      | some next =>
        dsimp only
        rw [bind_run, orThrow_run, hwork]
        exact ⟨_, rfl, nofun⟩

theorem set_overflow {m : Memory} {σ : CellStore} (h : Rel m σ) (p : Pointer) (byte : UInt8)
    {size align : Nat} (halign : 0 < align) (hlarge : wordBound ≤ size * 2) :
    ∃ e, Memory.setBytes p byte size align m = .error e m ∧ e ≠ .panic := by
  have hmul : checkedMul size 2 = none := if_neg (by omega)
  have hsize : size ≠ 0 := by
    rintro rfl
    exact absurd hlarge (by decide)
  unfold Memory.setBytes
  rw [if_neg hsize, bind_run, look_run]
  rcases access_spec h p size halign true with ⟨cap, b, -, hacc⟩ | ⟨-, t, hacc⟩
  · rw [hacc]
    dsimp only
    rw [bind_run, orThrow_run, hmul]
    exact ⟨_, rfl, nofun⟩
  · rw [hacc]
    exact ⟨_, rfl, nofun⟩

theorem copy_overflow {m : Memory} {σ : CellStore} (h : Rel m σ) (dst src : Pointer)
    {size align : Nat} (halign : 0 < align) (hsize : size ≠ 0)
    (hlarge : wordBound ≤ (MemoryOp.copy dst src size align).demand m) :
    ∃ e, Memory.copy dst src size align m = .error e m ∧ e ≠ .panic := by
  unfold Memory.copy
  rw [if_neg hsize, bind_run, look_run]
  rcases access_spec h src size halign false with ⟨s, bs, hs, hacc⟩ | ⟨-, t, hacc⟩
  swap
  · rw [hacc]
    exact ⟨_, rfl, by rintro ⟨⟩⟩
  rw [hacc]
  dsimp only
  rw [bind_run, look_run]
  rcases access_spec h dst size halign true with ⟨d, bd, -, hacc⟩ | ⟨-, t, hacc⟩
  swap
  · rw [hacc]
    exact ⟨_, rfl, by rintro ⟨⟩⟩
  rw [hacc]
  dsimp only
  rw [bind_run, require_run]
  by_cases hover : ¬ (s.allocation = d.allocation ∧ s.offset < d.offset + size ∧
      d.offset < s.offset + size)
  swap
  · rw [if_neg hover]
    exact ⟨_, rfl, by rintro ⟨⟩⟩
  rw [if_pos hover]
  have hgrant := CellStore.grant_eq_some.mp hs
  obtain ⟨a, ha, -⟩ := h.allocation hgrant.block
  have hlook : Memory.look (Memory.allocation · s.allocation) m = .ok a m := by
    simp only [look_run, Memory.allocation, ha, orThrow_some]
  have hwork : Memory.copyWork size (m.capacity a.history) = none := by
    simp only [MemoryOp.demand, hgrant.capability, Option.bind_some, ha] at hlarge
    unfold Memory.copyWork checkedMul
    by_cases hmul : size * 4 < wordBound
    · rw [if_pos hmul]
      exact if_neg (by omega)
    · rw [if_neg hmul]
      rfl
  dsimp only
  rw [bind_run_ok (get_run m), bind_run_ok hlook, bind_run, orThrow_run, hwork]
  exact ⟨_, rfl, by rintro ⟨⟩⟩

/-- Every operation with the operands a caller provides keeps related memories related, and
does not panic. -/
theorem step_related {m : Memory} {σ : CellStore} (h : Rel m σ) (op : MemoryOp)
    (hvalid : op.Valid σ) : Related σ op (op.run m) := by
  by_cases hdemand : op.demand m < wordBound
  · exact (step_refines h op hvalid hdemand).related
  have hlarge : wordBound ≤ op.demand m := Nat.le_of_not_lt hdemand
  have hzero : ¬ wordBound ≤ 0 := by decide
  cases op with
  | allocate size natural align =>
      obtain ⟨e, hrun, he⟩ := allocate_overflow (m := m) hvalid hlarge
      rw [MemoryOp.run, bind_run_error hrun]
      exact ⟨he, h⟩
  | allocateGlobal size natural align =>
      obtain ⟨e, hrun, he⟩ := allocate_overflow (m := m) hvalid hlarge
      rw [MemoryOp.run, Memory.allocateGlobal, bind_run_error (bind_run_error hrun _)]
      exact ⟨he, h⟩
  | copy dst src size align =>
      by_cases hsize : size = 0
      · subst hsize
        exact ⟨σ, by simp only [CellStore.step, if_true], h⟩
      · obtain ⟨e, hrun, he⟩ := copy_overflow h dst src hvalid hsize hlarge
        rw [MemoryOp.run, bind_run_error hrun]
        exact ⟨he, h⟩
  | set dst byte size align =>
      obtain ⟨e, hrun, he⟩ := set_overflow h dst byte hvalid hlarge
      rw [MemoryOp.run, bind_run_error hrun]
      exact ⟨he, h⟩
  | sealGlobal p readonly => exact absurd hlarge hzero
  | retireStack p ownerStart => exact absurd hlarge hzero
  | retireFrom start => exact absurd hlarge hzero
  | gep p plan indices => exact absurd hlarge hzero
  | load p ty align signature => exact absurd hlarge hzero
  | store p ty value align => exact absurd hlarge hzero
  | uninit p size align => exact absurd hlarge hzero

/-! ## Budgets and ended allocations -/

/-- An allocation that holds nothing. -/
def Allocation.Empty (a : Allocation) : Prop :=
  a.bytes = [] ∧ a.initialized = [] ∧ a.fragments = []

namespace Memory

/-- Counters are within their budgets, and what has ended is empty. -/
structure Tidy (m : Memory) : Prop where
  bytes : m.bytes ≤ m.limits.maxBytes
  allocations : m.allocations.length ≤ m.limits.maxAllocations
  fragments : m.fragments ≤ m.limits.maxPointerFragments
  work : m.work ≤ m.limits.maxWork
  ended : ∀ a ∈ m.allocations, a.alive = false → a.Empty

variable {m m' : Memory} {id : Nat} {a : Allocation}

theorem tidy_new (arena : Nat) (capacity : List MapOp → Nat) (limits : MemoryLimits) :
    (Memory.new arena capacity limits).Tidy where
  bytes := Nat.zero_le _
  allocations := Nat.zero_le _
  fragments := Nat.zero_le _
  work := Nat.zero_le _
  ended := by
    intro a ha
    cases ha

theorem Tidy.charged (h : m.Tidy) (hc : Charged m m') : m'.Tidy := by
  obtain ⟨hsame, -, hwork⟩ := hc
  have hold := h.work
  have hnew : m'.work ≤ m.limits.maxWork := by omega
  rw [hsame]
  exact ⟨h.bytes, h.allocations, h.fragments, hnew, h.ended⟩

/-- Changing one allocation, which stays alive or ends empty. -/
theorem Tidy.update (h : m.Tidy) (ha : m.allocations[id]? = some a)
    (f : Allocation → Allocation) (hf : (f a).alive = false → (f a).Empty) {count : Nat}
    (hcount : count ≤ m.limits.maxPointerFragments) :
    Tidy { m.update id f with fragments := count } where
  bytes := h.bytes
  allocations := by
    show (m.allocations.modify id f).length ≤ _
    rw [List.length_modify]
    exact h.allocations
  fragments := hcount
  work := h.work
  ended := by
    intro b hb
    obtain ⟨j, hj⟩ := List.mem_iff_getElem?.mp hb
    simp only [Memory.update, List.getElem?_modify] at hj
    by_cases hid : id = j
    · subst hid
      simp only [ha, if_true, Option.map_eq_map, Option.map_some, Option.some.injEq] at hj
      subst hj
      exact hf
    · simp only [hid, if_false, Option.map_eq_map, Option.map_id'] at hj
      exact h.ended b (List.mem_of_getElem? hj)

/-- A pointer with authority points to an allocation that is alive. -/
theorem identity_ok {p : Pointer} {cap : Capability} (h : m.identity p = .ok (id, cap)) :
    ∃ a, m.allocations[id]? = some a ∧ a.alive = true := by
  unfold identity at h
  split at h
  · cases h
  · split at h
    · cases h
    · split at h
      · cases h
      · split at h
        · cases h
        · rename_i a ha
          split at h
          · cases h
          · rename_i hlive
            split at h
            · cases h
            · cases h
              exact ⟨a, ha, by simpa using (not_or.mp hlive).1⟩

theorem access_ok {p : Pointer} {n align start stop : Nat} {write : Bool}
    (h : m.access p n align write = .ok (id, start, stop)) :
    ∃ a, m.allocations[id]? = some a ∧ a.alive = true := by
  unfold access at h
  obtain ⟨⟨id', cap⟩, hid, h⟩ := bind_ok_iff.mp h
  obtain ⟨_, -, h⟩ := bind_ok_iff.mp h
  obtain ⟨_, -, h⟩ := bind_ok_iff.mp h
  obtain ⟨_, -, h⟩ := bind_ok_iff.mp h
  obtain ⟨_, -, h⟩ := bind_ok_iff.mp h
  obtain ⟨_, -, h⟩ := bind_ok_iff.mp h
  obtain ⟨_, -, h⟩ := bind_ok_iff.mp h
  cases h
  exact identity_ok hid

theorem look_ok {α : Type} {f : Memory → Except Fault α} {x : α} (h : look f m = .ok x m') :
    f m = .ok x ∧ m' = m := by
  unfold look at h
  split at h
  · rename_i hf
    cases h
    exact ⟨hf, rfl⟩
  · cases h

theorem look_bind_ok {α β : Type} {f : Memory → Except Fault α} {k : α → MemoryM β} {y : β}
    (h : (look f >>= k) m = .ok y m') : ∃ x, f m = .ok x ∧ k x m = .ok y m' := by
  obtain ⟨x, m₁, hf, hk⟩ := bind_run_ok_iff.mp h
  obtain ⟨hx, hm⟩ := look_ok hf
  exact ⟨x, hx, hm ▸ hk⟩

theorem lookAllocation_bind_ok {β : Type} {k : Allocation → MemoryM β} {y : β}
    (h : (look (allocation · id) >>= k) m = .ok y m') :
    ∃ a, m.allocations[id]? = some a ∧ k a m = .ok y m' := by
  obtain ⟨a, ha, hk⟩ := look_bind_ok h
  exact ⟨a, orThrow_ok_iff.mp ha, hk⟩

/-- Charging leaves the allocations alone. -/
theorem Charged.allocations (h : Charged m m') : m'.allocations = m.allocations := by
  rw [h.same]

/-- `m'` has the budgets of `m` and is as tidy. -/
structure Keeps (m m' : Memory) : Prop where
  limits : m'.limits = m.limits
  tidy : m.Tidy → m'.Tidy

theorem Keeps.refl (m : Memory) : Keeps m m := ⟨rfl, id⟩

theorem Keeps.trans {m'' : Memory} (h : Keeps m m') (h' : Keeps m' m'') : Keeps m m'' :=
  ⟨h'.limits.trans h.limits, fun ht => h'.tidy (h.tidy ht)⟩

theorem Charged.keeps (h : Charged m m') : Keeps m m' :=
  ⟨by rw [h.same], fun ht => ht.charged h⟩

theorem charge_keeps {work : Nat} {u : Unit} (h : charge work m = .ok u m') :
    Keeps m m' ∧ m'.allocations = m.allocations :=
  have hc := (checks_charge work).succeeds m u m' h
  ⟨hc.keeps, hc.allocations⟩

theorem keeps_modify (ha : m.allocations[id]? = some a) (f : Allocation → Allocation)
    (hf : (f a).alive = false → (f a).Empty) : Keeps m (m.update id f) :=
  ⟨rfl, fun ht => ht.update ha f hf ht.fragments⟩

/-- New fragments in an allocation that is alive. -/
theorem replaceFragments_keeps {start stop : Nat} {new : List (Nat × Fragment)} {u : Unit}
    (ha : m.allocations[id]? = some a) (hlive : a.alive = true)
    (h : replaceFragments id start stop new m = .ok u m') :
    Keeps m m' ∧ m'.allocations[id]? = some (a.replaced start stop new) := by
  obtain ⟨b, -, h⟩ := lookAllocation_bind_ok (get_bind_run h)
  obtain ⟨_, m₂, hcharge, h⟩ := bind_run_ok_iff.mp h
  obtain ⟨hkeeps, hsame⟩ := charge_keeps hcharge
  obtain ⟨rest, -, h⟩ := orThrow_bind_ok_iff.mp h
  obtain ⟨hmax, h⟩ := require_bind_ok_iff.mp h
  cases h
  have ha₁ : m₂.allocations[id]? = some a := by rw [hsame, ha]
  refine ⟨hkeeps.trans ⟨rfl, fun ht => ?_⟩, by simp [Memory.update, ha₁]⟩
  refine ht.update ha₁ _ (fun hdead => ?_) (hkeeps.limits ▸ hmax)
  exact absurd (hlive.symm.trans hdead) (by simp)

/-- What an operation that writes does: nothing, or work is charged, fragments of an accessible
allocation are replaced, and its bytes change. -/
inductive Writes (m : Memory) : Memory → Prop where
  | nothing : Writes m m
  | bytes {id start stop work : Nat} {new : List (Nat × Fragment)} {u v : Unit} {m₁ m₂ : Memory}
      {f : Allocation → Allocation} (hlive : ∃ a, m.allocations[id]? = some a ∧ a.alive = true)
      (hcharge : charge work m = .ok u m₁)
      (hreplace : replaceFragments id start stop new m₁ = .ok v m₂)
      (hf : ∀ a, (f a).kind = a.kind ∧ (f a).alive = a.alive) : Writes m (m₂.update id f)

theorem Writes.keeps (h : Writes m m') : Keeps m m' := by
  cases h with
  | nothing => exact .refl m
  | bytes hlive hcharge hreplace hf =>
      obtain ⟨a, ha, hlive⟩ := hlive
      obtain ⟨hkeeps, hsame⟩ := charge_keeps hcharge
      rw [← hsame] at ha
      obtain ⟨hkeeps', ha'⟩ := replaceFragments_keeps ha hlive hreplace
      refine (hkeeps.trans hkeeps').trans (keeps_modify ha' _ fun hdead => ?_)
      rw [(hf _).2] at hdead
      exact absurd (hlive.symm.trans hdead) (by simp)

theorem uninit_writes (p : Pointer) (size align : Nat) :
    SucceedsIn Writes (uninit p size align) := by
  intro m u m' h
  obtain ⟨⟨id, start, stop⟩, hacc, h⟩ := look_bind_ok h
  obtain ⟨_, m₂, hcharge, h⟩ := bind_run_ok_iff.mp h
  obtain ⟨_, m₃, hreplace, h⟩ := bind_run_ok_iff.mp h
  cases h
  exact .bytes (access_ok hacc) hcharge hreplace fun _ => ⟨rfl, rfl⟩

theorem setBytes_writes (p : Pointer) (byte : UInt8) (size align : Nat) :
    SucceedsIn Writes (setBytes p byte size align) := by
  intro m u m' h
  unfold setBytes at h
  split at h
  · cases h
    exact .nothing
  obtain ⟨⟨id, start, stop⟩, hacc, h⟩ := look_bind_ok h
  obtain ⟨work, -, h⟩ := orThrow_bind_ok_iff.mp h
  obtain ⟨_, m₃, hcharge, h⟩ := bind_run_ok_iff.mp h
  obtain ⟨_, m₄, hreplace, h⟩ := bind_run_ok_iff.mp h
  cases h
  dsimp only
  rw [update_update]
  exact .bytes (access_ok hacc) hcharge hreplace fun _ => ⟨rfl, rfl⟩

theorem copy_writes (dst src : Pointer) (size align : Nat) :
    SucceedsIn Writes (copy dst src size align) := by
  intro m u m' h
  unfold copy at h
  split at h
  · cases h
    exact .nothing
  obtain ⟨⟨source, ss, se⟩, -, h⟩ := look_bind_ok h
  obtain ⟨⟨id, start, stop⟩, hacc, h⟩ := look_bind_ok h
  obtain ⟨-, h⟩ := require_bind_ok_iff.mp h
  replace h := get_bind_run h
  obtain ⟨origin, -, h⟩ := lookAllocation_bind_ok h
  obtain ⟨work, -, h⟩ := orThrow_bind_ok_iff.mp h
  obtain ⟨_, m₆, hcharge, h⟩ := bind_run_ok_iff.mp h
  obtain ⟨_, m₇, hreplace, h⟩ := bind_run_ok_iff.mp h
  cases h
  exact .bytes (access_ok hacc) hcharge hreplace fun _ => ⟨rfl, rfl⟩

theorem lives_writeBytes (bytes : List (Nat × UInt8)) (a : Allocation) :
    (a.writeBytes bytes).kind = a.kind ∧ (a.writeBytes bytes).alive = a.alive := by
  unfold Allocation.writeBytes
  induction bytes generalizing a with
  | nil => exact ⟨rfl, rfl⟩
  | cons e bytes ih => exact ih _

theorem store_writes (p : Pointer) (ty : Ty) (value : Value) (align : Nat) :
    SucceedsIn Writes (store p ty value align) := by
  intro m u m' h
  obtain ⟨layout, -, h⟩ := look_bind_ok h
  obtain ⟨⟨id, start, stop⟩, hacc, h⟩ := look_bind_ok h
  obtain ⟨⟨bytes, fragments⟩, -, h⟩ := look_bind_ok h
  obtain ⟨_, m₄, hcharge, h⟩ := bind_run_ok_iff.mp h
  obtain ⟨_, m₅, hreplace, h⟩ := bind_run_ok_iff.mp h
  obtain ⟨a, -, h⟩ := lookAllocation_bind_ok h
  obtain ⟨-, h⟩ := require_bind_ok_iff.mp h
  cases h
  exact .bytes (access_ok hacc) hcharge hreplace (lives_writeBytes bytes)

theorem load_keeps (p : Pointer) (ty : Ty) (align : Nat)
    (signature : Option FunctionSignature) :
    SucceedsIn Keeps (loadWithSignature p ty align signature) := by
  intro m v m' h
  obtain ⟨layout, -, h⟩ := look_bind_ok h
  obtain ⟨⟨id, start, stop⟩, -, h⟩ := look_bind_ok h
  obtain ⟨_, m₃, hcharge, h⟩ := bind_run_ok_iff.mp h
  obtain ⟨-, rfl⟩ := look_ok h
  exact (charge_keeps hcharge).1

theorem sealGlobal_keeps (p : Pointer) (readonly : Bool) :
    SucceedsIn Keeps (sealGlobal p readonly) := by
  intro m q m' h
  obtain ⟨⟨id, cap⟩, hid, h⟩ := look_bind_ok h
  obtain ⟨a, ha, h⟩ := lookAllocation_bind_ok h
  obtain ⟨-, h⟩ := require_bind_ok_iff.mp h
  cases h
  obtain ⟨b, hb, hlive⟩ := identity_ok hid
  refine keeps_modify hb _ fun hdead => ?_
  exact absurd (hlive.symm.trans hdead) (by simp)

theorem retireAllocation_keeps (id : Nat) : SucceedsIn Keeps (retireAllocation id) := by
  intro m u m' h
  obtain ⟨a, ha, h⟩ := lookAllocation_bind_ok h
  by_cases hlive : a.alive = true
  · rw [if_pos hlive] at h
    replace h := get_bind_run h
    obtain ⟨rest, hrest, h⟩ := orThrow_bind_ok_iff.mp h
    obtain ⟨-, hsub⟩ := checkedSub_eq_some.mp hrest
    cases h
    refine ⟨rfl, fun ht => ht.update ha _ (fun _ => ?_) ?_⟩
    · unfold Allocation.retire
      rw [if_pos hlive]
      exact ⟨rfl, rfl, rfl⟩
    · have hmax := ht.fragments
      omega
  · rw [if_neg hlive] at h
    cases h
    exact .refl m

theorem retireStacks_keeps (ids : List Nat) : SucceedsIn Keeps (retireStacks ids) := by
  induction ids with
  | nil =>
      intro m u m' h
      cases h
      exact .refl m
  | cons id ids ih =>
      intro m u m' h
      obtain ⟨a, -, h⟩ := lookAllocation_bind_ok h
      by_cases hkind : a.kind = .stack
      · simp only [hkind, if_true] at h
        obtain ⟨_, m₂, hretire, h⟩ := bind_run_ok_iff.mp h
        exact (retireAllocation_keeps id _ _ _ hretire).trans (ih _ _ _ h)
      · simp only [hkind, if_false] at h
        exact ih _ _ _ h

theorem retireStack_keeps (p : Pointer) (ownerStart : Nat) :
    SucceedsIn Keeps (retireStack p ownerStart) := by
  intro m u m' h
  obtain ⟨⟨id, cap⟩, -, h⟩ := look_bind_ok h
  obtain ⟨a, -, h⟩ := lookAllocation_bind_ok h
  obtain ⟨-, h⟩ := require_bind_ok_iff.mp h
  obtain ⟨_, m₄, hcharge, h⟩ := bind_run_ok_iff.mp h
  exact (charge_keeps hcharge).1.trans (retireAllocation_keeps id _ _ _ h)

theorem retireFrom_keeps (start : Nat) : SucceedsIn Keeps (retireFrom start) := by
  intro m u m' h
  replace h := get_bind_run h
  obtain ⟨count, -, h⟩ := orThrow_bind_ok_iff.mp h
  obtain ⟨_, m₂, hcharge, h⟩ := bind_run_ok_iff.mp h
  exact (charge_keeps hcharge).1.trans (retireStacks_keeps _ _ _ _ h)

/-- An allocation takes a place and bytes that the budgets have left. -/
theorem allocate_keeps (size natural align : Nat) :
    SucceedsIn Keeps (allocate size natural align) := by
  intro m p m' h
  replace h := get_bind_run h
  obtain ⟨hcount, h⟩ := require_bind_ok_iff.mp h
  obtain ⟨bytes, hbytes, h⟩ := orThrow_bind_ok_iff.mp h
  obtain ⟨-, h⟩ := require_bind_ok_iff.mp h
  obtain ⟨address, -, h⟩ := orThrow_bind_ok_iff.mp h
  obtain ⟨next, -, h⟩ := orThrow_bind_ok_iff.mp h
  obtain ⟨work, -, h⟩ := orThrow_bind_ok_iff.mp h
  obtain ⟨_, m₇, hcharge, h⟩ := bind_run_ok_iff.mp h
  obtain ⟨hkeeps, hsame⟩ := charge_keeps hcharge
  cases h
  refine hkeeps.trans ⟨rfl, fun ht => ?_⟩
  obtain ⟨-, hmax⟩ := Option.filter_eq_some_iff.mp hbytes
  have hmax : bytes ≤ m.limits.maxBytes := of_decide_eq_true hmax
  refine ⟨hkeeps.limits ▸ hmax, ?_, ht.fragments, ht.work, ?_⟩
  · rw [List.length_append, List.length_singleton, hsame]
    show m.allocations.length + 1 ≤ m₇.limits.maxAllocations
    rw [hkeeps.limits]
    exact hcount
  · intro a ha hdead
    rcases List.mem_append.mp ha with ha | ha
    · exact ht.ended a ha hdead
    · rw [List.mem_singleton.mp ha] at hdead
      cases hdead

theorem allocateGlobal_keeps (size natural align : Nat) :
    SucceedsIn Keeps (allocateGlobal size natural align) := by
  intro m p m' h
  obtain ⟨q, m₁, hq, h⟩ := bind_run_ok_iff.mp h
  obtain ⟨cap, -, h⟩ := orThrow_bind_ok_iff.mp h
  cases h
  refine (allocate_keeps size natural align _ _ _ hq).trans ⟨rfl, fun ht => ?_⟩
  cases ha : m₁.allocations[cap.allocation]? with
  | none =>
      have hsame : m₁.update cap.allocation (fun a => { a with kind := .global }) = m₁ := by
        simp only [Memory.update, List.modify_eq_self (List.getElem?_eq_none_iff.mp ha)]
      show (m₁.update cap.allocation fun a => { a with kind := .global }).Tidy
      rw [hsame]
      exact ht
  | some a =>
      refine ht.update ha _ (fun hdead => ?_) ht.fragments
      exact ht.ended a (List.mem_of_getElem? ha) hdead

end Memory

/-- Every operation that succeeds keeps the budgets and leaves ended allocations empty. -/
theorem MemoryOp.run_keeps (op : MemoryOp) : SucceedsIn Memory.Keeps op.run := by
  intro m out m' h
  cases op <;> obtain ⟨_, m₁, hrun, h⟩ := bind_run_ok_iff.mp h <;> cases h
  case allocate size natural align => exact Memory.allocate_keeps _ _ _ _ _ _ hrun
  case allocateGlobal size natural align => exact Memory.allocateGlobal_keeps _ _ _ _ _ _ hrun
  case sealGlobal p readonly => exact Memory.sealGlobal_keeps _ _ _ _ _ hrun
  case retireStack p ownerStart => exact Memory.retireStack_keeps _ _ _ _ _ hrun
  case retireFrom start => exact Memory.retireFrom_keeps _ _ _ _ hrun
  case gep p plan indices =>
      rw [(Memory.look_ok hrun).2]
      exact .refl m
  case load p ty align signature => exact Memory.load_keeps _ _ _ _ _ _ _ hrun
  case store p ty value align => exact (Memory.store_writes _ _ _ _ _ _ _ hrun).keeps
  case copy dst src size align => exact (Memory.copy_writes _ _ _ _ _ _ _ hrun).keeps
  case set dst byte size align => exact (Memory.setBytes_writes _ _ _ _ _ _ _ hrun).keeps
  case uninit p size align => exact (Memory.uninit_writes _ _ _ _ _ _ hrun).keeps

/-! ## Whole runs -/

/-- The operands that callers of the memory provide in the state `m`. -/
def MemoryOp.Promised (m : Memory) (op : MemoryOp) : Prop :=
  ∀ σ : CellStore, σ.blocks.length = m.allocations.length → op.Valid σ

/-- Each operation of the run has such operands in the state it meets. -/
def Memory.PromisedRun (m : Memory) : List MemoryOp → Prop
  | [] => True
  | op :: ops => op.Promised m ∧
      match op.run m with
      | .ok _ m' | .error _ m' => PromisedRun m' ops

/-- The addresses taken by the successful operations of a run. -/
def takenBy : List MemoryOp → List (Except Fault MemoryOutput) → List (Nat × Nat)
  | op :: ops, .ok out :: rs => op.taken out ++ takenBy ops rs
  | _ :: ops, .error _ :: rs => takenBy ops rs
  | _, _ => []

/-- The invariant of a memory whose allocations have taken the addresses `taken`, a start
and a length that counts the address past the end. -/
structure Memory.Invariant (m : Memory) (taken : List (Nat × Nat)) : Prop where
  counter : m.fragments = (m.allocations.map fun a => a.fragments.length).sum
  tagged : ∀ a ∈ m.allocations, ∀ e ∈ a.fragments,
    ∃ flag, a.initialized[e.1]? = some flag ∧ flag ≠ 0
  /-- Allocations stand at their addresses, and fill them while they live. -/
  placed : List.Forall₂ (fun a t => a.address = t.1 ∧
    (a.alive = true → a.bytes.length + 1 = t.2)) m.allocations taken
  apart : taken.Pairwise fun s t => s.1 + s.2 ≤ t.1
  below : ∀ t ∈ taken, t.1 + t.2 ≤ m.nextAddress
  ended : ∀ a ∈ m.allocations, a.alive = false → a.Empty
  closed : ∀ p cap a, p.capability = some cap → m.allocations[cap.allocation]? = some a →
    a.alive = false → ∀ r, m.identity p ≠ .ok r
  bytesBudget : m.bytes ≤ m.limits.maxBytes
  allocationsBudget : m.allocations.length ≤ m.limits.maxAllocations
  fragmentsBudget : m.fragments ≤ m.limits.maxPointerFragments
  workBudget : m.work ≤ m.limits.maxWork

namespace Memory

theorem identity_ended {m : Memory} {p : Pointer} {cap : Capability} {a : Allocation}
    (hcap : p.capability = some cap) (ha : m.allocations[cap.allocation]? = some a)
    (hdead : a.alive = false) (r : Nat × Capability) : m.identity p ≠ .ok r := by
  unfold identity
  simp only [hcap, ha, hdead, true_or, if_true]
  split
  · nofun
  · split <;> nofun

/-- The fragments of an allocation that is alive stand on initialized bytes. -/
theorem tagged_of_body {a : Allocation} {b : Block} (h : Body a b)
    (hunique : a.fragments.UniqueKeys) {e : Nat × Fragment} (he : e ∈ a.fragments) :
    ∃ flag, a.initialized[e.1]? = some flag ∧ flag ≠ 0 := by
  obtain ⟨hi, htag⟩ := h.fragments e.1 e.2 (AssocMap.get_of_mem hunique he)
  have hinit : e.1 < a.initialized.length := by rw [h.initialized]; exact hi
  have hbyte : e.1 < a.bytes.length := by rw [h.bytes]; exact hi
  refine ⟨_, List.getElem?_eq_getElem hinit, fun hzero => ?_⟩
  have hcell := Allocation.cell_eq (List.getElem?_eq_getElem hinit) (List.getElem?_eq_getElem hbyte)
  rw [if_pos hzero] at hcell
  rw [Block.tag, h.cells e.1 hi, hcell] at htag
  cases htag

/-- A tidy memory related to cells that are apart satisfies the invariant. -/
theorem invariant_of_rel {m : Memory} {σ : CellStore} (h : Rel m σ) (happart : σ.Apart)
    (ht : m.Tidy) : m.Invariant σ.extents where
  counter := h.fragments
  tagged := by
    intro a ha e he
    obtain ⟨id, hid⟩ := List.mem_iff_getElem?.mp ha
    have hlt : id < σ.blocks.length := by
      rw [← h.length]
      exact (List.getElem?_eq_some_iff.mp hid).1
    have hrel := h.block id a _ hid (List.getElem?_eq_getElem hlt)
    cases hlive : a.alive with
    | true => exact tagged_of_body (hrel.body (hrel.live.symm.trans hlive)) hrel.unique he
    | false =>
        rw [(ht.ended a ha hlive).2.2] at he
        cases he
  placed := by
    refine List.forall₂_iff_get.mpr ⟨?_, fun id hid hid' => ?_⟩
    · rw [CellStore.extents, List.length_map, h.length]
    · have hlt : id < σ.blocks.length := by
        rw [← h.length]
        exact hid
      have hrel := h.block id _ _ (List.getElem?_eq_getElem hid) (List.getElem?_eq_getElem hlt)
      simp only [CellStore.extents, List.get_eq_getElem, List.getElem_map]
      refine ⟨hrel.base, fun hlive => ?_⟩
      rw [(hrel.body (hrel.live.symm.trans hlive)).bytes]
  apart := happart.pairwise
  below := fun t hmem => h.next ▸ (happart.mem hmem).2
  ended := ht.ended
  closed := fun _ _ _ hcap ha hdead => identity_ended hcap ha hdead
  bytesBudget := ht.bytes
  allocationsBudget := ht.allocations
  fragmentsBudget := ht.fragments
  workBudget := ht.work

/-- What one operation of a run does to memories that are related, apart and tidy: it keeps
all three, takes the addresses it says, and does not panic. -/
theorem step_keeps {m : Memory} {σ : CellStore} (h : Rel m σ) (happart : σ.Apart) (ht : m.Tidy)
    (op : MemoryOp) (hop : op.Promised m) :
    match op.run m with
    | .ok out m' => ∃ σ', Rel m' σ' ∧ σ'.Apart ∧ m'.Tidy ∧ m'.limits = m.limits ∧
        σ'.extents = σ.extents ++ op.taken out
    | .error e m' => e ≠ .panic ∧ Rel m' σ ∧ m'.Tidy ∧ m'.limits = m.limits := by
  have hstep := step_related h op (hop σ h.length.symm)
  cases hrun : op.run m with
  | ok out m' =>
      rw [hrun] at hstep
      obtain ⟨σ', hσ, hrel⟩ := hstep
      obtain ⟨hext, happart'⟩ := CellStore.step_extents happart hσ
      have hkeeps := op.run_keeps m out m' hrun
      exact ⟨σ', hrel, happart', hkeeps.tidy ht, hkeeps.limits, hext⟩
  | error e m' =>
      rw [hrun] at hstep
      have hkeeps := (op.failsIn_run m e m' hrun hstep.1).keeps
      exact ⟨hstep.1, hstep.2, hkeeps.tidy ht, hkeeps.limits⟩

theorem runOps_keeps (ops : List MemoryOp) {m : Memory} {σ : CellStore} (h : Rel m σ)
    (happart : σ.Apart) (ht : m.Tidy) (hops : m.PromisedRun ops) :
    (∃ σ', Rel (m.runOps ops).2 σ' ∧ σ'.Apart ∧ (m.runOps ops).2.Tidy ∧
        σ'.extents = σ.extents ++ takenBy ops (m.runOps ops).1) ∧
      (m.runOps ops).2.limits = m.limits ∧ ∀ r ∈ (m.runOps ops).1, r ≠ .error .panic := by
  induction ops generalizing m σ with
  | nil => exact ⟨⟨σ, h, happart, ht, (List.append_nil _).symm⟩, rfl, by rintro _ ⟨⟩⟩
  | cons op ops ih =>
      obtain ⟨hop, hrest⟩ := hops
      have hstep := step_keeps h happart ht op hop
      simp only [Memory.runOps]
      cases hrun : op.run m with
      | ok out m' =>
          rw [hrun] at hstep hrest
          obtain ⟨σ', hrel, happart', ht', hlimits, hext⟩ := hstep
          obtain ⟨⟨σ'', hrel', happart'', ht'', hext'⟩, hlimits', hno⟩ :=
            ih hrel happart' ht' hrest
          refine ⟨⟨σ'', hrel', happart'', ht'', ?_⟩, hlimits'.trans hlimits, ?_⟩
          · rw [hext', hext, List.append_assoc]
            rfl
          · intro r hr
            rcases List.mem_cons.mp hr with rfl | hr
            · rintro ⟨⟩
            · exact hno r hr
      | error e m' =>
          rw [hrun] at hstep hrest
          obtain ⟨he, hrel, ht', hlimits⟩ := hstep
          obtain ⟨hfinal, hlimits', hno⟩ := ih hrel happart ht' hrest
          refine ⟨hfinal, hlimits'.trans hlimits, ?_⟩
          intro r hr
          rcases List.mem_cons.mp hr with rfl | hr
          · exact fun heq => he (Except.error.inj heq)
          · exact hno r hr

/-- **The representation invariant of tracked memory**: it holds in every memory that any
sequence of operations leads to, failed ones among them, for the addresses that all
allocations of the run have taken; the budgets are the given ones, and nothing panics, so no
counter underflows. -/
theorem run_invariant (arena : Nat) (capacity : List MapOp → Nat) (limits : MemoryLimits)
    (ops : List MemoryOp) (hops : (Memory.new arena capacity limits).PromisedRun ops) :
    ((Memory.new arena capacity limits).runOps ops).2.Invariant
        (takenBy ops ((Memory.new arena capacity limits).runOps ops).1) ∧
      ((Memory.new arena capacity limits).runOps ops).2.limits = limits ∧
      ∀ r ∈ ((Memory.new arena capacity limits).runOps ops).1, r ≠ .error .panic := by
  have hempty : (CellStore.empty arena).Apart := Nat.le_refl 0x1000
  obtain ⟨⟨σ, hrel, happart, ht, hext⟩, hlimits, hno⟩ := runOps_keeps ops
    (rel_new arena capacity limits) hempty (tidy_new arena capacity limits) hops
  refine ⟨?_, hlimits, hno⟩
  have htaken : σ.extents = takenBy ops ((Memory.new arena capacity limits).runOps ops).1 := hext
  rw [← htaken]
  exact invariant_of_rel hrel happart ht

/-- Store a pointer, end its allocation, look for it, and allocate once more. -/
def lifetimeOps : List MemoryOp :=
  [.allocate 8 8 8,
    .store (freshPointer 0 0 0x1000 8) (.ptr .u32) (.pointer (freshPointer 0 0 0x1000 8)) 8,
    .retireFrom 0,
    .load (freshPointer 0 0 0x1000 8) (.ptr .u32) 8 none,
    .allocate 4 4 4]

theorem run_invariant_lifetimeOps :
    ((Memory.new 0 (fun _ => 0) .default).runOps lifetimeOps).2.Invariant
        (takenBy lifetimeOps ((Memory.new 0 (fun _ => 0) .default).runOps lifetimeOps).1) ∧
      ((Memory.new 0 (fun _ => 0) .default).runOps lifetimeOps).2.limits = .default ∧
      ∀ r ∈ ((Memory.new 0 (fun _ => 0) .default).runOps lifetimeOps).1, r ≠ .error .panic := by
  refine run_invariant 0 (fun _ => 0) .default lifetimeOps ?_
  have h4 : 0 < max 4 4 := by decide
  have h8 : 0 < max 8 8 := by decide
  exact ⟨fun _ _ => h8, fun _ _ => ⟨rfl, h8, trivial⟩, fun _ _ => Nat.zero_le _,
    fun _ _ => ⟨rfl, h8⟩, fun _ _ => h4, trivial⟩

end Memory

end Whale
