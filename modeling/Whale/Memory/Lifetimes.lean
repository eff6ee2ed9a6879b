import Whale.Memory.Invariant

set_option autoImplicit false

/-! # The lifetimes of allocations

The view of a memory that keeps, for each allocation, its kind and whether it is alive. Reads and
writes do not change it (`Steady`), a new allocation is added at its end, and a lifetime end
changes one place of it. Retiring the allocations of a frame is described on the allocations
themselves (`retireFrom_allocations`): all others keep their contents. -/

namespace Whale

/-- The kind of each allocation, and whether it is alive. -/
def Memory.lives (m : Memory) : List (AllocationKind × Bool) :=
  m.allocations.map fun a => (a.kind, a.alive)

namespace Memory

variable {m m' : Memory} {id : Nat} {a : Allocation}

theorem lives_length (m : Memory) : m.lives.length = m.allocations.length := List.length_map _

theorem lives_getElem? (m : Memory) (id : Nat) :
    m.lives[id]? = m.allocations[id]?.map fun a => (a.kind, a.alive) := List.getElem?_map

/-- The same memory up to the contents of its allocations. -/
structure Steady (m m' : Memory) : Prop where
  arena : m'.arena = m.arena
  lives : m'.lives = m.lives

theorem Steady.refl (m : Memory) : Steady m m := ⟨rfl, rfl⟩

theorem Steady.trans {m'' : Memory} (h : Steady m m') (h' : Steady m' m'') : Steady m m'' :=
  ⟨h'.arena.trans h.arena, h'.lives.trans h.lives⟩

theorem Charged.steady (h : Charged m m') : Steady m m' := by
  rw [h.same]
  exact ⟨rfl, rfl⟩

theorem charge_steady {work : Nat} : SucceedsIn Steady (charge work) :=
  fun m u m' h => ((checks_charge work).succeeds m u m' h).steady

theorem steady_update (m : Memory) (id : Nat) {f : Allocation → Allocation}
    (hf : ∀ a, (f a).kind = a.kind ∧ (f a).alive = a.alive) : Steady m (m.update id f) := by
  refine ⟨rfl, List.ext_getElem? fun i => ?_⟩
  rw [lives_getElem?, lives_getElem?, Memory.update, List.getElem?_modify]
  cases m.allocations[i]? with
  | none => rfl
  | some a =>
      by_cases hi : id = i
      · simp [hi, hf a]
      · simp [hi]

theorem Steady.count (h : Steady m m') (n : Nat) : Steady m { m' with fragments := n } :=
  ⟨h.arena, h.lives⟩

/-! ## Reads and writes -/

theorem replaceFragments_steady (id start stop : Nat) (new : List (Nat × Fragment)) :
    SucceedsIn Steady (replaceFragments id start stop new) := by
  intro m u m' h
  obtain ⟨b, -, h⟩ := lookAllocation_bind_ok (get_bind_run h)
  obtain ⟨_, m₂, hcharge, h⟩ := bind_run_ok_iff.mp h
  obtain ⟨rest, -, h⟩ := orThrow_bind_ok_iff.mp h
  obtain ⟨-, h⟩ := require_bind_ok_iff.mp h
  cases h
  have hupdate : Steady m₂ (m₂.update id (·.replaced start stop new)) :=
    steady_update m₂ id fun _ => ⟨rfl, rfl⟩
  exact (charge_steady _ _ _ hcharge).trans (hupdate.count _)

theorem Writes.steady (h : Writes m m') : Steady m m' := by
  cases h with
  | nothing => exact .refl m
  | bytes hlive hcharge hreplace hf =>
      refine ((charge_steady _ _ _ hcharge).trans ?_).trans (steady_update _ _ hf)
      exact replaceFragments_steady _ _ _ _ _ _ _ hreplace

theorem load_steady (p : Pointer) (ty : Ty) (align : Nat) (signature : Option FunctionSignature) :
    SucceedsIn Steady (loadWithSignature p ty align signature) := by
  intro m v m' h
  obtain ⟨layout, -, h⟩ := look_bind_ok h
  obtain ⟨⟨id, start, stop⟩, -, h⟩ := look_bind_ok h
  obtain ⟨_, m₃, hcharge, h⟩ := bind_run_ok_iff.mp h
  obtain ⟨-, rfl⟩ := look_ok h
  exact charge_steady _ _ _ hcharge

theorem look_steady {α : Type} (f : Memory → Except Fault α) : SucceedsIn Steady (look f) := by
  intro m a m' h
  obtain ⟨-, rfl⟩ := look_ok h
  exact .refl m'

/-! ## Allocation -/

/-- A new allocation is a stack allocation that is alive. -/
theorem allocate_lives {size natural align : Nat} {p : Pointer}
    (h : allocate size natural align m = .ok p m') :
    m'.arena = m.arena ∧ m'.lives = m.lives ++ [(.stack, true)] ∧
      ∃ cap, p.capability = some cap ∧ cap.allocation = m.lives.length := by
  replace h := get_bind_run h
  obtain ⟨-, h⟩ := require_bind_ok_iff.mp h
  obtain ⟨bytes, -, h⟩ := orThrow_bind_ok_iff.mp h
  obtain ⟨-, h⟩ := require_bind_ok_iff.mp h
  obtain ⟨address, -, h⟩ := orThrow_bind_ok_iff.mp h
  obtain ⟨next, -, h⟩ := orThrow_bind_ok_iff.mp h
  obtain ⟨work, -, h⟩ := orThrow_bind_ok_iff.mp h
  obtain ⟨_, m₇, hcharge, h⟩ := bind_run_ok_iff.mp h
  have hsteady := charge_steady _ _ _ hcharge
  cases h
  refine ⟨hsteady.arena, ?_, _, rfl, (lives_length m).symm⟩
  rw [← hsteady.lives]
  exact List.map_append

/-- The storage of a global is no stack allocation. -/
theorem allocateGlobal_lives {size natural align : Nat} {p : Pointer}
    (h : allocateGlobal size natural align m = .ok p m') :
    m'.arena = m.arena ∧ m'.lives = m.lives ++ [(.global, true)] := by
  obtain ⟨q, m₁, hq, h⟩ := bind_run_ok_iff.mp h
  obtain ⟨cap, hcap, h⟩ := orThrow_bind_ok_iff.mp h
  obtain ⟨harena, hlives, cap', hcap', hlast⟩ := allocate_lives hq
  obtain rfl : cap = cap' := Option.some.inj (hcap.symm.trans hcap')
  cases h
  refine ⟨harena, List.ext_getElem? fun i => ?_⟩
  have hold := congrArg (·[i]?) hlives
  simp only [lives_getElem?] at hold ⊢
  rw [Memory.update, List.getElem?_modify, hlast]
  by_cases hi : m.lives.length = i
  · subst hi
    rw [List.getElem?_append_right le_rfl, Nat.sub_self] at hold ⊢
    obtain ⟨a, ha, hpair⟩ := Option.map_eq_some_iff.mp hold
    have halive : a.alive = true := congrArg Prod.snd hpair
    simp [ha, halive]
  · simp only [hi, if_false, Option.map_eq_map, Option.map_id']
    rw [hold]
    by_cases hlt : i < m.lives.length
    · rw [List.getElem?_append_left hlt, List.getElem?_append_left hlt]
    · have hge : m.lives.length + 1 ≤ i := by omega
      rw [List.getElem?_eq_none (by simpa using hge), List.getElem?_eq_none (by simpa using hge)]

theorem sealGlobal_steady (p : Pointer) (readonly : Bool) :
    SucceedsIn Steady (sealGlobal p readonly) := by
  intro m q m' h
  obtain ⟨⟨id, cap⟩, -, h⟩ := look_bind_ok h
  obtain ⟨a, -, h⟩ := lookAllocation_bind_ok h
  obtain ⟨-, h⟩ := require_bind_ok_iff.mp h
  cases h
  exact steady_update m id fun _ => ⟨rfl, rfl⟩

/-! ## Ends of lifetimes -/

theorem retire_of_dead (ha : a.alive = false) : a.retire = a := by
  simp [Allocation.retire, ha]

@[simp] theorem retire_kind (a : Allocation) : a.retire.kind = a.kind := by
  unfold Allocation.retire
  split <;> rfl

@[simp] theorem retire_alive (a : Allocation) : a.retire.alive = false := by
  unfold Allocation.retire
  split
  · rfl
  · rename_i ha
    simpa using ha

theorem retireAllocation_ok {u : Unit} (h : retireAllocation id m = .ok u m') :
    m'.arena = m.arena ∧ m'.allocations = m.allocations.modify id Allocation.retire := by
  obtain ⟨a, ha, h⟩ := lookAllocation_bind_ok h
  by_cases hlive : a.alive = true
  · rw [if_pos hlive] at h
    obtain ⟨rest, -, h⟩ := orThrow_bind_ok_iff.mp (get_bind_run h)
    cases h
    exact ⟨rfl, rfl⟩
  · rw [if_neg hlive] at h
    cases h
    have hdead : a.alive = false := by simpa using hlive
    refine ⟨rfl, List.ext_getElem? fun i => ?_⟩
    rw [List.getElem?_modify]
    by_cases hi : id = i
    · subst hi
      simp [ha, retire_of_dead hdead]
    · simp [hi]

/-- What a lifetime end of the pointer `p` has checked. -/
structure Ends (m : Memory) (ownerStart : Nat) (p : Pointer) (cap : Capability)
    (a : Allocation) : Prop where
  capability : p.capability = some cap
  allocation : m.allocations[cap.allocation]? = some a
  alive : a.alive = true
  kind : a.kind = .stack
  start : ownerStart ≤ cap.allocation
  address : a.address = p.address.toNat
  offset : cap.offset = 0
  lower : cap.lower = 0
  upper : cap.upper = a.bytes.length

/-- A pointer with authority: its allocation is alive, and it stands where its offset says. -/
theorem identity_alive {p : Pointer} {cap : Capability} (h : m.identity p = .ok (id, cap)) :
    p.capability = some cap ∧ cap.allocation = id ∧ ∃ a, m.allocations[id]? = some a ∧
      a.alive = true ∧ a.address + cap.offset = p.address.toNat := by
  unfold identity at h
  split at h
  · cases h
  · split at h
    · cases h
    · rename_i c hcap
      split at h
      · cases h
      · split at h
        · cases h
        · rename_i a ha
          split at h
          · cases h
          · rename_i hlive
            split at h
            · cases h
            · rename_i hbounds
              cases h
              have haddress : checkedAdd a.address cap.offset = some p.address.toNat := by
                by_contra hne
                exact hbounds (Or.inr (Or.inr (Or.inr hne)))
              exact ⟨hcap, rfl, a, ha, by simpa using (not_or.mp hlive).1,
                (checkedAdd_eq_some.mp haddress).1⟩

/-- A lifetime end retires one allocation: that of the pointer, which is its base. -/
theorem retireStack_ok {p : Pointer} {ownerStart : Nat} {u : Unit}
    (h : retireStack p ownerStart m = .ok u m') :
    m'.arena = m.arena ∧ ∃ cap a, Ends m ownerStart p cap a ∧
      m'.lives = (m.allocations.modify cap.allocation Allocation.retire).map fun a =>
        (a.kind, a.alive) := by
  obtain ⟨⟨id, cap⟩, hid, h⟩ := look_bind_ok h
  obtain ⟨a, ha, h⟩ := lookAllocation_bind_ok h
  obtain ⟨⟨hstart, hkind, hoffset, hlower, hupper⟩, h⟩ := require_bind_ok_iff.mp h
  obtain ⟨_, m₄, hcharge, h⟩ := bind_run_ok_iff.mp h
  obtain ⟨hcap, rfl, b, hb, halive, haddress⟩ := identity_alive hid
  obtain rfl : a = b := Option.some.inj (ha.symm.trans hb)
  have hsteady := charge_steady _ _ _ hcharge
  obtain ⟨harena, hretire⟩ := retireAllocation_ok h
  have hsame := ((checks_charge _).succeeds _ _ _ hcharge).allocations
  rw [hoffset, Nat.add_zero] at haddress
  refine ⟨harena.trans hsteady.arena, cap, a,
    ⟨hcap, ha, halive, hkind, hstart, haddress, hoffset, hlower, hupper⟩, ?_⟩
  rw [Memory.lives, hretire, hsame]

theorem retireStacks_ok {ids : List Nat} {u : Unit} (h : retireStacks ids m = .ok u m') :
    m'.arena = m.arena ∧ ∀ i, m'.allocations[i]? = m.allocations[i]?.map fun a =>
      if i ∈ ids ∧ a.kind = .stack then a.retire else a := by
  induction ids generalizing m with
  | nil =>
      cases h
      simp
  | cons id ids ih =>
      obtain ⟨a, ha, h⟩ := lookAllocation_bind_ok h
      by_cases hkind : a.kind = .stack
      · simp only [hkind, if_true] at h
        obtain ⟨_, m₂, hretire, h⟩ := bind_run_ok_iff.mp h
        obtain ⟨harena, hsame⟩ := retireAllocation_ok hretire
        obtain ⟨harena', hrest⟩ := ih h
        refine ⟨harena'.trans harena, fun i => ?_⟩
        rw [hrest i, hsame, List.getElem?_modify]
        by_cases hi : id = i
        · subst hi
          simp [ha, hkind, retire_of_dead (retire_alive a)]
        · have hne : ¬ i = id := fun h => hi h.symm
          simp [hi, hne]
      · simp only [hkind, if_false] at h
        obtain ⟨harena, hrest⟩ := ih h
        refine ⟨harena, fun i => ?_⟩
        rw [hrest i]
        by_cases hi : i = id
        · subst hi
          simp [ha, hkind]
        · simp [hi]

/-- A return retires the stack allocations from `start` on and leaves all others as they are. -/
theorem retireFrom_ok {start : Nat} {u : Unit} (h : retireFrom start m = .ok u m') :
    m'.arena = m.arena ∧ ∀ i, m'.allocations[i]? = m.allocations[i]?.map fun a =>
      if start ≤ i ∧ a.kind = .stack then a.retire else a := by
  obtain ⟨count, hcount, h⟩ := orThrow_bind_ok_iff.mp (get_bind_run h)
  obtain ⟨_, m₂, hcharge, h⟩ := bind_run_ok_iff.mp h
  have hsteady := charge_steady _ _ _ hcharge
  have hsame := ((checks_charge _).succeeds _ _ _ hcharge).allocations
  obtain ⟨harena, hretire⟩ := retireStacks_ok h
  obtain ⟨hle, hsub⟩ := checkedSub_eq_some.mp hcount
  refine ⟨harena.trans hsteady.arena, fun i => ?_⟩
  rw [hretire i, hsame]
  cases ha : m.allocations[i]? with
  | none => rfl
  | some a =>
      have hi : i < m.allocations.length := (List.getElem?_eq_some_iff.mp ha).1
      have hmem : i ∈ List.range' start count ↔ start ≤ i := by
        rw [List.mem_range'_1]
        omega
      simp only [hmem]

end Memory

end Whale
