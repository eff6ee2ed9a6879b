import Whale.Lib.Effects
import Whale.Memory.RefineRun

set_option autoImplicit false

/-! # A failed operation changes nothing but the work counter

Each operation makes all its checks before the first change: what comes after a change cannot
return an error any more. So after a trap or an exhausted budget the memory is what it was,
except that work may have been charged (`failure_atomic`). -/

namespace Whale

/-- An error that an operation returns, as opposed to a panic. -/
def Fault.Returned (e : Fault) : Prop := e ≠ .panic

namespace Memory

/-- `m'` is `m` after some work was charged. -/
structure Charged (m m' : Memory) : Prop where
  same : m' = { m with work := m'.work }
  grows : m.work ≤ m'.work
  budget : m'.work = m.work ∨ m'.work ≤ m.limits.maxWork

theorem Charged.refl (m : Memory) : Charged m m := ⟨rfl, le_rfl, Or.inl rfl⟩

theorem Charged.trans {m m' m'' : Memory} (h : Charged m m') (h' : Charged m' m'') :
    Charged m m'' where
  same := by
    rw [h'.same, h.same]
  grows := le_trans h.grows h'.grows
  budget := by
    have hlimits : m'.limits = m.limits := by rw [h.same]
    have h₁ := h.budget
    have h₂ := h'.budget
    rw [hlimits] at h₂
    omega

/-! ## Parts of operations -/

/-- A part of an operation that, whatever it returns, has only charged work. -/
def Checks {α : Type} (x : MemoryM α) : Prop := StaysIn Fault.Returned Charged x

theorem Checks.bind {α β : Type} {x : MemoryM α} {f : α → MemoryM β} (hx : Checks x)
    (hf : ∀ a, FailsIn Fault.Returned Charged (f a)) :
    FailsIn Fault.Returned Charged (x >>= f) :=
  hx.bind_fails Charged.trans hf

theorem checks_get : Checks get := staysIn_get .refl

theorem checks_require (c : Prop) [Decidable c] (e : Fault) : Checks (require c e) :=
  staysIn_require .refl c e

theorem checks_orThrow {α : Type} (o : Option α) (e : Fault) : Checks (orThrow o e) :=
  staysIn_orThrow .refl o e

theorem checks_look {α : Type} (f : Memory → Except Fault α) : Checks (look f) where
  succeeds := by
    intro m a m' h
    unfold look at h
    split at h
    · cases h
      exact .refl m
    · cases h
  fails := by
    intro m e m' h _
    unfold look at h
    split at h
    · cases h
    · cases h
      exact .refl m

theorem checks_charge (work : Nat) : Checks (charge work) where
  succeeds := by
    intro m _ m' h
    obtain ⟨_, _, hget, h⟩ := bind_run_ok_iff.mp h
    cases hget
    obtain ⟨n, _, hn, h⟩ := bind_run_ok_iff.mp h
    rw [orThrow_run] at hn
    split at hn
    · rename_i n' hsome
      cases hn
      cases h
      obtain ⟨hadd, hle⟩ := Option.filter_eq_some_iff.mp hsome
      obtain ⟨hsum, -⟩ := checkedAdd_eq_some.mp hadd
      have hle : n ≤ m.limits.maxWork := of_decide_eq_true hle
      exact ⟨rfl, by show m.work ≤ n; omega, Or.inr hle⟩
    · cases hn
  fails := by
    refine checks_get.bind fun m => ?_
    exact (checks_orThrow _ _).fails.bind_last fun n => neverFails_set _

/-- A look at an allocation whose number is known to be right. -/
theorem neverFails_lookAllocation (id : Nat) :
    NeverFails Fault.Returned (look (allocation · id)) := by
  intro m e m' h
  unfold look at h
  dsimp only [allocation] at h
  cases ha : m.allocations[id]? with
  | some a =>
      rw [ha] at h
      cases h
  | none =>
      rw [ha] at h
      cases h
      exact fun hret => hret rfl

theorem neverFails_panic {α : Type} (o : Option α) :
    NeverFails Fault.Returned (orThrow o Fault.panic : MemoryM α) :=
  neverFails_orThrow o fun hret => hret rfl

theorem neverFails_assert (c : Prop) [Decidable c] :
    NeverFails Fault.Returned (require c Fault.panic : MemoryM Unit) :=
  neverFails_require c fun hret => hret rfl

theorem failsIn_replaceFragments (id start stop : Nat) (new : List (Nat × Fragment)) :
    FailsIn Fault.Returned Charged (replaceFragments id start stop new) := by
  refine checks_get.bind fun m => ?_
  refine (checks_look _).bind fun a => ?_
  refine (checks_charge _).bind fun _ => ?_
  refine (checks_orThrow _ _).bind fun rest => ?_
  exact (checks_require _ _).fails.bind_last fun _ => neverFails_modify _

theorem neverFails_retireAllocation (id : Nat) :
    NeverFails Fault.Returned (retireAllocation id) := by
  refine (neverFails_lookAllocation id).bind fun a => ?_
  by_cases hlive : a.alive = true
  · rw [if_pos hlive]
    exact neverFails_get.bind fun m => (neverFails_panic _).bind fun n => neverFails_set _
  · rw [if_neg hlive]
    exact neverFails_pure ()

theorem neverFails_retireStacks (ids : List Nat) :
    NeverFails Fault.Returned (retireStacks ids) := by
  induction ids with
  | nil => exact neverFails_pure ()
  | cons id ids ih =>
      refine (neverFails_lookAllocation id).bind fun a => ?_
      by_cases hkind : a.kind = .stack
      · simp only [hkind, if_true]
        exact (neverFails_retireAllocation id).bind fun _ => ih
      · simp only [hkind, if_false]
        exact ih

/-! ## Operations -/

theorem failsIn_allocate (size natural align : Nat) :
    FailsIn Fault.Returned Charged (allocate size natural align) := by
  refine checks_get.bind fun m => ?_
  refine (checks_require _ _).bind fun _ => ?_
  refine (checks_orThrow _ _).bind fun bytes => ?_
  refine (checks_require _ _).bind fun _ => ?_
  refine (checks_orThrow _ _).bind fun address => ?_
  refine (checks_orThrow _ _).bind fun next => ?_
  refine (checks_orThrow _ _).bind fun work => ?_
  -- The allocation is added when nothing can fail any more.
  refine (checks_charge work).fails.bind_last fun _ => ?_
  exact (neverFails_modify _).bind fun _ => neverFails_pure _

theorem failsIn_allocateGlobal (size natural align : Nat) :
    FailsIn Fault.Returned Charged (allocateGlobal size natural align) := by
  refine (failsIn_allocate size natural align).bind_last fun pointer => ?_
  refine (neverFails_panic _).bind fun cap => ?_
  exact (neverFails_modify _).bind fun _ => neverFails_pure _

theorem failsIn_sealGlobal (pointer : Pointer) (readonly : Bool) :
    FailsIn Fault.Returned Charged (sealGlobal pointer readonly) := by
  refine (checks_look _).bind fun e => ?_
  refine (checks_look _).bind fun a => ?_
  refine (checks_require _ _).fails.bind_last fun _ => ?_
  exact (neverFails_modify _).bind fun _ => neverFails_pure _

theorem failsIn_retireStack (pointer : Pointer) (ownerStart : Nat) :
    FailsIn Fault.Returned Charged (retireStack pointer ownerStart) := by
  refine (checks_look _).bind fun e => ?_
  refine (checks_look _).bind fun a => ?_
  refine (checks_require _ _).bind fun _ => ?_
  exact (checks_charge _).fails.bind_last fun _ => neverFails_retireAllocation _

theorem failsIn_retireFrom (start : Nat) :
    FailsIn Fault.Returned Charged (retireFrom start) := by
  refine checks_get.bind fun m => ?_
  refine (checks_orThrow _ _).bind fun count => ?_
  exact (checks_charge _).fails.bind_last fun _ => neverFails_retireStacks _

theorem failsIn_load (pointer : Pointer) (ty : Ty) (align : Nat)
    (signature : Option FunctionSignature) :
    FailsIn Fault.Returned Charged (loadWithSignature pointer ty align signature) := by
  refine (checks_look _).bind fun layout => ?_
  refine (checks_look _).bind fun e => ?_
  exact (checks_charge _).bind fun _ => (checks_look _).fails

theorem failsIn_store (pointer : Pointer) (ty : Ty) (value : Value) (align : Nat) :
    FailsIn Fault.Returned Charged (store pointer ty value align) := by
  refine (checks_look _).bind fun layout => ?_
  refine (checks_look _).bind fun e => ?_
  refine (checks_look _).bind fun encoded => ?_
  refine (checks_charge _).bind fun _ => ?_
  -- The fragments are replaced: from here on only the bytes are written.
  refine (failsIn_replaceFragments _ _ _ _).bind_last fun _ => ?_
  refine (neverFails_lookAllocation _).bind fun a => ?_
  exact (neverFails_assert _).bind fun _ => neverFails_modify _

theorem failsIn_copy (dst src : Pointer) (size align : Nat) :
    FailsIn Fault.Returned Charged (copy dst src size align) := by
  unfold copy
  by_cases hsize : size = 0
  · rw [if_pos hsize]
    exact (neverFails_pure ()).failsIn
  rw [if_neg hsize]
  refine (checks_look _).bind fun source => ?_
  refine (checks_look _).bind fun destination => ?_
  refine (checks_require _ _).bind fun _ => ?_
  refine checks_get.bind fun m => ?_
  refine (checks_look _).bind fun origin => ?_
  refine (checks_orThrow _ _).bind fun work => ?_
  refine (checks_charge _).bind fun _ => ?_
  -- The source was read before its bytes go to the destination.
  exact (failsIn_replaceFragments _ _ _ _).bind_last fun _ => neverFails_modify _

theorem failsIn_setBytes (dst : Pointer) (byte : UInt8) (size align : Nat) :
    FailsIn Fault.Returned Charged (setBytes dst byte size align) := by
  unfold setBytes
  by_cases hsize : size = 0
  · rw [if_pos hsize]
    exact (neverFails_pure ()).failsIn
  rw [if_neg hsize]
  refine (checks_look _).bind fun e => ?_
  refine (checks_orThrow _ _).bind fun work => ?_
  refine (checks_charge _).bind fun _ => ?_
  refine (failsIn_replaceFragments _ _ _ _).bind_last fun _ => ?_
  exact (neverFails_modify _).bind fun _ => neverFails_modify _

theorem failsIn_uninit (pointer : Pointer) (size align : Nat) :
    FailsIn Fault.Returned Charged (uninit pointer size align) := by
  refine (checks_look _).bind fun e => ?_
  refine (checks_charge _).bind fun _ => ?_
  exact (failsIn_replaceFragments _ _ _ _).bind_last fun _ => neverFails_modify _

end Memory

/-- An operation that fails has charged work, and done nothing else. -/
theorem MemoryOp.failsIn_run (op : MemoryOp) :
    FailsIn Fault.Returned Memory.Charged op.run := by
  cases op with
  | allocate size natural align =>
      exact (Memory.failsIn_allocate size natural align).bind_last fun _ => neverFails_pure _
  | allocateGlobal size natural align =>
      exact (Memory.failsIn_allocateGlobal size natural align).bind_last fun _ =>
        neverFails_pure _
  | sealGlobal pointer readonly =>
      exact (Memory.failsIn_sealGlobal pointer readonly).bind_last fun _ => neverFails_pure _
  | retireStack pointer ownerStart =>
      exact (Memory.failsIn_retireStack pointer ownerStart).bind_last fun _ => neverFails_pure _
  | retireFrom start =>
      exact (Memory.failsIn_retireFrom start).bind_last fun _ => neverFails_pure _
  | gep pointer plan indices =>
      exact (Memory.checks_look _).fails.bind_last fun _ => neverFails_pure _
  | load pointer ty align signature =>
      exact (Memory.failsIn_load pointer ty align signature).bind_last fun _ => neverFails_pure _
  | store pointer ty value align =>
      exact (Memory.failsIn_store pointer ty value align).bind_last fun _ => neverFails_pure _
  | copy dst src size align =>
      exact (Memory.failsIn_copy dst src size align).bind_last fun _ => neverFails_pure _
  | set dst byte size align =>
      exact (Memory.failsIn_setBytes dst byte size align).bind_last fun _ => neverFails_pure _
  | uninit pointer size align =>
      exact (Memory.failsIn_uninit pointer size align).bind_last fun _ => neverFails_pure _

/-- **Failures are atomic**: an operation that returns an error, in any memory, leaves bytes,
initialization, fragments, lifetimes, permissions, counters and the next address as they
were; only the work counter may have grown. -/
theorem Memory.failure_atomic {m m' : Memory} {op : MemoryOp} {e : Fault}
    (h : op.run m = .error e m') (he : e ≠ .panic) :
    m' = { m with work := m'.work } ∧ m.work ≤ m'.work :=
  have hcharged := op.failsIn_run m e m' h he
  ⟨hcharged.same, hcharged.grows⟩

/-- A memory of eight bytes in which no fragments fit. -/
def Memory.tight : Memory :=
  ((Memory.new 0 (fun _ => 0) ⟨8, 1, 0, 100⟩).runOps [.allocate 8 8 8]).2

/-- Storing a pointer there charges the work and fails. -/
theorem Memory.failure_atomic_store :
    Memory.tight.work = 17 ∧
      ∃ m', (MemoryOp.store (freshPointer 0 0 0x1000 8) (.ptr .u32)
            (.pointer (freshPointer 0 0 0x1000 8)) 8).run Memory.tight =
          .error (.limit .pointerFragments 0) m' ∧ m'.work = 33 ∧
        m' = { Memory.tight with work := m'.work } ∧ Memory.tight.work ≤ m'.work :=
  have h : (MemoryOp.store (freshPointer 0 0 0x1000 8) (.ptr .u32)
      (.pointer (freshPointer 0 0 0x1000 8)) 8).run Memory.tight =
        .error (.limit .pointerFragments 0) { Memory.tight with work := 33 } := rfl
  ⟨rfl, _, h, rfl, Memory.failure_atomic h nofun⟩

end Whale
