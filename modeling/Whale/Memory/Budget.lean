import Whale.Lib.Repeat
import Whale.Memory.Ops

set_option autoImplicit false

/-! # Budgets of the memory are transparent

An operation under larger budgets does what it did under smaller ones, unless it failed
because a budget was exhausted: no budget leaks into an address, a value or an order of
checks. -/

namespace Whale

structure MemoryLimits.AtMost (L L' : MemoryLimits) : Prop where
  bytes : L.maxBytes ≤ L'.maxBytes
  allocations : L.maxAllocations ≤ L'.maxAllocations
  fragments : L.maxPointerFragments ≤ L'.maxPointerFragments
  work : L.maxWork ≤ L'.maxWork

def Fault.isLimit : Fault → Prop
  | .limit _ _ => True
  | _ => False

/-- An exhausted budget, when the budgets differ. -/
def LimitEscape (L L' : MemoryLimits) (e : Fault) : Prop :=
  e.isLimit ∧ L ≠ L'

/-- The same memory under other budgets. -/
def Relimited (L L' : MemoryLimits) (m m' : Memory) : Prop :=
  m.limits = L ∧ m' = { m with limits := L' }

namespace Memory

variable {L L' : MemoryLimits} {α : Type}

/-- Larger budgets do not change what `x` does. -/
abbrev Transparent (L L' : MemoryLimits) (x : MemoryM α) : Prop :=
  Repeats (Relimited L L') (LimitEscape L L') x x

/-- A look that does not depend on the budgets. -/
theorem repeats_look {f : Memory → Except Fault α} (hf : ∀ m L, f { m with limits := L } = f m) :
    Transparent L L' (look f) := by
  rintro m _ ⟨rfl, rfl⟩
  have hsame := hf m L'
  unfold RepeatsAt look
  cases hrun : f m with
  | ok a =>
      rw [hrun] at hsame
      exact ⟨{ m with limits := L' }, by rw [hsame], rfl, rfl⟩
  | error e =>
      rw [hrun] at hsame
      exact Or.inr ⟨{ m with limits := L' }, by rw [hsame], rfl, rfl⟩

/-- A change that does not touch the budgets. -/
theorem repeats_modify {g : Memory → Memory}
    (hg : ∀ m L, g { m with limits := L } = { g m with limits := L })
    (hl : ∀ m, (g m).limits = m.limits) : Transparent L L' (modify g) := by
  refine Repeats.modify ?_
  rintro m _ ⟨rfl, rfl⟩
  exact ⟨hl m, hg m L'⟩

theorem repeats_charge (h : L.AtMost L') (work : Nat) : Transparent L L' (charge work) := by
  rintro m _ ⟨rfl, rfl⟩
  refine RepeatsAt.get_bind (RepeatsAt.bind (RepeatsAt.orThrow ⟨rfl, rfl⟩ ?_ ?_) ?_)
  · intro a ha
    rw [Option.filter_eq_some_iff] at ha ⊢
    refine ⟨ha.1, ?_⟩
    have hle := ha.2
    simp only [decide_eq_true_eq] at hle ⊢
    exact le_trans hle h.work
  · intro hfail
    by_cases hL : m.limits = L'
    · exact Or.inr ⟨by rw [← hL]; exact hfail, by rw [hL]⟩
    · exact Or.inl ⟨trivial, hL⟩
  · intro a t t' _ _
    exact RepeatsAt.set ⟨rfl, rfl⟩

theorem repeats_allocate (h : L.AtMost L') (size natural align : Nat) :
    Transparent L L' (allocate size natural align) := by
  rintro m _ ⟨rfl, rfl⟩
  refine RepeatsAt.get_bind (RepeatsAt.bind (RepeatsAt.require ⟨rfl, rfl⟩ ?_ ?_) ?_)
  · exact fun hlt => lt_of_lt_of_le hlt h.allocations
  · intro hfail
    by_cases hL : m.limits = L'
    · exact Or.inr ⟨by rw [← hL]; exact hfail, by rw [hL]⟩
    · exact Or.inl ⟨trivial, hL⟩
  intro _ t t' _ ht
  refine RepeatsAt.bind (RepeatsAt.orThrow ht ?_ ?_) ?_
  · intro a ha
    rw [Option.filter_eq_some_iff] at ha ⊢
    refine ⟨ha.1, ?_⟩
    have hle := ha.2
    simp only [decide_eq_true_eq] at hle ⊢
    exact le_trans hle h.bytes
  · intro hfail
    by_cases hL : m.limits = L'
    · exact Or.inr ⟨by rw [← hL]; exact hfail, by rw [hL]⟩
    · exact Or.inl ⟨trivial, hL⟩
  intro bytes t t' _ ht
  refine RepeatsAt.bind (Repeats.require _ _ t t' ht) fun _ t t' _ ht => ?_
  refine RepeatsAt.bind (Repeats.orThrow _ _ t t' ht) fun address t t' _ ht => ?_
  refine RepeatsAt.bind (Repeats.orThrow _ _ t t' ht) fun next t t' _ ht => ?_
  refine RepeatsAt.bind (Repeats.orThrow _ _ t t' ht) fun work t t' _ ht => ?_
  refine RepeatsAt.bind (repeats_charge h work t t' ht) fun _ t t' _ ht => ?_
  refine RepeatsAt.bind (repeats_modify ?_ ?_ t t' ht) fun _ t t' _ ht => ?_
  · exact fun _ _ => rfl
  · exact fun _ => rfl
  · exact Repeats.pure _ t t' ht

theorem repeats_allocateGlobal (h : L.AtMost L') (size natural align : Nat) :
    Transparent L L' (allocateGlobal size natural align) := by
  refine (repeats_allocate h size natural align).bind fun pointer => ?_
  refine (Repeats.orThrow _ _).bind fun cap => ?_
  refine Repeats.bind (repeats_modify ?_ ?_) fun _ => ?_
  · exact fun _ _ => rfl
  · exact fun _ => rfl
  exact Repeats.pure _

theorem repeats_sealGlobal (pointer : Pointer) (readonly : Bool) :
    Transparent L L' (sealGlobal pointer readonly) := by
  refine (repeats_look fun _ _ => rfl).bind fun e => ?_
  refine (repeats_look fun _ _ => rfl).bind fun allocation => ?_
  refine (Repeats.require _ _).bind fun _ => ?_
  refine Repeats.bind (repeats_modify ?_ ?_) fun _ => ?_
  · exact fun _ _ => rfl
  · exact fun _ => rfl
  exact Repeats.pure _

theorem repeats_retireAllocation (id : Nat) : Transparent L L' (retireAllocation id) := by
  refine (repeats_look fun _ _ => rfl).bind fun allocation => ?_
  by_cases hlive : allocation.alive = true
  · simp only [hlive, if_true]
    rintro m _ ⟨rfl, rfl⟩
    refine RepeatsAt.get_bind (RepeatsAt.bind (Repeats.orThrow _ _ _ _ ⟨rfl, rfl⟩) ?_)
    intro fragments t t' _ _
    exact RepeatsAt.set ⟨rfl, rfl⟩
  · simp only [hlive, Bool.false_eq_true, if_false]
    exact Repeats.pure _

theorem repeats_retireStack (h : L.AtMost L') (pointer : Pointer) (ownerStart : Nat) :
    Transparent L L' (retireStack pointer ownerStart) := by
  refine (repeats_look fun _ _ => rfl).bind fun e => ?_
  refine (repeats_look fun _ _ => rfl).bind fun allocation => ?_
  refine (Repeats.require _ _).bind fun _ => ?_
  exact (repeats_charge h _).bind fun _ => repeats_retireAllocation _

theorem repeats_retireStacks (ids : List Nat) : Transparent L L' (retireStacks ids) := by
  induction ids with
  | nil => exact Repeats.pure ()
  | cons id ids ih =>
      refine (repeats_look fun _ _ => rfl).bind fun allocation => ?_
      by_cases hkind : allocation.kind = .stack
      · simp only [hkind, if_true]
        exact (repeats_retireAllocation id).bind fun _ => ih
      · simp only [hkind, if_false]
        exact ih

theorem repeats_retireFrom (h : L.AtMost L') (start : Nat) :
    Transparent L L' (retireFrom start) := by
  rintro m _ ⟨rfl, rfl⟩
  refine RepeatsAt.get_bind (RepeatsAt.bind (Repeats.orThrow _ _ _ _ ⟨rfl, rfl⟩) ?_)
  intro count t t' _ ht
  exact (Repeats.bind (repeats_charge h count) fun _ => repeats_retireStacks _) t t' ht

theorem repeats_replaceFragments (h : L.AtMost L') (id start stop : Nat)
    (new : List (Nat × Fragment)) : Transparent L L' (replaceFragments id start stop new) := by
  rintro m _ ⟨rfl, rfl⟩
  refine RepeatsAt.get_bind (RepeatsAt.bind (repeats_look ?_ _ _ ⟨rfl, rfl⟩) ?_)
  · exact fun _ _ => rfl
  intro allocation t t' _ ht
  refine RepeatsAt.bind (repeats_charge h _ t t' ht) fun _ t t' _ ht => ?_
  refine RepeatsAt.bind (Repeats.orThrow _ _ t t' ht) fun rest t t' _ ht => ?_
  refine RepeatsAt.bind (RepeatsAt.require ht ?_ ?_) fun _ t t' _ ht => ?_
  · exact fun hle => le_trans hle h.fragments
  · intro hfail
    by_cases hL : m.limits = L'
    · exact Or.inr ⟨by rw [← hL]; exact hfail, by rw [hL]⟩
    · exact Or.inl ⟨trivial, hL⟩
  · refine repeats_modify ?_ ?_ t t' ht
    · exact fun _ _ => rfl
    · exact fun _ => rfl

theorem repeats_uninit (h : L.AtMost L') (pointer : Pointer) (size align : Nat) :
    Transparent L L' (uninit pointer size align) := by
  refine (repeats_look fun _ _ => rfl).bind fun e => ?_
  refine (repeats_charge h _).bind fun _ => ?_
  refine (repeats_replaceFragments h _ _ _ _).bind fun _ => ?_
  refine repeats_modify ?_ ?_
  · exact fun _ _ => rfl
  · exact fun _ => rfl

theorem repeats_copy (h : L.AtMost L') (dst src : Pointer) (size align : Nat) :
    Transparent L L' (copy dst src size align) := by
  unfold copy
  by_cases hsize : size = 0
  · rw [if_pos hsize]
    exact Repeats.pure ()
  rw [if_neg hsize]
  refine (repeats_look fun _ _ => rfl).bind fun source => ?_
  refine (repeats_look fun _ _ => rfl).bind fun destination => ?_
  refine (Repeats.require _ _).bind fun _ => ?_
  rintro m _ ⟨rfl, rfl⟩
  refine RepeatsAt.get_bind (RepeatsAt.bind (repeats_look ?_ _ _ ⟨rfl, rfl⟩) ?_)
  · exact fun _ _ => rfl
  intro origin t t' _ ht
  refine RepeatsAt.bind (Repeats.orThrow _ _ t t' ht) fun work t t' _ ht => ?_
  refine RepeatsAt.bind (repeats_charge h work t t' ht) fun _ t t' _ ht => ?_
  refine RepeatsAt.bind (repeats_replaceFragments h _ _ _ _ t t' ht) fun _ t t' _ ht => ?_
  refine repeats_modify ?_ ?_ t t' ht
  · exact fun _ _ => rfl
  · exact fun _ => rfl

theorem repeats_setBytes (h : L.AtMost L') (dst : Pointer) (byte : UInt8) (size align : Nat) :
    Transparent L L' (setBytes dst byte size align) := by
  unfold setBytes
  by_cases hsize : size = 0
  · rw [if_pos hsize]
    exact Repeats.pure ()
  rw [if_neg hsize]
  refine (repeats_look fun _ _ => rfl).bind fun e => ?_
  refine (Repeats.orThrow _ _).bind fun work => ?_
  refine (repeats_charge h work).bind fun _ => ?_
  refine (repeats_replaceFragments h _ _ _ _).bind fun _ => ?_
  refine Repeats.bind (repeats_modify ?_ ?_) fun _ => ?_
  · exact fun _ _ => rfl
  · exact fun _ => rfl
  refine repeats_modify ?_ ?_
  · exact fun _ _ => rfl
  · exact fun _ => rfl

theorem loadValue_limits (m : Memory) (L : MemoryLimits) (id start : Nat) (ty : Ty)
    (layout : TypeLayout) (signature : Option FunctionSignature) :
    loadValue { m with limits := L } id start ty layout signature =
      loadValue m id start ty layout signature := by
  cases ty <;> rfl

theorem repeats_load (h : L.AtMost L') (pointer : Pointer) (ty : Ty) (align : Nat)
    (signature : Option FunctionSignature) :
    Transparent L L' (loadWithSignature pointer ty align signature) := by
  refine (repeats_look fun _ _ => rfl).bind fun layout => ?_
  refine (repeats_look fun _ _ => rfl).bind fun e => ?_
  refine (repeats_charge h _).bind fun _ => ?_
  exact repeats_look fun m L => loadValue_limits m L _ _ ty layout signature

theorem repeats_store (h : L.AtMost L') (pointer : Pointer) (ty : Ty) (value : Value)
    (align : Nat) : Transparent L L' (store pointer ty value align) := by
  refine (repeats_look fun _ _ => rfl).bind fun layout => ?_
  refine (repeats_look fun _ _ => rfl).bind fun e => ?_
  refine (repeats_look fun _ _ => rfl).bind fun encoded => ?_
  refine (repeats_charge h _).bind fun _ => ?_
  refine (repeats_replaceFragments h _ _ _ _).bind fun _ => ?_
  refine (repeats_look fun _ _ => rfl).bind fun allocation => ?_
  refine (Repeats.require _ _).bind fun _ => ?_
  refine repeats_modify ?_ ?_
  · exact fun _ _ => rfl
  · exact fun _ => rfl

end Memory

end Whale
