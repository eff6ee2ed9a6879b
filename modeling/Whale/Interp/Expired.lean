import Whale.Interp.Rounds

set_option autoImplicit false

/-! # Accesses through a pointer without authority

An instruction accesses memory through an operand when it looks at what the pointer points to:
a load, a store, a copy or a fill of at least one byte, a comparison or difference of pointers, the
step to an element, the end of a lifetime. Through a pointer that has no authority each of these
traps and leaves the memory as it is (`evalInstruction_traps`). -/

namespace Whale

/-- The instruction, whose other operands are there, accesses memory through the operand `id`. -/
def Instruction.Accesses (prepared : Prepared) (key : BlockId × Nat) (values : Values)
    (id : ValueId) : Instruction → Prop
  | .lifetimeEnd ptr => ptr = id
  | .ptrDiff _ lhs rhs =>
      (∃ a b, values.pointer lhs = .ok a ∧ values.pointer rhs = .ok b) ∧ (lhs = id ∨ rhs = id)
  | .iCmp _ _ ty lhs rhs =>
      ty.isPtr = true ∧ (∃ a b, values.pointer lhs = .ok a ∧ values.pointer rhs = .ok b) ∧
        (lhs = id ∨ rhs = id)
  | .cmp _ op ty lhs rhs =>
      ty.isPtr = true ∧ (cmpPred op).isSome ∧
        (∃ a b, values.pointer lhs = .ok a ∧ values.pointer rhs = .ok b) ∧ (lhs = id ∨ rhs = id)
  | .volatileLoad _ ty ptr _ | .load _ ty ptr _ => (checkedLayout ty).isOk ∧ ptr = id
  | .volatileStore ty value ptr _ | .store ty value ptr _ =>
      (∃ v, values.read value = .ok v) ∧ (checkedLayout ty).isOk ∧ ptr = id
  | .uninit _ ptr _ => (prepared.sizes.get key).isSome ∧ ptr = id
  | .memcpy dst src n align =>
      (∃ d s, values.pointer dst = .ok d ∧ values.pointer src = .ok s) ∧
        (∃ count size, values.scalar n = .ok count ∧ Integer.operand count 64 = .ok size ∧
          size ≠ 0) ∧ align ≠ 0 ∧ (dst = id ∨ src = id)
  | .memset dst val n _ =>
      (∃ byte b, values.scalar val = .ok byte ∧ Integer.operand byte 8 = .ok b) ∧
        (∃ count size, values.scalar n = .ok count ∧ Integer.operand count 64 = .ok size ∧
          size ≠ 0) ∧ dst = id
  | .gep _ _ basePtr indices =>
      (∃ inputs, indices.mapM values.scalar = .ok inputs) ∧ indices ≠ [] ∧
        (prepared.geps.get key).isSome ∧ basePtr = id
  | _ => False

/-! ## Memory -/

namespace Memory

variable {m : Memory} {p q : Pointer}

/-- A pointer the memory gives no authority. -/
def Refuses (m : Memory) (p : Pointer) : Prop := ∃ t, m.identity p = .error (.trap t)

theorem identity_trap (m : Memory) (p : Pointer) :
    (∃ r, m.identity p = .ok r) ∨ m.Refuses p := by
  unfold Refuses identity
  repeat' split
  all_goals first
    | exact .inr ⟨_, rfl⟩
    | exact .inl ⟨_, rfl⟩

/-- The allocation of the pointer has ended. -/
theorem refuses_of_dead {cap : Capability} {a : Allocation} (hcap : p.capability = some cap)
    (ha : m.allocations[cap.allocation]? = some a) (hdead : a.alive = false) : m.Refuses p := by
  rcases identity_trap m p with ⟨r, hr⟩ | h
  · exact absurd hr (identity_ended hcap ha hdead r)
  · exact h

theorem access_refused (h : m.Refuses p) (n align : Nat) (write : Bool) :
    ∃ t, m.access p n align write = .error (.trap t) := by
  obtain ⟨t, ht⟩ := h
  exact ⟨t, by rw [access, ht]; rfl⟩

theorem access_trap {n align : Nat} {write : Bool} (halign : align ≠ 0) :
    (∃ r, m.access p n align write = .ok r) ∨
      ∃ t, m.access p n align write = .error (.trap t) := by
  rcases identity_trap m p with ⟨⟨id, cap⟩, hid⟩ | h
  · obtain ⟨a, ha, -⟩ := identity_ok hid
    rw [access, hid, ok_bind]
    dsimp only
    cases hstop : checkedAdd cap.offset n with
    | none => exact .inr ⟨_, rfl⟩
    | some stop =>
        simp only [orThrow_some, ok_bind, allocation, ha]
        by_cases hle : stop ≤ cap.upper
        · rw [require_of hle, ok_bind]
          by_cases hpermitted :
              (if write then cap.write && a.write else cap.read && a.read) = true
          · rw [require_of hpermitted, ok_bind, require_of halign, ok_bind]
            by_cases haddress : p.address.toNat % align = 0
            · rw [require_of haddress, ok_bind]
              exact .inl ⟨_, rfl⟩
            · rw [require_of_not haddress]
              exact .inr ⟨_, rfl⟩
          · rw [require_of_not hpermitted]
            exact .inr ⟨_, rfl⟩
        · rw [require_of_not hle]
          exact .inr ⟨_, rfl⟩
  · exact .inr (access_refused h n align write)

theorem look_error {α : Type} {f : Memory → Except Fault α} {e : Fault} (h : f m = .error e) :
    look f m = .error e m := by
  rw [look, h]

theorem look_bind {α β : Type} {f : Memory → Except Fault α} {a : α} (h : f m = .ok a)
    (k : α → MemoryM β) : (look f >>= k) m = k a m := by
  rw [bind_run, look, h]

/-- The operation traps and changes nothing. -/
def Traps {α : Type} (x : MemoryM α) (m : Memory) : Prop := ∃ t, x m = .error (.trap t) m

theorem Traps.bind {α β : Type} {x : MemoryM α} (h : Traps x m) (k : α → MemoryM β) :
    Traps (x >>= k) m := by
  obtain ⟨t, ht⟩ := h
  exact ⟨t, bind_run_error ht k⟩

theorem traps_access (h : m.Refuses p) (n align : Nat) (write : Bool) :
    Traps (look (access · p n align write)) m := by
  obtain ⟨t, ht⟩ := access_refused h n align write
  exact ⟨t, look_error ht⟩

theorem traps_retireStack (h : m.Refuses p) (start : Nat) : Traps (retireStack p start) m := by
  obtain ⟨t, ht⟩ := h
  exact Traps.bind ⟨t, look_error ht⟩ _

theorem traps_load (h : m.Refuses p) {ty : Ty} (hty : (checkedLayout ty).isOk) (align : Nat)
    (signature : Option FunctionSignature) : Traps (loadWithSignature p ty align signature) m := by
  cases hlayout : checkedLayout ty with
  | error e => rw [hlayout] at hty; cases hty
  | ok layout =>
      obtain ⟨t, ht⟩ := traps_access h layout.size align false
      exact ⟨t, (look_bind (f := fun _ => checkedLayout ty) hlayout _).trans (bind_run_error ht _)⟩

theorem traps_store (h : m.Refuses p) {ty : Ty} (hty : (checkedLayout ty).isOk) (value : Value)
    (align : Nat) : Traps (store p ty value align) m := by
  cases hlayout : checkedLayout ty with
  | error e => rw [hlayout] at hty; cases hty
  | ok layout =>
      obtain ⟨t, ht⟩ := traps_access h layout.size align true
      exact ⟨t, (look_bind (f := fun _ => checkedLayout ty) hlayout _).trans (bind_run_error ht _)⟩

theorem traps_uninit (h : m.Refuses p) (size align : Nat) : Traps (uninit p size align) m :=
  (traps_access h size align true).bind _

theorem traps_setBytes (h : m.Refuses p) (byte : UInt8) {size : Nat} (hsize : size ≠ 0)
    (align : Nat) : Traps (setBytes p byte size align) m := by
  rw [setBytes, if_neg hsize]
  exact (traps_access h size align true).bind _

/-- The source is looked at before the destination. -/
theorem traps_copy {dst src : Pointer} (h : m.Refuses dst ∨ m.Refuses src) {size align : Nat}
    (hsize : size ≠ 0) (halign : align ≠ 0) : Traps (copy dst src size align) m := by
  rw [copy, if_neg hsize]
  have hsrc : (∃ r, m.access src size align false = .ok r) ∨
      ∃ t, m.access src size align false = .error (.trap t) := access_trap halign
  rcases hsrc with ⟨r, hr⟩ | ⟨t, ht⟩
  · have hdst : m.Refuses dst := by
      rcases h with h | h
      · exact h
      · obtain ⟨t, ht⟩ := access_refused h size align false
        rw [ht] at hr
        cases hr
    obtain ⟨t, ht⟩ := traps_access hdst size align true
    exact ⟨t, (look_bind (f := (access · src size align false)) hr _).trans (bind_run_error ht _)⟩
  · exact ⟨t, bind_run_error (look_error ht) _⟩

theorem traps_gep (h : m.Refuses p) (plan : List GepStep) {indices : List ConstValue}
    (hindices : indices ≠ []) : Traps (look (gep · p plan indices)) m := by
  obtain ⟨t, ht⟩ := h
  refine ⟨t, look_error ?_⟩
  have hempty : ¬ indices.isEmpty = true := by simpa using hindices
  rw [gep, if_neg hempty, ht]
  rfl

theorem difference_trap (h : m.Refuses p ∨ m.Refuses q) :
    ∃ t, m.difference p q = .error (.trap t) := by
  rcases identity_trap m p with ⟨r, hr⟩ | ⟨t, ht⟩
  · obtain ⟨t, ht⟩ : m.Refuses q := by
      rcases h with ⟨t, ht⟩ | h
      · rw [ht] at hr
        cases hr
      · exact h
    exact ⟨t, by rw [difference, hr, ok_bind, ht]; rfl⟩
  · exact ⟨t, by rw [difference, ht]; rfl⟩

/-- Only two null pointers are compared without a look at the memory. -/
theorem equal_trap (h : (m.Refuses p ∧ p.address ≠ 0) ∨ (m.Refuses q ∧ q.address ≠ 0)) :
    ∃ t, m.equal p q = .error (.trap t) := by
  have hnull : ¬ (p.address = 0 ∧ q.address = 0) := by
    rcases h with ⟨-, hp⟩ | ⟨-, hq⟩
    · exact fun hboth => hp hboth.1
    · exact fun hboth => hq hboth.2
  rw [equal, if_neg hnull]
  by_cases hp : p.address = 0
  · obtain ⟨⟨t, ht⟩, -⟩ := h.resolve_left fun hboth => hboth.2 hp
    exact ⟨t, by rw [if_pos hp, ht]; rfl⟩
  · rw [if_neg hp]
    by_cases hq : q.address = 0
    · obtain ⟨⟨t, ht⟩, -⟩ := h.resolve_right fun hboth => hboth.2 hq
      exact ⟨t, by rw [if_pos hq, ht]; rfl⟩
    · rw [if_neg hq]
      rcases identity_trap m p with ⟨r, hr⟩ | ⟨t, ht⟩
      · obtain ⟨t, ht⟩ : m.Refuses q := by
          rcases h with ⟨⟨t, ht⟩, -⟩ | ⟨h, -⟩
          · rw [ht] at hr
            cases hr
          · exact h
        exact ⟨t, by rw [hr, ok_bind, ht]; rfl⟩
      · exact ⟨t, by rw [ht]; rfl⟩

theorem pointerCompare_trap (pred : ICmpPred)
    (h : (m.Refuses p ∧ p.address ≠ 0) ∨ (m.Refuses q ∧ q.address ≠ 0)) :
    ∃ t, pointerCompare m pred p q = .error (.trap t) := by
  have horder : ∃ t, m.compareOrder p q = .error (.trap t) := by
    obtain ⟨t, ht⟩ := difference_trap (h.imp And.left And.left)
    exact ⟨t, by rw [compareOrder, ht]; rfl⟩
  obtain ⟨t, ht⟩ := equal_trap h
  obtain ⟨t', ht'⟩ := horder
  cases pred with
  | eq => exact ⟨t, ht⟩
  | ne => exact ⟨t, by rw [pointerCompare, ht]; rfl⟩
  | _ => exact ⟨t', by rw [pointerCompare, ht']; rfl⟩

end Memory

/-! ## Instructions -/

section

variable {m : Memory} {α β : Type}

theorem ofExcept_bind {x : Except InstructionFault α} {a : α} (h : x = .ok a)
    (k : α → InstructionM β) : (InstructionM.ofExcept x >>= k) m = k a m := by
  rw [h]
  rfl

theorem orThrow_bind {o : Option α} {a : α} {e : InstructionFault} (h : o = some a)
    (k : α → InstructionM β) : ((orThrow o e : InstructionM α) >>= k) m = k a m := by
  rw [h]
  rfl

/-- The instruction traps and changes nothing. -/
def InstructionM.Traps (x : InstructionM α) (m : Memory) : Prop :=
  ∃ reason, x m = .error (.trap reason) m

theorem InstructionM.Traps.of_memory {x : MemoryM α} (h : Memory.Traps x m)
    (k : α → InstructionM β) : InstructionM.Traps (.ofMemory x >>= k) m := by
  obtain ⟨t, ht⟩ := h
  refine ⟨_, bind_run_error (e := .trap (.memory t)) ?_ k⟩
  rw [InstructionM.ofMemory, ht]
  rfl

theorem traps_evalCompare {values : Values} (pred : ICmpPred) {ty : Ty} {lhs rhs : ValueId}
    {a b : Pointer} (hty : ty.isPtr = true) (ha : values.pointer lhs = .ok a)
    (hb : values.pointer rhs = .ok b)
    (h : (m.Refuses a ∧ a.address ≠ 0) ∨ (m.Refuses b ∧ b.address ≠ 0)) :
    InstructionM.Traps (evalCompare values pred ty lhs rhs) m := by
  rw [evalCompare, if_pos hty, InstructionM.Traps, ofExcept_bind ha, ofExcept_bind hb]
  obtain ⟨t, ht⟩ := Memory.pointerCompare_trap pred h
  exact InstructionM.Traps.of_memory ⟨t, Memory.look_error ht⟩ _

/-- Whichever operand is the refused pointer, one of the two values is refused. -/
theorem refused_operand {values : Values} {id lhs rhs : ValueId} {p a b : Pointer}
    {P : Pointer → Prop} (hp : values.pointer id = .ok p) (hP : P p)
    (ha : values.pointer lhs = .ok a) (hb : values.pointer rhs = .ok b)
    (hid : lhs = id ∨ rhs = id) : P a ∨ P b := by
  rcases hid with rfl | rfl
  · rw [hp] at ha
    cases ha
    exact .inl hP
  · rw [hp] at hb
    cases hb
    exact .inr hP

/-- **Every access through a pointer without authority traps.** -/
theorem evalInstruction_traps (env : Env) {prepared : Prepared} (frame : Frame)
    {key : BlockId × Nat} {inst : Instruction} {id : ValueId} {p : Pointer}
    (hp : Values.pointer frame.values id = .ok p) (hrefuses : m.Refuses p)
    (haddress : p.address ≠ 0) (h : inst.Accesses prepared key frame.values id) :
    InstructionM.Traps (evalInstruction env prepared frame key inst) m := by
  have hboth := And.intro hrefuses haddress
  -- One case for each instruction that accesses memory; the others access nothing.
  cases inst with
  | lifetimeEnd ptr =>
      obtain rfl : ptr = id := h
      rw [evalInstruction, InstructionM.Traps, ofExcept_bind hp]
      exact InstructionM.Traps.of_memory (Memory.traps_retireStack hrefuses _) _
  | ptrDiff dst lhs rhs =>
      obtain ⟨⟨a, b, ha, hb⟩, hid⟩ := h
      rw [evalInstruction, InstructionM.Traps, ofExcept_bind ha, ofExcept_bind hb]
      obtain ⟨t, ht⟩ := Memory.difference_trap (refused_operand hp hrefuses ha hb hid)
      exact InstructionM.Traps.of_memory ⟨t, Memory.look_error ht⟩ _
  | iCmp dst pred ty lhs rhs =>
      obtain ⟨hty, ⟨a, b, ha, hb⟩, hid⟩ := h
      obtain ⟨t, ht⟩ := traps_evalCompare pred hty ha hb
        (refused_operand (P := fun q => m.Refuses q ∧ q.address ≠ 0) hp hboth ha hb hid)
      exact ⟨t, bind_run_error ht _⟩
  | cmp dst op ty lhs rhs =>
      obtain ⟨hty, hop, ⟨a, b, ha, hb⟩, hid⟩ := h
      obtain ⟨pred, hpred⟩ := Option.isSome_iff_exists.mp hop
      obtain ⟨t, ht⟩ := traps_evalCompare pred hty ha hb
        (refused_operand (P := fun q => m.Refuses q ∧ q.address ≠ 0) hp hboth ha hb hid)
      have hfloat : ¬ Scalar.floatType ty = true := by
        cases ty <;> first | (cases hty; done) | exact nofun
      refine ⟨t, bind_run_error ?_ _⟩
      rw [evalCmp, if_neg hfloat, orThrow_bind hpred]
      exact ht
  | volatileLoad dst ty ptr align | load dst ty ptr align =>
      obtain ⟨hty, rfl⟩ := h
      rw [evalInstruction, InstructionM.Traps, ofExcept_bind hp]
      exact InstructionM.Traps.of_memory (Memory.traps_load hrefuses hty _ _) _
  | volatileStore ty value ptr align | store ty value ptr align =>
      obtain ⟨⟨v, hv⟩, hty, rfl⟩ := h
      rw [evalInstruction, InstructionM.Traps, ofExcept_bind hp, ofExcept_bind hv]
      exact InstructionM.Traps.of_memory (Memory.traps_store hrefuses hty _ _) _
  | uninit ty ptr align =>
      obtain ⟨hsizes, rfl⟩ := h
      obtain ⟨size, hsize⟩ := Option.isSome_iff_exists.mp hsizes
      rw [evalInstruction, InstructionM.Traps, ofExcept_bind hp, orThrow_bind hsize]
      exact InstructionM.Traps.of_memory (Memory.traps_uninit hrefuses _ _) _
  | memcpy dst src n align =>
      obtain ⟨⟨d, s, hd, hs⟩, ⟨count, size, hcount, hsize, hne⟩, halign, hid⟩ := h
      rw [evalInstruction, InstructionM.Traps, ofExcept_bind hd, ofExcept_bind hs,
        ofExcept_bind hcount, ofExcept_bind hsize]
      have hrefused := refused_operand hp hrefuses hd hs hid
      have hnat : align.toNat ≠ 0 := fun hzero => halign (UInt32.toNat_inj.mp hzero)
      exact InstructionM.Traps.of_memory (Memory.traps_copy hrefused hne hnat) _
  | memset dst val n align =>
      obtain ⟨⟨byte, b, hbyte, hb⟩, ⟨count, size, hcount, hsize, hne⟩, rfl⟩ := h
      rw [evalInstruction, InstructionM.Traps, ofExcept_bind hp, ofExcept_bind hbyte,
        ofExcept_bind hb, ofExcept_bind hcount, ofExcept_bind hsize]
      exact InstructionM.Traps.of_memory (Memory.traps_setBytes hrefuses _ hne _) _
  | gep dst dstTy basePtr indices =>
      obtain ⟨⟨inputs, hinputs⟩, hindices, hplan, rfl⟩ := h
      obtain ⟨plan, hplan⟩ := Option.isSome_iff_exists.mp hplan
      have hne : inputs ≠ [] := by
        rintro rfl
        exact hindices (List.length_eq_zero_iff.mp (mapM_ok hinputs).length_eq)
      rw [evalInstruction, InstructionM.Traps, ofExcept_bind hinputs, ofExcept_bind hp,
        orThrow_bind hplan]
      exact InstructionM.Traps.of_memory (Memory.traps_gep hrefuses _ hne) _
  | _ => exact h.elim

end

end Whale
