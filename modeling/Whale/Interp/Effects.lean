import Whale.Interp.Rounds

set_option autoImplicit false

/-! # Observable effects of instructions

The classification by which an optimizer lets an unused instruction go, and what it is worth: a
function of instructions without an effect runs without a trap and leaves the memory alone. -/

namespace Whale

structure Effects where
  readsMemory : Bool := false
  writesMemory : Bool := false
  volatile : Bool := false
  calls : Bool := false
  mayTrap : Bool := false
  changesLifetime : Bool := false
  deriving DecidableEq

/-- Necessary, never sufficient, for deleting an unused instruction. -/
@[simp] def Effects.permitsUnusedRemoval (e : Effects) : Bool := e = {}

@[simp] def Instruction.effects : Instruction → Effects
  | .volatileLoad .. => { readsMemory := true, volatile := true, mayTrap := true }
  | .volatileStore .. => { writesMemory := true, volatile := true, mayTrap := true }
  | .load .. => { readsMemory := true, mayTrap := true }
  | .store .. | .uninit .. | .memset .. => { writesMemory := true, mayTrap := true }
  | .memcpy .. => { readsMemory := true, writesMemory := true, mayTrap := true }
  | .alloca .. | .lifetimeEnd .. => { changesLifetime := true, mayTrap := true }
  | .call .. => { calls := true, readsMemory := true, writesMemory := true, mayTrap := true }
  | .gep .. | .ptrDiff .. | .trapIf .. | .undef .. => { mayTrap := true }
  | .bin _ op .. => { mayTrap := op = .uDiv ∨ op = .sDiv ∨ op = .uRem ∨ op = .sRem }
  | .cast _ op .. => { mayTrap := op = .checkedInt ∨ op = .fToIS ∨ op = .fToIU }
  | .cmp _ _ ty .. | .iCmp _ _ ty .. => { mayTrap := ty.isPtr }
  | .const .. | .constDecl .. | .mov .. | .neg .. | .not .. | .fCmp .. | .select .. | .phi ..
  | .extract .. | .checked .. | .nullFunction .. | .functionAddr .. | .globalAddr .. => {}

@[simp] def Terminator.effects : Terminator → Effects
  | .trap _ => { mayTrap := true }
  | _ => {}

/-! ## Computations that cannot trap -/

/-- The computation ends with a result, or misses one that a verified program has. -/
def Quiet {α : Type} (x : Except InstructionFault α) : Prop :=
  Answer (fun _ => True) (fun e => e = .panic) x

section

variable {α β : Type}

@[simp] theorem quiet_ok (a : α) : Quiet (.ok a) := trivial

@[simp] theorem quiet_pure (a : α) : Quiet (pure a) := trivial

@[simp] theorem quiet_error (e : InstructionFault) :
    Quiet (.error e : Except InstructionFault α) ↔ e = .panic := Iff.rfl

@[simp] theorem quiet_throw (e : InstructionFault) :
    Quiet (throw e : Except InstructionFault α) ↔ e = .panic := Iff.rfl

@[simp] theorem quiet_orThrow (o : Option α) : Quiet (orThrow o InstructionFault.panic) := by
  cases o <;> simp

@[simp] theorem quiet_bind {x : Except InstructionFault α} {f : α → Except InstructionFault β} :
    Quiet (x >>= f) ↔ Quiet x ∧ ∀ a, x = .ok a → Quiet (f a) := by
  cases x with
  | ok a => simp [bind, Except.bind]
  | error e => simp [bind, Except.bind]

@[simp] theorem quiet_map {x : Except InstructionFault α} {f : α → β} :
    Quiet (f <$> x) ↔ Quiet x := by
  cases x <;> exact Iff.rfl

end

variable {values : Values}

@[simp] theorem quiet_operand (v : ConstValue) (bits : Nat) : Quiet (Integer.operand v bits) :=
  quiet_orThrow _

@[simp] theorem quiet_result (ty : Ty) (n : Nat) : Quiet (Integer.result ty n) := quiet_orThrow _

@[simp] theorem quiet_read (id : ValueId) : Quiet (values.read id) := by
  simp [Values.read]

@[simp] theorem quiet_scalar (id : ValueId) : Quiet (values.scalar id) := by
  refine quiet_bind.mpr ⟨quiet_read id, fun v _ => ?_⟩
  split <;> simp

@[simp] theorem quiet_pointer (id : ValueId) : Quiet (values.pointer id) := by
  refine quiet_bind.mpr ⟨quiet_read id, fun v _ => ?_⟩
  split <;> simp

@[simp] theorem quiet_boolean (id : ValueId) : Quiet (values.boolean id) := by
  refine quiet_bind.mpr ⟨quiet_scalar id, fun v _ => ?_⟩
  split <;> simp

theorem quiet_evalBin {op : BinOp} (hop : ¬ (op = .uDiv ∨ op = .sDiv ∨ op = .uRem ∨ op = .sRem))
    (ty : Ty) (a b : ConstValue) : Quiet (evalBin op ty a b) := by
  unfold evalBin
  split
  · split <;> simp
  · cases op <;> simp_all [Integer.bin, Integer.binBits]

/-- The conversions that give a float always give one. -/
theorem convert_gives_float {op : CastOp}
    (hop : op = .fExt ∨ op = .fTrunc ∨ op = .iToFS ∨ op = .iToFU) {src dst : Ty} {v : ConstValue}
    {r : Option ConstValue}
    (h : FloatBits.convert op src dst v = some r) : r ≠ none := by
  rintro rfl
  rcases hop with rfl | rfl | rfl | rfl <;> cases v <;>
    simp [FloatBits.convert, Option.bind_eq_some_iff] at h

theorem quiet_evalCast {op : CastOp} (hop : ¬ (op = .checkedInt ∨ op = .fToIS ∨ op = .fToIU))
    (src dst : Ty) (v : ConstValue) : Quiet (evalCast op src dst v) := by
  cases op
  case fExt | fTrunc | iToFS | iToFU =>
      refine quiet_bind.mpr ⟨quiet_orThrow _, fun r hr => ?_⟩
      cases r with
      | none => exact absurd rfl (convert_gives_float (by simp) (orThrow_ok_iff.mp hr))
      | some v => exact trivial
  all_goals simp_all [evalCast, Integer.cast]

theorem quiet_floatCompare (pred : FCmpPred) (a b : ConstValue) :
    Quiet (floatCompare pred a b) := by
  unfold floatCompare
  split <;> simp

theorem quiet_evalPure {inst : Instruction} (h : inst.effects.permitsUnusedRemoval = true)
    (env : Env) (prepared : Prepared) (key : BlockId × Nat) :
    Quiet (evalPure env prepared key values inst) := by
  cases inst <;> simp_all [evalPure]
  case bin => exact fun a _ b _ => quiet_evalBin (by simp_all) _ a b
  case neg =>
      intro a _
      unfold evalNeg
      split <;> simp [Integer.negate]
  case not => simp [Integer.complement]
  case fCmp => exact fun a _ b _ => quiet_floatCompare _ a b
  case cast =>
      split
      · simp
      · simp
      · split <;> simp
        exact fun a _ => quiet_evalCast (by simp_all) _ _ a
  case extract =>
      intro v _
      split <;> simp
  case checked => simp [Integer.checked]

/-! ## Instructions without an effect -/

/-- The computation leaves the memory alone and never traps. -/
def Effectless {α : Type} (x : InstructionM α) : Prop :=
  ∀ m, Concludes (fun _ m' => m' = m) (fun e => e = .panic) x m

theorem Effectless.bind {α β : Type} {x : InstructionM α} {f : α → InstructionM β}
    (hx : Effectless x) (hf : ∀ a, Effectless (f a)) : Effectless (x >>= f) := by
  intro m
  refine (hx m).bind fun a m' h => ?_
  subst h
  exact hf a m'

theorem Quiet.effectless {α : Type} {x : Except InstructionFault α} (h : Quiet x) :
    Effectless (.ofExcept x) := by
  intro m
  cases x with
  | ok a => rfl
  | error e => exact h

theorem effectless_evalCompare (pred : ICmpPred) {ty : Ty} (hty : ty.isPtr = false)
    (lhs rhs : ValueId) : Effectless (evalCompare values pred ty lhs rhs) := by
  unfold evalCompare
  rw [if_neg (by simp [hty])]
  refine (quiet_scalar lhs).effectless.bind fun a => (quiet_scalar rhs).effectless.bind fun b => ?_
  have hcompare : Quiet (Integer.compare pred ty a b) := by
    simp [Integer.compare]
  exact hcompare.effectless.bind fun _ _ => rfl

theorem effectless_orThrow {α : Type} (o : Option α) :
    Effectless (orThrow o InstructionFault.panic) := by
  cases o <;> exact fun _ => rfl

theorem effectless_evalCmp (op : CmpOp) {ty : Ty} (hty : ty.isPtr = false) (lhs rhs : ValueId) :
    Effectless (evalCmp values op ty lhs rhs) := by
  unfold evalCmp
  split
  · refine (quiet_scalar lhs).effectless.bind fun a => ?_
    refine (quiet_scalar rhs).effectless.bind fun b => ?_
    refine (effectless_orThrow _).bind fun pred => ?_
    exact (quiet_floatCompare pred a b).effectless.bind fun _ _ => rfl
  · exact (effectless_orThrow _).bind fun pred => effectless_evalCompare pred hty lhs rhs

theorem evalInstruction_effectless {inst : Instruction}
    (h : inst.effects.permitsUnusedRemoval = true) (env : Env) (prepared : Prepared) (frame : Frame)
    (key : BlockId × Nat) : Effectless (evalInstruction env prepared frame key inst) := by
  have hpure : Quiet (evalPure env prepared key frame.values inst) :=
    quiet_evalPure h env prepared key
  cases inst with
  | cmp dst op ty lhs rhs =>
      exact (effectless_evalCmp op (by simpa using h) lhs rhs).bind fun _ _ => rfl
  | iCmp dst pred ty lhs rhs =>
      exact (effectless_evalCompare pred (by simpa using h) lhs rhs).bind fun _ _ => rfl
  | _ => first | exact hpure.effectless.bind fun _ _ => rfl | simp at h

/-! ## Functions without an effect -/

/-- No instruction has an effect, and no terminator traps. -/
def Prepared.Effectless (prepared : Prepared) : Prop :=
  ∀ e ∈ prepared.blocks, (∀ inst ∈ e.2.instructions, inst.effects.permitsUnusedRemoval = true) ∧
    ∀ t ∈ e.2.terminator, t.effects.mayTrap = false

/-- What ends a run other than a trap, if its program is verified: a limit. -/
def RunError.NoTrap (e : RunError) : Prop := e = .panic ∨ e.isLimit = true

/-- The activation of `frame` is the only one, and the memory is `m`. -/
def Alone (frame : Frame) (m : Memory) (s : RunState) : Prop :=
  s.memory = m ∧ ∃ frame', s.frames = [frame'] ∧ Frame.Same frame frame'

variable {frame : Frame} {m : Memory} {s : RunState} {o : InterpreterOptions}
  {site : ExecutionSite} {prepared : Prepared} {env : Env} {block : BasicBlock}

theorem Alone.charge (h : Alone frame m s) :
    Concludes (fun _ => Alone frame m) RunError.NoTrap (RunM.charge o site) s := by
  refine Concludes.get_bind ((Concludes.require fun _ => .inr rfl).bind fun _ t ht => ?_)
  obtain ⟨-, rfl⟩ := ht
  exact h

theorem Alone.updateFrame (h : Alone frame m s) {f : Frame → Frame}
    (hf : ∀ g, Frame.Same g (f g)) : Alone frame m (s.updateFrame f) := by
  obtain ⟨hm, frame', hs, hsame⟩ := h
  obtain ⟨hs', hm'⟩ := updateFrame_cons hs f
  exact ⟨hm'.trans hm, _, hs', hsame.trans (hf _)⟩

theorem concludes_orThrow {α : Type} (a : Option α) :
    Concludes (fun _ t => t = s) RunError.NoTrap (orThrow a RunError.panic) s := by
  cases a with
  | none => exact .inl rfl
  | some a => rfl

theorem Effectless.ofInstruction {α : Type} {x : InstructionM α} (hx : Effectless x) :
    Concludes (fun _ t => t = s) RunError.NoTrap (RunM.ofInstruction site x) s := by
  have hrun := hx s.memory
  unfold Concludes RunM.ofInstruction at *
  cases h : x s.memory with
  | ok a m =>
      rw [h] at hrun
      exact hrun ▸ rfl
  | error e m =>
      rw [h] at hrun
      exact .inl (hrun ▸ rfl)

theorem Alone.phis (h : Alone frame m s) {sites : Nat → Option ValueId → ExecutionSite}
    {g : Frame} {index : Nat} {insts : List Instruction} :
    Concludes (fun _ => Alone frame m) RunError.NoTrap (runPhis o sites g index insts) s := by
  induction insts generalizing index s with
  | nil => exact h
  | cons inst insts ih =>
      cases inst with
      | phi dst ty incomings =>
          refine h.charge.bind fun _ t h => ?_
          refine (concludes_orThrow _).bind fun input _ ht => ht ▸ ?_
          refine (concludes_orThrow _).bind fun value _ ht => ht ▸ ?_
          exact (ih h).bind fun rest t h => h
      | _ => exact h

theorem Alone.instruction (h : Alone frame m s) {inst : Instruction}
    (hinst : inst.effects.permitsUnusedRemoval = true) {g : Frame} {depth index : Nat} :
    Concludes (fun _ => Alone frame m) RunError.NoTrap
      (runInstruction env o prepared g depth index inst) s := by
  refine Concludes.run_bind rfl ?_
  refine (h.updateFrame (f := fun f => { f with instruction := index + 1 })
    fun _ => ⟨rfl, rfl, rfl⟩).charge.bind fun _ t h => ?_
  split
  · simp at hinst
  · refine (evalInstruction_effectless hinst env prepared g _).ofInstruction.bind
      fun value _ ht => ht ▸ ?_
    split
    · exact h
    · refine (concludes_orThrow _).bind fun dst _ ht => ht ▸ ?_
      exact h.updateFrame fun g => ⟨rfl, rfl, rfl⟩

theorem quiet_nextBlock {t : Terminator} (h : t.effects.mayTrap = false) :
    Quiet (nextBlock values t) := by
  cases t <;> simp_all [nextBlock]

theorem retireFrom_all (m : Memory) :
    Concludes (fun _ t => t = m) (fun e => ∃ l, e = .limit .work l)
      (Memory.retireFrom m.allocationCount) m := by
  have hcount : checkedSub m.allocations.length m.allocationCount = some 0 := by
    simp [checkedSub, Memory.allocationCount]
  refine Concludes.get_bind ?_
  rw [hcount]
  refine Concludes.run_bind rfl (Concludes.bind (Q := fun _ t => t = m) ?_ fun _ _ ht => ht)
  refine Concludes.get_bind ((Concludes.orThrow fun _ => ⟨_, rfl⟩).bind fun w _ hw => ?_)
  obtain ⟨hw, rfl⟩ := hw
  obtain ⟨hadd, -⟩ := Option.filter_eq_some_iff.mp hw
  obtain ⟨rfl, -⟩ := checkedAdd_eq_some.mp hadd
  rfl

/-- Without allocations of the activation there is nothing to end. -/
theorem Alone.returned (h : Alone frame m s) (hstart : frame.allocationStart = m.allocationCount)
    {g : Frame} (hg : Frame.Same frame g) {value : Option ValueId} :
    Concludes (fun r t => t.memory = m ∧ r.isSome) RunError.NoTrap
      (runReturn site prepared g value) s := by
  have hvalue : Quiet (value.mapM (Values.read g.values)) := by
    cases value <;> simp
  refine hvalue.effectless.ofInstruction.bind fun value _ ht => ht ▸ ?_
  refine Concludes.bind (Q := fun _ t => t = s) ?_ fun _ _ ht => ht ▸ ?_
  · obtain ⟨rfl, -⟩ := h
    rw [hg.allocationStart, hstart]
    have hretire := retireFrom_all s.memory
    unfold Concludes RunM.ofInstruction InstructionM.ofMemory at *
    cases hrun : Memory.retireFrom s.memory.allocationCount s.memory with
    | ok u t =>
        rw [hrun] at hretire
        exact hretire ▸ rfl
    | error e t =>
        rw [hrun] at hretire
        obtain ⟨l, rfl⟩ := hretire
        exact .inr rfl
  · obtain ⟨rfl, frame', hs, -⟩ := h
    refine Concludes.get_bind ?_
    rw [hs]
    exact ⟨rfl, rfl⟩

theorem Alone.terminator (h : Alone frame m s) (hstart : frame.allocationStart = m.allocationCount)
    {g : Frame} (hg : Frame.Same frame g)
    (hblock : ∀ t ∈ block.terminator, t.effects.mayTrap = false) :
    Concludes (fun r t => if r.isSome then t.memory = m else Alone frame m t) RunError.NoTrap
      (runTerminator o prepared g block) s := by
  refine h.charge.bind fun _ t h => ?_
  refine (Concludes.orThrow fun _ => .inl rfl).bind fun terminator _ ht => ?_
  obtain ⟨hterminator, rfl⟩ := ht
  split
  · refine (h.returned hstart hg).mono fun r t ht => ?_
    rw [if_pos ht.2]
    exact ht.1
  · refine (quiet_nextBlock (hblock _ hterminator)).effectless.ofInstruction.bind
      fun next _ ht => ht ▸ ?_
    exact h.updateFrame fun g => ⟨rfl, rfl, rfl⟩

theorem Alone.entered (h : Alone frame m s) (hstart : frame.allocationStart = m.allocationCount)
    (hinsts : ∀ inst ∈ block.instructions, inst.effects.permitsUnusedRemoval = true)
    (hterminator : ∀ t ∈ block.terminator, t.effects.mayTrap = false) {depth : Nat} :
    Concludes (fun r t => if r.isSome then t.memory = m else Alone frame m t) RunError.NoTrap
      (do
        let entered ← get
        let frame ← orThrow entered.frames.head? RunError.panic
        match block.instructions[frame.instruction]? with
        | some inst => do
            runInstruction env o prepared frame depth frame.instruction inst
            return none
        | none => runTerminator o prepared frame block) s := by
  obtain ⟨-, g, hs, hsame⟩ := id h
  refine Concludes.get_bind ?_
  rw [hs]
  refine Concludes.run_bind rfl ?_
  cases hinst : block.instructions[g.instruction]? with
  | some inst =>
      exact (h.instruction (hinsts inst (List.mem_of_getElem? hinst))).bind fun _ _ h => h
  | none => exact h.terminator hstart hsame hterminator

theorem Alone.step (h : Alone frame m s) (hstart : frame.allocationStart = m.allocationCount)
    (hprepared : env.prepared.get frame.function = some prepared) (heffect : prepared.Effectless) :
    Concludes (fun r t => if r.isSome then t.memory = m else Alone frame m t) RunError.NoTrap
      (runStep env o) s := by
  obtain ⟨-, g, hs, hsame⟩ := id h
  refine Concludes.get_bind ?_
  rw [hs]
  refine Concludes.run_bind rfl ?_
  rw [hsame.function, hprepared]
  refine Concludes.run_bind rfl ?_
  refine (Concludes.orThrow fun _ => .inl rfl).bind fun block _ ht => ?_
  obtain ⟨hblock, rfl⟩ := ht
  obtain ⟨hinsts, hterminator⟩ := heffect _ (AssocMap.mem_of_get hblock)
  split
  · refine Concludes.bind (Q := fun _ => Alone frame m) ?_ fun _ _ h => ?_
    · exact h.phis.bind fun phis t h => h.updateFrame fun g => ⟨rfl, rfl, rfl⟩
    · exact h.entered hstart hinsts hterminator
  · exact h.entered hstart hinsts hterminator

/-- **A function without an effect runs without a trap, and leaves the memory as it was.** -/
theorem runLoop_effectless (hs : s.frames = [frame])
    (hstart : frame.allocationStart = s.memory.allocationCount)
    (hprepared : env.prepared.get frame.function = some prepared) (heffect : prepared.Effectless)
    (fuel : Nat) :
    Concludes (fun _ t => t.memory = s.memory) RunError.NoTrap (runLoop env o fuel) s := by
  suffices h : ∀ t, Alone frame s.memory t →
      Concludes (fun _ t => t.memory = s.memory) RunError.NoTrap (runLoop env o fuel) t from
    h s ⟨rfl, frame, hs, .refl frame⟩
  induction fuel with
  | zero => exact fun _ _ => .inl rfl
  | succ fuel ih =>
      intro t h
      refine (h.step hstart hprepared heffect).bind fun r t h => ?_
      cases r with
      | some result => exact h
      | none => exact ih t h

/-- A function that returns a copy of the value in its first register, and its run. -/
def movEnv : Env where
  prepared := [(⟨0⟩, {
    function := { id := ⟨0⟩, name := "mov", params := [], retTy := .u8, blocks := [], entry := ⟨0⟩
                  valueTypes := [] }
    valueCapacity := 2
    blocks := [(⟨0⟩, { id := ⟨0⟩, name := "entry", instructions := [.mov ⟨1⟩ .u8 ⟨0⟩]
                       terminator := some (.ret .u8 (some ⟨1⟩)) })]
    sizes := [], geps := [], signatures := [] })]
  functionSignatures := []
  globalPointers := []

def movState : RunState where
  memory := Memory.new 0 (fun _ => 0) .default
  frames := [{ function := ⟨0⟩, values := [(⟨0⟩, .scalar (.u 7))], current := ⟨0⟩
               predecessor := none, instruction := 0, allocationStart := 0
               returnDestination := none, callSite := none }]
  framesCreated := 1
  liveValues := 2
  steps := 0

theorem runLoop_effectless_mov :
    Concludes (fun _ t => t.memory = movState.memory) RunError.NoTrap (runLoop movEnv .default 2)
        movState ∧
      (runLoop movEnv .default 2).run' movState =
        some { value := some { ty := .u8, value := .scalar (.u 7), origin := true }, steps := 2 } :=
  ⟨runLoop_effectless rfl rfl rfl (by simp [Prepared.Effectless]) 2, rfl⟩

end Whale
