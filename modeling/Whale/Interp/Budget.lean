import Whale.Interp.Run
import Whale.Memory.Budget

set_option autoImplicit false

/-! # Limits of a run are transparent and monotone

Two runs of one program, the second under options at least as large. Whatever the first run
does the second repeats, unless the first fails on a limit in which the two differ
(`Escape`). A run that ends otherwise therefore ends the same under all larger options
(`run_transparent`); and a run that takes more steps than another allows makes that one end
on its step limit (`run_step_limit`). -/

namespace Whale

structure InterpreterOptions.AtMost (o o' : InterpreterOptions) : Prop where
  steps : o.maxSteps ≤ o'.maxSteps
  depth : o.maxCallDepth ≤ o'.maxCallDepth
  frames : o.maxFrames ≤ o'.maxFrames
  values : o.maxLiveValues ≤ o'.maxLiveValues
  memory : o.memoryLimits.AtMost o'.memoryLimits
  trace : o'.maxTraceFrames = o.maxTraceFrames
  ir : o'.irLimits = o.irLimits

/-- An error on a limit in which the options differ. -/
def Escape (o o' : InterpreterOptions) : RunError → Prop
  | .stepLimit _ limit => o.maxSteps ≠ o'.maxSteps ∧ limit = o.maxSteps
  | .callLimit _ .depth _ => o.maxCallDepth ≠ o'.maxCallDepth
  | .callLimit _ .frames _ => o.maxFrames ≠ o'.maxFrames
  | .callLimit _ .values _ => o.maxLiveValues ≠ o'.maxLiveValues
  | .memoryLimit .. | .globalMemoryLimit .. => o.memoryLimits ≠ o'.memoryLimits
  | _ => False

theorem Escape.isLimit {o o' : InterpreterOptions} {e : RunError} (h : Escape o o' e) :
    e.isLimit = true := by
  cases e <;> first | rfl | exact absurd h id

/-- Where only the steps differ, only the step limit escapes. -/
theorem Escape.stepLimit {o o' : InterpreterOptions} {e : RunError} (h : Escape o o' e)
    (hdepth : o.maxCallDepth = o'.maxCallDepth) (hframes : o.maxFrames = o'.maxFrames)
    (hvalues : o.maxLiveValues = o'.maxLiveValues) (hmemory : o.memoryLimits = o'.memoryLimits) :
    ∃ site, e = .stepLimit site o.maxSteps := by
  cases e with
  | stepLimit site limit => exact ⟨site, by rw [h.2]⟩
  | callLimit site resource limit =>
      cases resource with
      | depth => exact absurd hdepth h
      | frames => exact absurd hframes h
      | values => exact absurd hvalues h
  | memoryLimit site resource limit => exact absurd hmemory h
  | globalMemoryLimit global resource limit => exact absurd hmemory h
  | _ => exact absurd h id

/-- The same state of a run under other options. -/
def SameRun (o o' : InterpreterOptions) (s s' : RunState) : Prop :=
  s.memory.limits = o.memoryLimits ∧
    s' = { s with memory := { s.memory with limits := o'.memoryLimits } }

/-! ## Instructions -/

/-- An exhausted memory budget, when the budgets differ. -/
def MemoryEscape (L L' : MemoryLimits) : InstructionFault → Prop
  | .memoryLimit _ _ => L ≠ L'
  | _ => False

section

variable {L L' : MemoryLimits} {α : Type}

/-- Larger memory budgets do not change what `x` does. -/
abbrev InstructionM.Transparent (L L' : MemoryLimits) (x : InstructionM α) : Prop :=
  Repeats (Relimited L L') (MemoryEscape L L') x x

theorem repeats_ofMemory {x : MemoryM α} (h : Memory.Transparent L L' x) :
    InstructionM.Transparent L L' (InstructionM.ofMemory x) := by
  intro m m' hm
  have hx := h m m' hm
  unfold RepeatsAt at hx
  unfold RepeatsAt InstructionM.ofMemory
  cases hrun : x m with
  | ok a t =>
      rw [hrun] at hx
      obtain ⟨t', hrun', ht⟩ := hx
      rw [hrun']
      exact ⟨t', rfl, ht⟩
  | error e t =>
      rw [hrun] at hx
      rcases hx with ⟨hesc, hL⟩ | ⟨t', hrun', ht⟩
      · left
        cases e with
        | limit r l => exact hL
        | trap t => exact hesc.elim
        | panic => exact hesc.elim
      · rw [hrun']
        exact Or.inr ⟨t', rfl, ht⟩

theorem repeats_ofExcept {esc : InstructionFault → Prop} (x : Except InstructionFault α) :
    Repeats (Relimited L L') esc (InstructionM.ofExcept x) (InstructionM.ofExcept x) := by
  intro m m' hm
  unfold RepeatsAt InstructionM.ofExcept
  cases x with
  | ok a => exact ⟨m', rfl, hm⟩
  | error e => exact Or.inr ⟨m', rfl, hm⟩

theorem pointerCompare_limits (pred : ICmpPred) (a b : Pointer) (m : Memory) (L : MemoryLimits) :
    pointerCompare { m with limits := L } pred a b = pointerCompare m pred a b := by
  cases pred <;> rfl

theorem repeats_evalCompare (values : Values) (pred : ICmpPred) (ty : Ty) (lhs rhs : ValueId) :
    InstructionM.Transparent L L' (evalCompare values pred ty lhs rhs) := by
  unfold evalCompare
  by_cases hptr : ty.isPtr = true
  · rw [if_pos hptr]
    refine (repeats_ofExcept _).bind fun a => (repeats_ofExcept _).bind fun b => ?_
    refine Repeats.bind (repeats_ofMemory (Memory.repeats_look ?_)) fun _ => Repeats.pure _
    exact fun m L => pointerCompare_limits pred a b m L
  · rw [if_neg hptr]
    refine (repeats_ofExcept _).bind fun a => (repeats_ofExcept _).bind fun b => ?_
    exact (repeats_ofExcept _).bind fun _ => Repeats.pure _

theorem repeats_evalCmp (values : Values) (op : CmpOp) (ty : Ty) (lhs rhs : ValueId) :
    InstructionM.Transparent L L' (evalCmp values op ty lhs rhs) := by
  unfold evalCmp
  by_cases hfloat : Scalar.floatType ty = true
  · rw [if_pos hfloat]
    refine (repeats_ofExcept _).bind fun a => (repeats_ofExcept _).bind fun b => ?_
    refine (Repeats.orThrow _ _).bind fun pred => ?_
    exact (repeats_ofExcept _).bind fun _ => Repeats.pure _
  · rw [if_neg hfloat]
    exact (Repeats.orThrow _ _).bind fun pred => repeats_evalCompare values pred ty lhs rhs

/-- An instruction other than a call does not see the budgets. -/
theorem repeats_evalInstruction (h : L.AtMost L') (env : Env) (prepared : Prepared)
    (frame : Frame) (key : BlockId × Nat) (inst : Instruction) :
    InstructionM.Transparent L L' (evalInstruction env prepared frame key inst) := by
  have hpure : ∀ v : Except InstructionFault Value, InstructionM.Transparent L L'
      (do let v ← InstructionM.ofExcept v; return some v) := fun v =>
    (repeats_ofExcept v).bind fun _ => Repeats.pure _
  -- Only the instructions that touch memory can notice a limit.
  cases inst with
  | lifetimeEnd ptr =>
      refine (repeats_ofExcept _).bind fun p => ?_
      exact (repeats_ofMemory (Memory.repeats_retireStack h p _)).bind fun _ => Repeats.pure _
  | ptrDiff dst lhs rhs =>
      refine (repeats_ofExcept _).bind fun a => (repeats_ofExcept _).bind fun b => ?_
      refine Repeats.bind (repeats_ofMemory (Memory.repeats_look ?_)) fun _ => Repeats.pure _
      exact fun _ _ => rfl
  | cmp dst op ty lhs rhs =>
      exact (repeats_evalCmp frame.values op ty lhs rhs).bind fun _ => Repeats.pure _
  | iCmp dst pred ty lhs rhs =>
      exact (repeats_evalCompare frame.values pred ty lhs rhs).bind fun _ => Repeats.pure _
  | alloca dst ty align =>
      refine (Repeats.orThrow _ _).bind fun e => ?_
      exact (repeats_ofMemory (Memory.repeats_allocate h _ _ _)).bind fun _ => Repeats.pure _
  | volatileLoad dst ty ptr align =>
      refine (repeats_ofExcept _).bind fun p => ?_
      exact (repeats_ofMemory (Memory.repeats_load h p ty _ _)).bind fun _ => Repeats.pure _
  | load dst ty ptr align =>
      refine (repeats_ofExcept _).bind fun p => ?_
      exact (repeats_ofMemory (Memory.repeats_load h p ty _ _)).bind fun _ => Repeats.pure _
  | volatileStore ty value ptr align =>
      refine (repeats_ofExcept _).bind fun p => (repeats_ofExcept _).bind fun v => ?_
      exact (repeats_ofMemory (Memory.repeats_store h p ty v _)).bind fun _ => Repeats.pure _
  | store ty value ptr align =>
      refine (repeats_ofExcept _).bind fun p => (repeats_ofExcept _).bind fun v => ?_
      exact (repeats_ofMemory (Memory.repeats_store h p ty v _)).bind fun _ => Repeats.pure _
  | uninit ty ptr align =>
      refine (repeats_ofExcept _).bind fun p => (Repeats.orThrow _ _).bind fun e => ?_
      exact (repeats_ofMemory (Memory.repeats_uninit h p _ _)).bind fun _ => Repeats.pure _
  | memcpy dst src n align =>
      refine (repeats_ofExcept _).bind fun d => (repeats_ofExcept _).bind fun s => ?_
      refine (repeats_ofExcept _).bind fun count => (repeats_ofExcept _).bind fun size => ?_
      exact (repeats_ofMemory (Memory.repeats_copy h d s size _)).bind fun _ => Repeats.pure _
  | memset dst val n align =>
      refine (repeats_ofExcept _).bind fun d => (repeats_ofExcept _).bind fun v => ?_
      refine (repeats_ofExcept _).bind fun byte => (repeats_ofExcept _).bind fun count => ?_
      refine (repeats_ofExcept _).bind fun size => ?_
      exact (repeats_ofMemory (Memory.repeats_setBytes h d _ size _)).bind fun _ => Repeats.pure _
  | gep dst dstTy basePtr indices =>
      refine (repeats_ofExcept _).bind fun inputs => (repeats_ofExcept _).bind fun p => ?_
      refine (Repeats.orThrow _ _).bind fun plan => ?_
      refine Repeats.bind (repeats_ofMemory (Memory.repeats_look ?_)) fun _ => Repeats.pure _
      exact fun _ _ => rfl
  | trapIf cond reason =>
      refine (repeats_ofExcept _).bind fun c => ?_
      by_cases hc : c = true
      · simp only [hc, if_true]
        exact Repeats.throw _
      · simp only [hc, Bool.false_eq_true, if_false]
        exact Repeats.pure _
  | globalAddr => exact hpure _
  | constDecl => exact hpure _
  | const => exact hpure _
  | undef => exact hpure _
  | mov => exact hpure _
  | bin => exact hpure _
  | neg => exact hpure _
  | not => exact hpure _
  | fCmp => exact hpure _
  | select => exact hpure _
  | cast => exact hpure _
  | phi => exact hpure _
  | extract => exact hpure _
  | checked => exact hpure _
  | nullFunction => exact hpure _
  | functionAddr => exact hpure _
  | call => exact hpure _

end

/-! ## Rounds -/

section

variable {o o' : InterpreterOptions} {α : Type}

/-- Under larger options `x'` does what `x` does. -/
abbrev RunRepeats (o o' : InterpreterOptions) (x x' : RunM α) : Prop :=
  Repeats (SameRun o o') (Escape o o') x x'

theorem repeats_ofInstruction (site : ExecutionSite) {x : InstructionM α}
    (h : InstructionM.Transparent o.memoryLimits o'.memoryLimits x) :
    RunRepeats o o' (RunM.ofInstruction site x) (RunM.ofInstruction site x) := by
  rintro s _ ⟨hl, rfl⟩
  have hx := h s.memory { s.memory with limits := o'.memoryLimits } ⟨hl, rfl⟩
  unfold RepeatsAt at hx
  unfold RepeatsAt RunM.ofInstruction
  cases hrun : x s.memory with
  | ok a t =>
      rw [hrun] at hx
      obtain ⟨t', hrun', ht, rfl⟩ := hx
      rw [hrun']
      exact ⟨_, rfl, ht, rfl⟩
  | error e t =>
      rw [hrun] at hx
      rcases hx with hesc | ⟨t', hrun', ht, rfl⟩
      · left
        cases e with
        | memoryLimit r l => exact hesc
        | trap t => exact hesc.elim
        | panic => exact hesc.elim
      · rw [hrun']
        exact Or.inr ⟨_, rfl, ht, rfl⟩

theorem repeats_ofValues (site : ExecutionSite) (x : Except InstructionFault α) :
    RunRepeats o o' (RunM.ofValues site x) (RunM.ofValues site x) :=
  repeats_ofInstruction site (repeats_ofExcept x)

theorem repeats_modify {g : RunState → RunState}
    (hg : ∀ s m, g { s with memory := m } = { g s with memory := m })
    (hm : ∀ s, (g s).memory = s.memory) :
    RunRepeats o o' (modify g) (modify g) := by
  refine Repeats.modify ?_
  rintro s _ ⟨hl, rfl⟩
  exact ⟨by rw [hm]; exact hl, by rw [hg, hm]⟩

theorem repeats_updateFrame (f : Frame → Frame) :
    RunRepeats o o' (modify (·.updateFrame f)) (modify (·.updateFrame f)) := by
  refine repeats_modify ?_ ?_
  · rintro ⟨memory, frames, created, live, steps⟩ m
    cases frames <;> rfl
  · rintro ⟨memory, frames, created, live, steps⟩
    cases frames <;> rfl

theorem repeats_charge (h : o.AtMost o') (site : ExecutionSite) :
    RunRepeats o o' (RunM.charge o site) (RunM.charge o' site) := by
  rintro s _ ⟨hl, rfl⟩
  refine RepeatsAt.get_bind (RepeatsAt.bind (RepeatsAt.require ⟨hl, rfl⟩ ?_ ?_) ?_)
  · exact fun hlt => lt_of_lt_of_le hlt h.steps
  · intro hlt
    by_cases heq : o.maxSteps = o'.maxSteps
    · exact Or.inr ⟨by rw [← heq]; exact hlt, by rw [heq]⟩
    · exact Or.inl ⟨heq, rfl⟩
  · intro _ t t' _ _
    exact RepeatsAt.set ⟨hl, rfl⟩

theorem repeats_runPhis (h : o.AtMost o') (site : Nat → Option ValueId → ExecutionSite)
    (frame : Frame) (index : Nat) (insts : List Instruction) :
    RunRepeats o o' (runPhis o site frame index insts) (runPhis o' site frame index insts) := by
  induction insts generalizing index with
  | nil => exact Repeats.pure _
  | cons inst insts ih =>
      cases inst with
      | phi dst ty incomings =>
          refine (repeats_charge h _).bind fun _ => ?_
          refine (Repeats.orThrow _ _).bind fun input => (Repeats.orThrow _ _).bind fun value => ?_
          exact (ih (index + 1)).bind fun _ => Repeats.pure _
      | _ => exact Repeats.pure _

theorem repeats_runCall (h : o.AtMost o') (env : Env) (site : ExecutionSite) (frame : Frame)
    (depth : Nat) (dst : Option ValueId) (target : Callee) (args : List ValueId) :
    RunRepeats o o' (runCall env o site frame depth dst target args)
      (runCall env o' site frame depth dst target args) := by
  refine (repeats_ofValues site _).bind fun target s s' hs => ?_
  refine RepeatsAt.bind (RepeatsAt.require hs ?_ ?_) ?_
  · exact fun hlt => lt_of_lt_of_le hlt h.depth
  · intro hlt
    by_cases heq : o.maxCallDepth = o'.maxCallDepth
    · exact Or.inr ⟨by rw [← heq]; exact hlt, by rw [heq]⟩
    · exact Or.inl heq
  rintro - s _ - ⟨hl, rfl⟩
  refine RepeatsAt.get_bind (RepeatsAt.bind (RepeatsAt.require ⟨hl, rfl⟩ ?_ ?_) ?_)
  · exact fun hlt => lt_of_lt_of_le hlt h.frames
  · intro hlt
    by_cases heq : o.maxFrames = o'.maxFrames
    · exact Or.inr ⟨by rw [← heq]; exact hlt, by rw [heq]⟩
    · exact Or.inl heq
  intro _ t t' _ ht
  refine RepeatsAt.bind (Repeats.orThrow _ _ t t' ht) fun child t t' _ ht => ?_
  refine RepeatsAt.bind (RepeatsAt.orThrow ht ?_ ?_) fun live t t' _ ht => ?_
  · intro a ha
    rw [Option.filter_eq_some_iff] at ha ⊢
    refine ⟨ha.1, ?_⟩
    have hle := ha.2
    simp only [decide_eq_true_eq] at hle ⊢
    exact le_trans hle h.values
  · intro hnone
    by_cases heq : o.maxLiveValues = o'.maxLiveValues
    · exact Or.inr ⟨by rw [← heq]; exact hnone, by rw [heq]⟩
    · exact Or.inl heq
  refine RepeatsAt.bind (repeats_ofValues site _ t t' ht) fun arguments t t' _ ht => ?_
  refine repeats_modify ?_ ?_ t t' ht
  · exact fun _ _ => rfl
  · exact fun _ => rfl

theorem repeats_runReturn (h : o.AtMost o') (site : ExecutionSite) (prepared : Prepared)
    (frame : Frame) (value : Option ValueId) :
    RunRepeats o o' (runReturn site prepared frame value)
      (runReturn site prepared frame value) := by
  refine (repeats_ofValues site _).bind fun value => ?_
  refine (repeats_ofInstruction site (repeats_ofMemory
    (Memory.repeats_retireFrom h.memory _))).bind fun _ => ?_
  rintro s _ ⟨hl, rfl⟩
  refine RepeatsAt.get_bind ?_
  dsimp only
  cases s.frames.tail with
  | nil =>
      refine RepeatsAt.bind (RepeatsAt.set ⟨hl, rfl⟩) fun _ t t' _ ht => ?_
      exact Repeats.pure _ t t' ht
  | cons parent frames =>
      have hend : ∀ p : Frame, ∀ t t', SameRun o o' t t' →
          RepeatsAt (SameRun o o') (Escape o o')
            (do
              set { s with
                frames := p :: frames, liveValues := s.liveValues - prepared.valueCapacity }
              return (none : Option RunResult))
            (do
              set { s with
                memory := { s.memory with limits := o'.memoryLimits }
                frames := p :: frames, liveValues := s.liveValues - prepared.valueCapacity }
              return none) t t' := by
        intro p t t' _
        refine RepeatsAt.bind (RepeatsAt.set ⟨hl, rfl⟩) fun _ t t' _ ht => ?_
        exact Repeats.pure _ t t' ht
      cases frame.returnDestination with
      | none => exact hend parent _ _ ⟨hl, rfl⟩
      | some dst =>
          refine RepeatsAt.bind (Repeats.orThrow _ _ _ _ ⟨hl, rfl⟩) fun v t t' _ ht => ?_
          exact hend _ t t' ht

/-- An instruction other than a call. -/
def runPlain (env : Env) (prepared : Prepared) (frame : Frame) (index : Nat) (inst : Instruction)
    (site : ExecutionSite) : RunM Unit := do
  let value ← RunM.ofInstruction site
    (evalInstruction env prepared frame (frame.current, index) inst)
  match value with
  | none => pure ()
  | some value => do
      let dst ← orThrow inst.destination RunError.panic
      modify (·.updateFrame fun f => { f with values := AssocMap.insert dst value f.values })

/-- The rest of a round once its block is entered. -/
def runCurrent (env : Env) (o : InterpreterOptions) (prepared : Prepared) (block : BasicBlock)
    (depth : Nat) : RunM (Option RunResult) := do
  let entered ← get
  let frame ← orThrow entered.frames.head? RunError.panic
  match block.instructions[frame.instruction]? with
  | some inst => do
      runInstruction env o prepared frame depth frame.instruction inst
      return none
  | none => runTerminator o prepared frame block

theorem repeats_runInstruction (h : o.AtMost o') (env : Env) (prepared : Prepared)
    (frame : Frame) (depth index : Nat) (inst : Instruction) :
    RunRepeats o o' (runInstruction env o prepared frame depth index inst)
      (runInstruction env o' prepared frame depth index inst) := by
  refine (repeats_updateFrame _).bind fun _ => (repeats_charge h _).bind fun _ => ?_
  have hother : ∀ site, RunRepeats o o'
      (runPlain env prepared frame index inst site) (runPlain env prepared frame index inst site) := by
    intro site
    refine (repeats_ofInstruction site
      (repeats_evalInstruction h.memory env prepared frame _ inst)).bind fun value => ?_
    cases value with
    | none => exact Repeats.pure ()
    | some value => exact (Repeats.orThrow _ _).bind fun dst => repeats_updateFrame _
  cases inst with
  | call convention dst retTy target args =>
      exact repeats_runCall h env _ frame depth dst target args
  | _ => exact hother _

theorem repeats_runTerminator (h : o.AtMost o') (prepared : Prepared) (frame : Frame)
    (block : BasicBlock) :
    RunRepeats o o' (runTerminator o prepared frame block)
      (runTerminator o' prepared frame block) := by
  refine (repeats_charge h _).bind fun _ => (Repeats.orThrow _ _).bind fun terminator => ?_
  have hother : ∀ site, RunRepeats o o'
      (do
        let next ← RunM.ofValues site (nextBlock frame.values terminator)
        modify (·.updateFrame fun f =>
          { f with predecessor := some frame.current, current := next, instruction := 0 })
        return (none : Option RunResult))
      (do
        let next ← RunM.ofValues site (nextBlock frame.values terminator)
        modify (·.updateFrame fun f =>
          { f with predecessor := some frame.current, current := next, instruction := 0 })
        return none) := fun site =>
    (repeats_ofValues site _).bind fun next => (repeats_updateFrame _).bind fun _ =>
      Repeats.pure _
  cases terminator with
  | ret ty value => exact repeats_runReturn h _ prepared frame value
  | _ => exact hother _

theorem repeats_enterBlock (h : o.AtMost o') (frame : Frame) (block : BasicBlock) :
    RunRepeats o o' (enterBlock o frame block) (enterBlock o' frame block) :=
  (repeats_runPhis h _ frame 0 _).bind fun _ => repeats_updateFrame _

theorem repeats_runStep (h : o.AtMost o') (env : Env) :
    RunRepeats o o' (runStep env o) (runStep env o') := by
  rintro s _ ⟨hl, rfl⟩
  refine RepeatsAt.get_bind ?_
  refine RepeatsAt.bind (Repeats.orThrow _ _ _ _ ⟨hl, rfl⟩) fun frame t t' _ ht => ?_
  refine RepeatsAt.bind (Repeats.orThrow _ _ t t' ht) fun prepared t t' _ ht => ?_
  refine RepeatsAt.bind (Repeats.orThrow _ _ t t' ht) fun block t t' _ ht => ?_
  have hrest : ∀ t t', SameRun o o' t t' → RepeatsAt (SameRun o o') (Escape o o')
      (runCurrent env o prepared block s.frames.length)
      (runCurrent env o' prepared block s.frames.length) t t' := by
    rintro t _ ⟨hl, rfl⟩
    refine RepeatsAt.get_bind ?_
    refine RepeatsAt.bind (Repeats.orThrow _ _ _ _ ⟨hl, rfl⟩) fun frame t t' _ ht => ?_
    cases block.instructions[frame.instruction]? with
    | some inst =>
        exact ((repeats_runInstruction h env prepared frame _ _ inst).bind
          fun _ => Repeats.pure _) t t' ht
    | none => exact repeats_runTerminator h prepared frame block t t' ht
  by_cases hzero : frame.instruction = 0
  · simp only [hzero, if_true]
    exact RepeatsAt.bind (repeats_enterBlock h frame block t t' ht) fun _ t t' _ ht => hrest t t' ht
  · simp only [hzero, if_false]
    exact hrest t t' ht

/-! ## Steps -/

theorem spends_charge (site : ExecutionSite) :
    Spends RunState.steps o.maxSteps 1 (RunM.charge o site) := by
  intro s hs
  refine SpendsAt.get_bind ?_
  unfold SpendsAt
  by_cases hlt : s.steps < o.maxSteps
  · rw [bind_run_ok (by rw [require_run, if_pos hlt])]
    exact ⟨Nat.le_refl _, hlt⟩
  · rw [bind_run_error (by rw [require_run, if_neg hlt])]
    exact ⟨Nat.le_refl _, hs⟩

theorem spends_ofInstruction (site : ExecutionSite) (x : InstructionM α) :
    Spends RunState.steps o.maxSteps 0 (RunM.ofInstruction site x) := by
  refine .of_keeps fun s => ?_
  unfold RunM.ofInstruction
  cases x s.memory <;> rfl

theorem spends_updateFrame (f : Frame → Frame) :
    Spends RunState.steps o.maxSteps 0
      (modify (·.updateFrame f) : EStateM RunError RunState PUnit) := by
  refine Spends.modify ?_
  rintro ⟨memory, frames, created, live, steps⟩
  cases frames <;> rfl

theorem spends_runPhis (site : Nat → Option ValueId → ExecutionSite) (frame : Frame)
    (index : Nat) (insts : List Instruction) :
    Spends RunState.steps o.maxSteps 0 (runPhis o site frame index insts) := by
  induction insts generalizing index with
  | nil => exact Spends.pure _
  | cons inst insts ih =>
      cases inst with
      | phi dst ty incomings =>
          refine ((spends_charge _).mono (Nat.zero_le 1)).bind fun _ => ?_
          refine (Spends.orThrow _ _).bind fun input => (Spends.orThrow _ _).bind fun value => ?_
          exact (ih (index + 1)).bind fun _ => Spends.pure _
      | _ => exact Spends.pure _

theorem spends_runCall (env : Env) (site : ExecutionSite) (frame : Frame) (depth : Nat)
    (dst : Option ValueId) (target : Callee) (args : List ValueId) :
    Spends RunState.steps o.maxSteps 0 (runCall env o site frame depth dst target args) := by
  refine (spends_ofInstruction site _).bind fun target => ?_
  refine (Spends.require _ _).bind fun _ s hs => SpendsAt.get_bind ?_
  refine Spends.bind (Spends.require _ _) (fun _ => ?_) s hs
  refine (Spends.orThrow _ _).bind fun child => (Spends.orThrow _ _).bind fun live => ?_
  refine (spends_ofInstruction site _).bind fun arguments => Spends.modify ?_
  exact fun _ => rfl

theorem spends_runReturn (site : ExecutionSite) (prepared : Prepared) (frame : Frame)
    (value : Option ValueId) :
    Spends RunState.steps o.maxSteps 0 (runReturn site prepared frame value) := by
  refine (spends_ofInstruction site _).bind fun value => ?_
  refine (spends_ofInstruction site _).bind fun _ s hs => SpendsAt.get_bind ?_
  dsimp only
  cases s.frames.tail with
  | nil => exact SpendsAt.bind (SpendsAt.set (Nat.le_refl _) hs) fun _ t _ ht => Spends.pure _ t ht
  | cons parent frames =>
      have hend : ∀ p : Frame, SpendsAt RunState.steps o.maxSteps 0
          (do
            set { s with
              frames := p :: frames, liveValues := s.liveValues - prepared.valueCapacity }
            return (none : Option RunResult) : RunM (Option RunResult)) s := fun p =>
        SpendsAt.bind (SpendsAt.set (Nat.le_refl _) hs) fun _ t _ ht => Spends.pure _ t ht
      cases frame.returnDestination with
      | none => exact hend parent
      | some dst =>
          cases value with
          | none => exact Spends.throw _ s hs
          | some v => exact hend _

theorem spends_runInstruction (env : Env) (prepared : Prepared) (frame : Frame)
    (depth index : Nat) (inst : Instruction) :
    Spends RunState.steps o.maxSteps 1 (runInstruction env o prepared frame depth index inst) := by
  refine (spends_updateFrame _).bind fun _ => (spends_charge _).bind_spent fun _ => ?_
  have hother : ∀ site, Spends RunState.steps o.maxSteps 0
      (runPlain env prepared frame index inst site) := by
    intro site
    refine (spends_ofInstruction site _).bind fun value => ?_
    cases value with
    | none => exact Spends.pure ()
    | some value => exact (Spends.orThrow _ _).bind fun dst => spends_updateFrame _
  cases inst with
  | call convention dst retTy target args => exact spends_runCall env _ frame depth dst target args
  | _ => exact hother _

theorem spends_runTerminator (prepared : Prepared) (frame : Frame) (block : BasicBlock) :
    Spends RunState.steps o.maxSteps 1 (runTerminator o prepared frame block) := by
  refine (spends_charge _).bind_spent fun _ => (Spends.orThrow _ _).bind fun terminator => ?_
  have hother : ∀ site, Spends RunState.steps o.maxSteps 0
      (do
        let next ← RunM.ofValues site (nextBlock frame.values terminator)
        modify (·.updateFrame fun f =>
          { f with predecessor := some frame.current, current := next, instruction := 0 })
        return (none : Option RunResult)) := fun site =>
    (spends_ofInstruction site _).bind fun next => (spends_updateFrame _).bind fun _ =>
      Spends.pure _
  cases terminator with
  | ret ty value => exact spends_runReturn _ prepared frame value
  | _ => exact hother _

/-- A round charges at least one step. -/
theorem spends_runStep (env : Env) : Spends RunState.steps o.maxSteps 1 (runStep env o) := by
  intro s hs
  refine SpendsAt.get_bind (Spends.bind (Spends.orThrow _ _) (fun frame => ?_) s hs)
  refine (Spends.orThrow _ _).bind fun prepared => (Spends.orThrow _ _).bind fun block => ?_
  have hrest : Spends RunState.steps o.maxSteps 1
      (runCurrent env o prepared block s.frames.length) := by
    intro t ht
    refine SpendsAt.get_bind (Spends.bind (Spends.orThrow _ _) (fun frame => ?_) t ht)
    cases block.instructions[frame.instruction]? with
    | some inst =>
        exact (spends_runInstruction env prepared frame _ _ inst).bind_spent fun _ => Spends.pure _
    | none => exact spends_runTerminator prepared frame block
  by_cases hzero : frame.instruction = 0
  · simp only [hzero, if_true]
    have henter : Spends RunState.steps o.maxSteps 0 (enterBlock o frame block) :=
      (spends_runPhis _ frame 0 _).bind fun _ => spends_updateFrame _
    exact henter.bind fun _ => hrest
  · simp only [hzero, if_false]
    exact hrest

/-! ## Whole runs -/

theorem spends_runLoop (env : Env) (fuel : Nat) :
    Spends RunState.steps o.maxSteps 0 (runLoop env o fuel) := by
  induction fuel with
  | zero => exact Spends.throw _
  | succ fuel ih =>
      refine ((spends_runStep env).mono (Nat.zero_le 1)).bind fun result => ?_
      cases result with
      | some result => exact Spends.pure _
      | none => exact ih

/-- With fuel for all the steps that are left the loop does not run out of it, so that more
fuel under larger options changes nothing. -/
theorem repeats_runLoop (h : o.AtMost o') (env : Env) (n n' : Nat) (hn : n ≤ n')
    (s s' : RunState) (hs : SameRun o o' s s') (hle : s.steps ≤ o.maxSteps)
    (hfuel : o.maxSteps < n + s.steps) :
    RepeatsAt (SameRun o o') (Escape o o') (runLoop env o n) (runLoop env o' n') s s' := by
  induction n generalizing n' s s' with
  | zero => exact absurd hfuel (by omega)
  | succ n ih =>
      obtain ⟨k, rfl⟩ : ∃ k, n' = k + 1 := ⟨n' - 1, by omega⟩
      refine RepeatsAt.bind (repeats_runStep h env s s' hs) fun result t t' hrun ht => ?_
      cases result with
      | some result => exact Repeats.pure result t t' ht
      | none =>
          have hspent := spends_runStep (o := o) env s hle
          unfold SpendsAt at hspent
          rw [hrun] at hspent
          obtain ⟨hstep, hbound⟩ := hspent
          exact ih k (by omega) t t' ht hbound (by omega)

theorem repeats_globalOperation (global : GlobalId) {x : MemoryM α}
    (h : Memory.Transparent o.memoryLimits o'.memoryLimits x) :
    Repeats (Relimited o.memoryLimits o'.memoryLimits) (Escape o o') (globalOperation global x)
      (globalOperation global x) := by
  intro m m' hm
  have hx := h m m' hm
  unfold RepeatsAt at hx
  unfold RepeatsAt globalOperation
  cases hrun : x m with
  | ok a t =>
      rw [hrun] at hx
      obtain ⟨t', hrun', ht⟩ := hx
      rw [hrun']
      exact ⟨t', rfl, ht⟩
  | error e t =>
      rw [hrun] at hx
      rcases hx with ⟨hesc, hL⟩ | ⟨t', hrun', ht⟩
      · cases e with
        | limit r l => exact Or.inl hL
        | trap t => exact hesc.elim
        | panic => exact hesc.elim
      · rw [hrun']
        cases e with
        | limit r l => exact Or.inr ⟨t', rfl, ht⟩
        | trap t => exact Or.inr ⟨t', rfl, ht⟩
        | panic => exact Or.inr ⟨t', rfl, ht⟩

theorem repeats_prepareGlobal (h : o.AtMost o') (g : GlobalStorage) :
    Repeats (Relimited o.memoryLimits o'.memoryLimits) (Escape o o') (prepareGlobal o g)
      (prepareGlobal o' g) := by
  unfold prepareGlobal
  rw [h.ir]
  refine (Repeats.orThrow _ _).bind fun layout => ?_
  refine (repeats_globalOperation g.id (Memory.repeats_allocateGlobal h.memory _ _ _)).bind
    fun pointer => ?_
  have hseal : Repeats (Relimited o.memoryLimits o'.memoryLimits) (Escape o o')
      (globalOperation g.id (Memory.sealGlobal pointer g.readonly))
      (globalOperation g.id (Memory.sealGlobal pointer g.readonly)) :=
    repeats_globalOperation g.id (Memory.repeats_sealGlobal pointer g.readonly)
  cases g.init with
  | uninitialized => exact (Repeats.pure ()).bind fun _ => hseal
  | value value =>
      exact (repeats_globalOperation g.id (Memory.repeats_store h.memory _ _ _ _)).bind
        fun _ => hseal

theorem repeats_prepareGlobals (h : o.AtMost o') (globals : List GlobalStorage)
    (pointers : AssocMap GlobalId Pointer) :
    Repeats (Relimited o.memoryLimits o'.memoryLimits) (Escape o o')
      (prepareGlobals o globals pointers) (prepareGlobals o' globals pointers) := by
  induction globals generalizing pointers with
  | nil => exact Repeats.pure pointers
  | cons g globals ih => exact (repeats_prepareGlobal h g).bind fun pointer => ih _

theorem startState_steps {function : FunctionId} {entry : Prepared} {inputs : List Value}
    {memory : Memory} {s : RunState} (h : startState o function entry inputs memory = .ok s) :
    s.steps = 0 := by
  unfold startState at h
  obtain ⟨_, -, h⟩ := bind_ok_iff.mp h
  obtain ⟨_, -, h⟩ := bind_ok_iff.mp h
  obtain ⟨_, -, h⟩ := bind_ok_iff.mp h
  cases h
  rfl

theorem startState_repeats (h : o.AtMost o') (function : FunctionId) (entry : Prepared)
    (inputs : List Value) (m m' : Memory) (hm : Relimited o.memoryLimits o'.memoryLimits m m') :
    match startState o function entry inputs m with
    | .ok s => ∃ s', startState o' function entry inputs m' = .ok s' ∧ SameRun o o' s s'
    | .error e => Escape o o' e ∨ startState o' function entry inputs m' = .error e := by
  obtain ⟨hl, rfl⟩ := hm
  unfold startState
  dsimp only
  by_cases hdepth : o.maxCallDepth ≠ 0
  case neg =>
    rw [require_of_not hdepth]
    have hzero : o.maxCallDepth = 0 := not_not.mp hdepth
    by_cases hdepth' : o'.maxCallDepth ≠ 0
    · exact Or.inl fun heq => hdepth' (heq ▸ hzero)
    · exact Or.inr (by rw [require_of_not hdepth']; rfl)
  have hdepth' : o'.maxCallDepth ≠ 0 := fun heq => hdepth (Nat.le_zero.mp (heq ▸ h.depth))
  rw [require_of hdepth, require_of hdepth']
  by_cases hframes : o.maxFrames ≠ 0
  case neg =>
    have hzero : o.maxFrames = 0 := not_not.mp hframes
    rw [ok_bind, ok_bind, require_of_not hframes]
    by_cases hframes' : o'.maxFrames ≠ 0
    · exact Or.inl fun heq => hframes' (heq ▸ hzero)
    · exact Or.inr (by rw [require_of_not hframes']; rfl)
  have hframes' : o'.maxFrames ≠ 0 := fun heq => hframes (Nat.le_zero.mp (heq ▸ h.frames))
  rw [require_of hframes, require_of hframes']
  by_cases hvalues : entry.valueCapacity ≤ o.maxLiveValues
  · rw [require_of hvalues, require_of (hvalues.trans h.values)]
    exact ⟨_, rfl, hl, rfl⟩
  · rw [require_of_not hvalues]
    by_cases heq : o.maxLiveValues = o'.maxLiveValues
    · exact Or.inr (by rw [← heq, require_of_not hvalues]; rfl)
    · exact Or.inl heq

/-- A run ends with an error on a limit of its options. -/
def RunOutcome.endsOnLimit (out : RunOutcome) : Bool :=
  match out.result with
  | .ok _ => false
  | .error failure => failure.cause.isLimit

/-- The outcomes agree, or the first is an error on a limit in which the options differ. -/
def RunOutcome.Repeats (o o' : InterpreterOptions) (out out' : RunOutcome) : Prop :=
  (∃ failure, out.result = .error failure ∧ Escape o o' failure.cause) ∨ out' = out

theorem runFrom_repeats (h : o.AtMost o') (m : Module) (env : Env) (s s' : RunState)
    (hs : SameRun o o' s s') (hzero : s.steps = 0) :
    RunOutcome.Repeats o o' (runFrom m env o s) (runFrom m env o' s') := by
  have hloop := repeats_runLoop h env (o.maxSteps + 1) (o'.maxSteps + 1)
    (Nat.succ_le_succ h.steps) s s' hs (by omega) (by omega)
  unfold RunOutcome.Repeats runFrom
  cases hrun : runLoop env o (o.maxSteps + 1) s with
  | ok result t =>
      obtain ⟨_, hrun', hl, rfl⟩ := hloop.ok hrun
      rw [hrun']
      exact Or.inr rfl
  | error cause t =>
      rcases hloop.error hrun with hesc | ⟨_, hrun', hl, rfl⟩
      · exact Or.inl ⟨_, rfl, by rw [runtimeFailure_cause]; exact hesc⟩
      · rw [hrun', h.trace]
        exact Or.inr rfl

theorem runInner_repeats (h : o.AtMost o') (m : Module) (arena : Nat)
    (capacity : List MapOp → Nat) (function : FunctionId) (arguments : Arguments) :
    RunOutcome.Repeats o o' (runInner m arena capacity function arguments o)
      (runInner m arena capacity function arguments o') := by
  unfold runInner
  -- Each stage repeats under the larger limits, or its failure is the escape allowed.
  cases preflight m function arguments with
  | error cause => exact Or.inr rfl
  | ok pair =>
      obtain ⟨prepared, inputs⟩ := pair
      have hglobals := repeats_prepareGlobals h m.globalStorage []
        (Memory.new arena capacity o.memoryLimits) (Memory.new arena capacity o'.memoryLimits)
        ⟨rfl, rfl⟩
      dsimp only
      cases hrun : prepareGlobals o m.globalStorage []
          (Memory.new arena capacity o.memoryLimits) with
      | error cause t =>
          rcases hglobals.error hrun with hesc | ⟨t', hrun', -⟩
          · exact Or.inl ⟨_, rfl, hesc⟩
          · rw [hrun']
            exact Or.inr rfl
      | ok pointers memory =>
          obtain ⟨memory', hrun', hmem⟩ := hglobals.ok hrun
          rw [hrun']
          dsimp only
          cases AssocMap.get function prepared with
          | none => exact Or.inr rfl
          | some entry =>
              have hstart := startState_repeats h function entry inputs memory memory' hmem
              dsimp only
              cases hs : startState o function entry inputs memory with
              | error cause =>
                  rw [hs] at hstart
                  rcases hstart with hesc | hs'
                  · exact Or.inl ⟨_, rfl, hesc⟩
                  · rw [hs']
                    exact Or.inr rfl
              | ok s =>
                  rw [hs] at hstart
                  obtain ⟨s', hs', hsame⟩ := hstart
                  rw [hs']
                  exact runFrom_repeats h m _ s s' hsame (startState_steps hs)

theorem run_repeats (h : o.AtMost o') (m : Module) (arena : Nat)
    (capacity : List MapOp → Nat) (function : FunctionId) (arguments : Arguments) :
    RunOutcome.Repeats o o' (run m arena capacity function arguments o)
      (run m arena capacity function arguments o') := by
  unfold run
  rcases runInner_repeats h m arena capacity function arguments with ⟨failure, hfail, hesc⟩ | heq
  · left
    simp only [hfail]
    exact ⟨_, rfl, by rw [runFailure_cause]; exact hesc⟩
  · right
    rw [heq, h.trace]

theorem run_steps_le (m : Module) (arena : Nat) (capacity : List MapOp → Nat)
    (function : FunctionId) (arguments : Arguments) (o : InterpreterOptions) :
    (run m arena capacity function arguments o).steps ≤ o.maxSteps := by
  have hfrom : ∀ env s, s.steps = 0 → (runFrom m env o s).steps ≤ o.maxSteps := by
    intro env s hzero
    have hspent := spends_runLoop (o := o) env (o.maxSteps + 1) s (by omega)
    unfold SpendsAt at hspent
    unfold runFrom
    cases hrun : runLoop env o (o.maxSteps + 1) s with
    | ok result t =>
        rw [hrun] at hspent
        exact hspent.2
    | error cause t =>
        rw [hrun] at hspent
        exact hspent.2
  have hinner : (runInner m arena capacity function arguments o).steps ≤ o.maxSteps := by
    unfold runInner
    cases preflight m function arguments with
    | error cause => exact Nat.zero_le _
    | ok pair =>
        dsimp only
        cases prepareGlobals o m.globalStorage [] (Memory.new arena capacity o.memoryLimits) with
        | error cause t => exact Nat.zero_le _
        | ok pointers memory =>
            dsimp only
            cases AssocMap.get function pair.1 with
            | none => exact Nat.zero_le _
            | some entry =>
                dsimp only
                cases hs : startState o function entry pair.2 memory with
                | error cause => exact Nat.zero_le _
                | ok s => exact hfrom _ s (startState_steps hs)
  unfold run
  dsimp only
  cases (runInner m arena capacity function arguments o).result <;> exact hinner

/-- A run that ends otherwise than on a limit ends the same, in the same number of steps,
under all larger limits; and a run of more steps than another limit allows makes that one end
on its step limit. -/
theorem run_limits (m : Module) (arena : Nat) (capacity : List MapOp → Nat)
    (function : FunctionId) (arguments : Arguments) (o : InterpreterOptions) :
    ((run m arena capacity function arguments o).endsOnLimit = false →
        ∀ o', o.AtMost o' →
          run m arena capacity function arguments o' = run m arena capacity function arguments o) ∧
      ∀ k, k < (run m arena capacity function arguments o).steps →
        ∃ failure site,
          (run m arena capacity function arguments { o with maxSteps := k }).result =
              .error failure ∧
            failure.cause = .stepLimit site k := by
  refine ⟨fun hend o' h => ?_, fun k hk => ?_⟩
  · rcases run_repeats h m arena capacity function arguments with ⟨failure, hfail, hesc⟩ | heq
    · unfold RunOutcome.endsOnLimit at hend
      rw [hfail] at hend
      exact absurd (hesc.isLimit.symm.trans hend) (by decide)
    · exact heq
  · -- Below the steps taken, the run cut at `k` cannot repeat the whole one.
    have hk' : k ≤ o.maxSteps := hk.le.trans (run_steps_le m arena capacity function arguments o)
    have h : InterpreterOptions.AtMost { o with maxSteps := k } o :=
      { steps := hk', depth := le_rfl, frames := le_rfl, values := le_rfl,
        memory := ⟨le_rfl, le_rfl, le_rfl, le_rfl⟩, trace := rfl, ir := rfl }
    rcases run_repeats h m arena capacity function arguments with ⟨failure, hfail, hesc⟩ | heq
    · obtain ⟨site, hcause⟩ := hesc.stepLimit rfl rfl rfl rfl
      exact ⟨failure, site, hfail, hcause⟩
    · -- Without an escape the run itself would have fitted into `k` steps.
      have hle := run_steps_le m arena capacity function arguments { o with maxSteps := k }
      rw [← heq] at hle
      exact absurd hk (by simpa using hle)

end

/-- `fn answer() -> i32`, the double of 21. -/
def answerModule : Module where
  target := "x86_64-whale-linux"
  datalayout := { ptrBits := 64, endian := .little }
  globals := []
  globalStorage := []
  functions := [
    { id := ⟨0⟩, name := "answer", params := [], retTy := .i32, entry := ⟨0⟩
      valueTypes := [(⟨0⟩, .i32), (⟨1⟩, .i32)]
      blocks := [
        { id := ⟨0⟩, name := "entry"
          instructions := [.const ⟨0⟩ .i32 (.i 21), .bin ⟨1⟩ .add .i32 ⟨0⟩ ⟨0⟩]
          terminator := some (.ret .i32 (some ⟨1⟩)) }] }]
  declarations := [
    { id := ⟨0⟩, name := "answer", signature := .whale [] .i32, linkage := .internal
      linkName := none }]
  sources := { files := [], originals := [], mappings := [] }

/-- Just enough for `answerModule`. -/
def answerLimits : InterpreterOptions :=
  { InterpreterOptions.default with maxSteps := 3, maxCallDepth := 1, maxFrames := 1 }

theorem run_limits_answer :
    run answerModule 0 (fun _ => 0) ⟨0⟩ (.scalars []) .default =
        run answerModule 0 (fun _ => 0) ⟨0⟩ (.scalars []) answerLimits ∧
      ∃ failure site,
        (run answerModule 0 (fun _ => 0) ⟨0⟩ (.scalars [])
          { answerLimits with maxSteps := 2 }).result = .error failure ∧
          failure.cause = .stepLimit site 2 := by
  obtain ⟨same, stop⟩ := run_limits answerModule 0 (fun _ => 0) ⟨0⟩ (.scalars []) answerLimits
  refine ⟨same (by decide +kernel) .default ?_, stop 2 (by decide +kernel)⟩
  exact
    { steps := by decide, depth := by decide, frames := by decide, values := by decide
      memory := ⟨le_rfl, le_rfl, le_rfl, le_rfl⟩, trace := rfl, ir := rfl }

end Whale
