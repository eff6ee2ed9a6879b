import Whale.Interp.Run
import Whale.Memory.Lifetimes

set_option autoImplicit false

/-! # What one round of the interpreter does

The inversion of a round (`runStep_round`): it stays in the innermost frame, enters the target of
a call, or leaves the innermost frame. What it does to the lifetimes of allocations follows from
the instruction (`evalInstruction_lifetimes`). -/

namespace Whale

open Memory (Steady)

/-! ## Instructions -/

variable {m m' : Memory}

section

variable {α β : Type} {R : Memory → Memory → Prop}

theorem ofMemory_ok {x : MemoryM α} {a : α} (h : InstructionM.ofMemory x m = .ok a m') :
    x m = .ok a m' := by
  unfold InstructionM.ofMemory at h
  split at h
  · rename_i hx
    cases h
    exact hx
  · cases h

theorem ofExcept_ok {x : Except InstructionFault α} {a : α}
    (h : InstructionM.ofExcept x m = .ok a m') : x = .ok a ∧ m' = m := by
  unfold InstructionM.ofExcept at h
  split at h
  · cases h
    exact ⟨rfl, rfl⟩
  · cases h

theorem ofExcept_bind_ok {x : Except InstructionFault α} {k : α → InstructionM β} {b : β}
    (h : (InstructionM.ofExcept x >>= k) m = .ok b m') : ∃ a, x = .ok a ∧ k a m = .ok b m' := by
  obtain ⟨a, m₁, hx, hk⟩ := bind_run_ok_iff.mp h
  obtain ⟨ha, rfl⟩ := ofExcept_ok hx
  exact ⟨a, ha, hk⟩

theorem ofMemory_bind_ok {x : MemoryM α} {k : α → InstructionM β} {b : β}
    (h : (InstructionM.ofMemory x >>= k) m = .ok b m') :
    ∃ a m₁, x m = .ok a m₁ ∧ k a m₁ = .ok b m' := by
  obtain ⟨a, m₁, hx, hk⟩ := bind_run_ok_iff.mp h
  exact ⟨a, m₁, ofMemory_ok hx, hk⟩

end

/-- What an instruction of a frame whose allocations start at `start` may do to lifetimes. -/
inductive LifetimeStep (start : Nat) (m m' : Memory) : Prop where
  | steady (h : Steady m m')
  | allocate (arena : m'.arena = m.arena) (lives : m'.lives = m.lives ++ [(.stack, true)])
  | finish {p : Pointer} {cap : Capability} {a : Allocation} (ends : Memory.Ends m start p cap a)
      (arena : m'.arena = m.arena)
      (lives : m'.lives = (m.allocations.modify cap.allocation Allocation.retire).map fun a =>
        (a.kind, a.alive))

theorem evalCompare_steady (values : Values) (pred : ICmpPred) (ty : Ty) (lhs rhs : ValueId) :
    SucceedsIn Steady (evalCompare values pred ty lhs rhs) := by
  intro m v m' h
  unfold evalCompare at h
  split at h
  · obtain ⟨a, -, h⟩ := ofExcept_bind_ok h
    obtain ⟨b, -, h⟩ := ofExcept_bind_ok h
    obtain ⟨c, m₁, hlook, h⟩ := ofMemory_bind_ok h
    cases h
    exact Memory.look_steady _ _ _ _ hlook
  · obtain ⟨a, -, h⟩ := ofExcept_bind_ok h
    obtain ⟨b, -, h⟩ := ofExcept_bind_ok h
    obtain ⟨c, -, h⟩ := ofExcept_bind_ok h
    cases h
    exact .refl m

theorem evalCmp_steady (values : Values) (op : CmpOp) (ty : Ty) (lhs rhs : ValueId) :
    SucceedsIn Steady (evalCmp values op ty lhs rhs) := by
  intro m v m' h
  unfold evalCmp at h
  split at h
  · obtain ⟨a, -, h⟩ := ofExcept_bind_ok h
    obtain ⟨b, -, h⟩ := ofExcept_bind_ok h
    obtain ⟨pred, -, h⟩ := orThrow_bind_ok_iff.mp h
    obtain ⟨c, -, h⟩ := ofExcept_bind_ok h
    cases h
    exact .refl m
  · obtain ⟨pred, -, h⟩ := orThrow_bind_ok_iff.mp h
    exact evalCompare_steady _ _ _ _ _ _ _ _ h

variable {env : Env} {prepared : Prepared} {frame : Frame}

/-- Only an allocation and a lifetime end change lifetimes. -/
theorem evalInstruction_lifetimes {key : BlockId × Nat} {inst : Instruction} {r : Option Value}
    (h : evalInstruction env prepared frame key inst m = .ok r m') :
    LifetimeStep frame.allocationStart m m' := by
  unfold evalInstruction at h
  split at h
  case h_1 =>
      -- the end of a lifetime
      obtain ⟨p, -, h⟩ := ofExcept_bind_ok h
      obtain ⟨_, m₁, hretire, h⟩ := ofMemory_bind_ok h
      cases h
      obtain ⟨harena, cap, a, hends, hlives⟩ := Memory.retireStack_ok hretire
      exact .finish hends harena hlives
  case h_2 =>
      obtain ⟨a, -, h⟩ := ofExcept_bind_ok h
      obtain ⟨b, -, h⟩ := ofExcept_bind_ok h
      obtain ⟨d, m₁, hlook, h⟩ := ofMemory_bind_ok h
      cases h
      exact .steady (Memory.look_steady _ _ _ _ hlook)
  case h_3 =>
      obtain ⟨v, m₁, hcmp, h⟩ := bind_run_ok_iff.mp h
      cases h
      exact .steady (evalCmp_steady _ _ _ _ _ _ _ _ hcmp)
  case h_4 =>
      obtain ⟨v, m₁, hcompare, h⟩ := bind_run_ok_iff.mp h
      cases h
      exact .steady (evalCompare_steady _ _ _ _ _ _ _ _ hcompare)
  case h_5 =>
      -- an allocation
      obtain ⟨⟨size, natural⟩, -, h⟩ := orThrow_bind_ok_iff.mp h
      obtain ⟨p, m₁, hallocate, h⟩ := ofMemory_bind_ok h
      cases h
      obtain ⟨harena, hlives, -⟩ := Memory.allocate_lives hallocate
      exact .allocate harena hlives
  case h_6 | h_7 =>
      obtain ⟨p, -, h⟩ := ofExcept_bind_ok h
      obtain ⟨v, m₁, hload, h⟩ := ofMemory_bind_ok h
      cases h
      exact .steady (Memory.load_steady _ _ _ _ _ _ _ hload)
  case h_8 | h_9 =>
      obtain ⟨p, -, h⟩ := ofExcept_bind_ok h
      obtain ⟨v, -, h⟩ := ofExcept_bind_ok h
      obtain ⟨_, m₁, hstore, h⟩ := ofMemory_bind_ok h
      cases h
      exact .steady (Memory.store_writes _ _ _ _ _ _ _ hstore).steady
  case h_10 =>
      obtain ⟨p, -, h⟩ := ofExcept_bind_ok h
      obtain ⟨⟨size, natural⟩, -, h⟩ := orThrow_bind_ok_iff.mp h
      obtain ⟨_, m₁, huninit, h⟩ := ofMemory_bind_ok h
      cases h
      exact .steady (Memory.uninit_writes _ _ _ _ _ _ huninit).steady
  case h_11 =>
      obtain ⟨d, -, h⟩ := ofExcept_bind_ok h
      obtain ⟨s, -, h⟩ := ofExcept_bind_ok h
      obtain ⟨count, -, h⟩ := ofExcept_bind_ok h
      obtain ⟨size, -, h⟩ := ofExcept_bind_ok h
      obtain ⟨_, m₁, hcopy, h⟩ := ofMemory_bind_ok h
      cases h
      exact .steady (Memory.copy_writes _ _ _ _ _ _ _ hcopy).steady
  case h_12 =>
      obtain ⟨d, -, h⟩ := ofExcept_bind_ok h
      obtain ⟨b, -, h⟩ := ofExcept_bind_ok h
      obtain ⟨byte, -, h⟩ := ofExcept_bind_ok h
      obtain ⟨count, -, h⟩ := ofExcept_bind_ok h
      obtain ⟨size, -, h⟩ := ofExcept_bind_ok h
      obtain ⟨_, m₁, hset, h⟩ := ofMemory_bind_ok h
      cases h
      exact .steady (Memory.setBytes_writes _ _ _ _ _ _ _ hset).steady
  case h_13 =>
      obtain ⟨inputs, -, h⟩ := ofExcept_bind_ok h
      obtain ⟨p, -, h⟩ := ofExcept_bind_ok h
      obtain ⟨plan, -, h⟩ := orThrow_bind_ok_iff.mp h
      obtain ⟨q, m₁, hlook, h⟩ := ofMemory_bind_ok h
      cases h
      exact .steady (Memory.look_steady _ _ _ _ hlook)
  case h_14 =>
      obtain ⟨c, -, h⟩ := ofExcept_bind_ok h
      split at h
      · cases h
      · cases h
        exact .steady (.refl m)
  case h_15 =>
      obtain ⟨v, -, h⟩ := ofExcept_bind_ok h
      cases h
      exact .steady (.refl m)

/-! ## Rounds -/

/-- The same activation of the same function, at another point of it. -/
structure Frame.Same (frame frame' : Frame) : Prop where
  function : frame'.function = frame.function
  allocationStart : frame'.allocationStart = frame.allocationStart
  returnDestination : frame'.returnDestination = frame.returnDestination

theorem Frame.Same.refl (frame : Frame) : Frame.Same frame frame := ⟨rfl, rfl, rfl⟩

theorem Frame.Same.trans {f g k : Frame} (h : Frame.Same f g) (h' : Frame.Same g k) :
    Frame.Same f k :=
  ⟨h'.function.trans h.function, h'.allocationStart.trans h.allocationStart,
    h'.returnDestination.trans h.returnDestination⟩

/-- The frame has just run a call with the result `dst`. -/
def Env.HasCalled (env : Env) (frame : Frame) (dst : Option ValueId) : Prop :=
  ∃ prepared block index convention retTy callee args,
    env.prepared.get frame.function = some prepared ∧
      prepared.blocks.get frame.current = some block ∧ frame.instruction = index + 1 ∧
      block.instructions[index]? = some (.call convention dst retTy callee args)

/-- What a round does to the frames and the memory. -/
inductive Round (env : Env) (s s' : RunState) : Option RunResult → Prop where
  | inside {frame frame' : Frame} {rest : List Frame} (before : s.frames = frame :: rest)
      (after : s'.frames = frame' :: rest) (same : Frame.Same frame frame')
      (memory : LifetimeStep frame.allocationStart s.memory s'.memory) : Round env s s' none
  | enter {frame caller child : Frame} {rest : List Frame} (before : s.frames = frame :: rest)
      (after : s'.frames = child :: caller :: rest) (same : Frame.Same frame caller)
      (called : env.HasCalled caller child.returnDestination)
      (start : child.allocationStart = s.memory.allocationCount)
      (memory : s'.memory = s.memory) : Round env s s' none
  | leave {frame parent : Frame} {rest : List Frame} {values : Values}
      (before : s.frames = frame :: parent :: rest)
      (after : s'.frames = { parent with values := values } :: rest)
      (others : ∀ id, some id ≠ frame.returnDestination →
        AssocMap.get id values = AssocMap.get id parent.values)
      (memory : Memory.retireFrom frame.allocationStart s.memory = .ok () s'.memory) :
      Round env s s' none
  | finish {frame : Frame} {result : RunResult} (before : s.frames = [frame])
      (after : s'.frames = [])
      (memory : Memory.retireFrom frame.allocationStart s.memory = .ok () s'.memory) :
      Round env s s' (some result)

variable {r : Option RunResult} {rest : List Frame}

/-- A round from a state whose innermost frame is at another point. -/
theorem Round.of_entered {s s₁ s' : RunState} {frame frame₁ : Frame} (hs : s.frames = frame :: rest)
    (hs₁ : s₁.frames = frame₁ :: rest) (hsame : Frame.Same frame frame₁)
    (hmemory : s₁.memory = s.memory) (h : Round env s₁ s' r) : Round env s s' r := by
  cases h with
  | inside before after same memory =>
      obtain ⟨rfl, rfl⟩ := List.cons.inj (before.symm.trans hs₁)
      rw [hmemory, hsame.allocationStart] at memory
      exact .inside hs after (hsame.trans same) memory
  | enter before after same called start memory =>
      obtain ⟨rfl, rfl⟩ := List.cons.inj (before.symm.trans hs₁)
      rw [hmemory] at start memory
      exact .enter hs after (hsame.trans same) called start memory
  | leave before after others memory =>
      obtain ⟨rfl, rfl⟩ := List.cons.inj (before.symm.trans hs₁)
      rw [hmemory, hsame.allocationStart] at memory
      rw [hsame.returnDestination] at others
      exact .leave hs after others memory
  | finish before after memory =>
      obtain ⟨rfl, rfl⟩ := List.cons.inj (before.symm.trans hs₁)
      rw [hmemory, hsame.allocationStart] at memory
      exact .finish hs after memory

section

variable {o : InterpreterOptions} {site : ExecutionSite} {s s' : RunState}

theorem RunM.charge_ok {u : Unit} (h : RunM.charge o site s = .ok u s') :
    s'.frames = s.frames ∧ s'.memory = s.memory := by
  obtain ⟨-, h⟩ := require_bind_ok_iff.mp (get_bind_run h)
  cases h
  exact ⟨rfl, rfl⟩

theorem RunM.ofInstruction_ok {α : Type} {x : InstructionM α} {a : α}
    (h : RunM.ofInstruction site x s = .ok a s') :
    x s.memory = .ok a s'.memory ∧ s'.frames = s.frames := by
  unfold RunM.ofInstruction at h
  split at h
  · rename_i hx
    cases h
    exact ⟨hx, rfl⟩
  · cases h

theorem RunM.ofInstruction_bind_ok {α β : Type} {x : InstructionM α} {k : α → RunM β} {b : β}
    (h : (RunM.ofInstruction site x >>= k) s = .ok b s') :
    ∃ a t, x s.memory = .ok a t.memory ∧ t.frames = s.frames ∧ k a t = .ok b s' := by
  obtain ⟨a, t, hx, hk⟩ := bind_run_ok_iff.mp h
  obtain ⟨hmemory, hframes⟩ := RunM.ofInstruction_ok hx
  exact ⟨a, t, hmemory, hframes, hk⟩

theorem RunM.ofValues_bind_ok {α β : Type} {x : Except InstructionFault α} {k : α → RunM β} {b : β}
    (h : (RunM.ofValues site x >>= k) s = .ok b s') :
    ∃ a, x = .ok a ∧ ∃ t, t.memory = s.memory ∧ t.frames = s.frames ∧ k a t = .ok b s' := by
  obtain ⟨a, t, hx, hframes, hk⟩ := RunM.ofInstruction_bind_ok h
  obtain ⟨ha, hmemory⟩ := ofExcept_ok hx
  exact ⟨a, ha, t, hmemory, hframes, hk⟩

theorem runPhis_ok {sites : Nat → Option ValueId → ExecutionSite} {index : Nat}
    {insts : List Instruction} {phis : List (ValueId × Value)}
    (h : runPhis o sites frame index insts s = .ok phis s') :
    s'.frames = s.frames ∧ s'.memory = s.memory := by
  induction insts generalizing index phis s s' with
  | nil =>
      cases h
      exact ⟨rfl, rfl⟩
  | cons inst insts ih =>
      cases inst with
      | phi dst ty incomings =>
          obtain ⟨_, s₁, hcharge, h⟩ := bind_run_ok_iff.mp h
          obtain ⟨input, -, h⟩ := orThrow_bind_ok_iff.mp h
          obtain ⟨value, -, h⟩ := orThrow_bind_ok_iff.mp h
          obtain ⟨rest, s₂, hrest, h⟩ := bind_run_ok_iff.mp h
          cases h
          obtain ⟨hframes, hmemory⟩ := RunM.charge_ok hcharge
          obtain ⟨hframes', hmemory'⟩ := ih hrest
          exact ⟨hframes'.trans hframes, hmemory'.trans hmemory⟩
      | _ =>
          cases h
          exact ⟨rfl, rfl⟩

theorem updateFrame_cons (hs : s.frames = frame :: rest) (f : Frame → Frame) :
    (s.updateFrame f).frames = f frame :: rest ∧ (s.updateFrame f).memory = s.memory := by
  simp [RunState.updateFrame, hs]

variable {block : BasicBlock}

/-- Entering a block changes only the innermost frame's values and position. -/
theorem enterBlock_ok {u : Unit} (hs : s.frames = frame :: rest)
    (h : enterBlock o frame block s = .ok u s') :
    ∃ frame', s'.frames = frame' :: rest ∧ Frame.Same frame frame' ∧
      frame'.current = frame.current ∧ s'.memory = s.memory := by
  obtain ⟨phis, s₁, hphis, h⟩ := bind_run_ok_iff.mp h
  obtain ⟨hframes, hmemory⟩ := runPhis_ok hphis
  cases h
  obtain ⟨hframes', hmemory'⟩ := updateFrame_cons (hframes.trans hs) fun f =>
    { f with instruction := phis.length, values := f.values.extend phis }
  exact ⟨_, hframes', ⟨rfl, rfl, rfl⟩, rfl, hmemory'.trans hmemory⟩

theorem runCall_ok {frame caller : Frame} {depth : Nat} {dst : Option ValueId} {target : Callee}
    {args : List ValueId} {u : Unit} (hs : s.frames = caller :: rest)
    (h : runCall env o site frame depth dst target args s = .ok u s') :
    ∃ child, s'.frames = child :: caller :: rest ∧ child.returnDestination = dst ∧
      child.allocationStart = s.memory.allocationCount ∧ s'.memory = s.memory := by
  obtain ⟨id, -, s₁, hmemory₁, hframes₁, h⟩ := RunM.ofValues_bind_ok h
  obtain ⟨-, h⟩ := require_bind_ok_iff.mp h
  replace h := get_bind_run h
  obtain ⟨-, h⟩ := require_bind_ok_iff.mp h
  obtain ⟨child, -, h⟩ := orThrow_bind_ok_iff.mp h
  obtain ⟨live, -, h⟩ := orThrow_bind_ok_iff.mp h
  obtain ⟨arguments, -, s₂, hmemory₂, hframes₂, h⟩ := RunM.ofValues_bind_ok h
  cases h
  have hframes : s₂.frames = caller :: rest := hframes₂.trans (hframes₁.trans hs)
  have hcount : s₁.memory.allocationCount = s.memory.allocationCount := by rw [hmemory₁]
  exact ⟨_, congrArg (List.cons _) hframes, rfl, hcount, hmemory₂.trans hmemory₁⟩

theorem runReturn_ok {value : Option ValueId} (hs : s.frames = frame :: rest)
    (h : runReturn site prepared frame value s = .ok r s') : Round env s s' r := by
  obtain ⟨result, -, s₁, hmemory₁, hframes₁, h⟩ := RunM.ofValues_bind_ok h
  obtain ⟨_, s₂, hretire, hframes₂, h⟩ := RunM.ofInstruction_bind_ok h
  replace hretire := ofMemory_ok hretire
  rw [hmemory₁] at hretire
  replace h := get_bind_run h
  have hframes : s₂.frames = frame :: rest := hframes₂.trans (hframes₁.trans hs)
  rw [hframes, List.tail_cons] at h
  cases rest with
  | nil =>
      cases h
      exact .finish hs rfl hretire
  | cons parent rest =>
      cases hdst : frame.returnDestination with
      | none =>
          simp only [hdst] at h
          cases h
          exact .leave hs rfl (fun _ _ => rfl) hretire
      | some dst =>
          simp only [hdst] at h
          obtain ⟨v, -, h⟩ := orThrow_bind_ok_iff.mp h
          cases h
          refine .leave hs rfl (fun id hid => ?_) hretire
          have hne : id ≠ dst := fun heq => hid (by rw [heq, hdst])
          exact AssocMap.get_insert_ne hne v parent.values

theorem runInstruction_ok {depth index : Nat} {inst : Instruction} {u : Unit}
    (hs : s.frames = frame :: rest) (hprepared : env.prepared.get frame.function = some prepared)
    (hblock : prepared.blocks.get frame.current = some block)
    (hinst : block.instructions[index]? = some inst)
    (h : runInstruction env o prepared frame depth index inst s = .ok u s') :
    Round env s s' none := by
  obtain ⟨_, s₁, hmodify, h⟩ := bind_run_ok_iff.mp h
  cases hmodify
  obtain ⟨hframes₁, hmemory₁⟩ := updateFrame_cons hs fun f => { f with instruction := index + 1 }
  obtain ⟨_, s₂, hcharge, h⟩ := bind_run_ok_iff.mp h
  obtain ⟨hframes₂, hmemory₂⟩ := RunM.charge_ok hcharge
  have hframes := hframes₂.trans hframes₁
  have hmemory := hmemory₂.trans hmemory₁
  split at h
  · obtain ⟨child, hchild, hdst, hstart, hsame⟩ := runCall_ok hframes h
    refine .enter hs hchild ⟨rfl, rfl, rfl⟩ ?_ ?_ (hsame.trans hmemory)
    · exact ⟨prepared, block, index, _, _, _, _, hprepared, hblock, rfl, hdst ▸ hinst⟩
    · rw [hstart, hmemory]
  · obtain ⟨value, s₃, heval, hframes₃, h⟩ := RunM.ofInstruction_bind_ok h
    rw [hmemory] at heval
    have hlives := evalInstruction_lifetimes heval
    cases value with
    | none =>
        cases h
        exact .inside hs (hframes₃.trans hframes) ⟨rfl, rfl, rfl⟩ hlives
    | some value =>
        obtain ⟨dst, -, h⟩ := orThrow_bind_ok_iff.mp h
        cases h
        obtain ⟨hframes₄, hmemory₄⟩ := updateFrame_cons (hframes₃.trans hframes) fun f =>
          { f with values := AssocMap.insert dst value f.values }
        rw [← hmemory₄] at hlives
        exact .inside hs hframes₄ ⟨rfl, rfl, rfl⟩ hlives

theorem runTerminator_ok (hs : s.frames = frame :: rest)
    (h : runTerminator o prepared frame block s = .ok r s') : Round env s s' r := by
  obtain ⟨_, s₁, hcharge, h⟩ := bind_run_ok_iff.mp h
  obtain ⟨hframes₁, hmemory₁⟩ := RunM.charge_ok hcharge
  obtain ⟨terminator, -, h⟩ := orThrow_bind_ok_iff.mp h
  split at h
  · have hround : Round env s₁ s' r := runReturn_ok (hframes₁.trans hs) h
    exact .of_entered hs (hframes₁.trans hs) (.refl frame) hmemory₁ hround
  · obtain ⟨next, -, s₂, hmemory₂, hframes₂, h⟩ := RunM.ofValues_bind_ok h
    cases h
    obtain ⟨hframes₃, hmemory₃⟩ := updateFrame_cons (hframes₂.trans (hframes₁.trans hs)) fun f =>
      { f with predecessor := some frame.current, current := next, instruction := 0 }
    have hsame := hmemory₃.trans (hmemory₂.trans hmemory₁)
    exact .inside hs hframes₃ ⟨rfl, rfl, rfl⟩ (.steady (hsame ▸ .refl _))

/-- The part of a round behind the phis. -/
theorem runEntered_round {depth : Nat} (hs : s.frames = frame :: rest)
    (hprepared : env.prepared.get frame.function = some prepared)
    (hblock : prepared.blocks.get frame.current = some block) (h : (do
      let entered ← get
      let frame ← orThrow entered.frames.head? RunError.panic
      match block.instructions[frame.instruction]? with
      | some inst => do
          runInstruction env o prepared frame depth frame.instruction inst
          return none
      | none => runTerminator o prepared frame block : RunM (Option RunResult)) s = .ok r s') :
    Round env s s' r := by
  obtain ⟨frame', hframe, h⟩ := orThrow_bind_ok_iff.mp (get_bind_run h)
  rw [hs] at hframe
  cases hframe
  cases hinst : block.instructions[frame.instruction]? with
  | some inst =>
      simp only [hinst] at h
      obtain ⟨_, s₂, hrun, h⟩ := bind_run_ok_iff.mp h
      cases h
      exact runInstruction_ok hs hprepared hblock hinst hrun
  | none =>
      simp only [hinst] at h
      exact runTerminator_ok hs h

/-- Every successful round stays in its frame, enters a function or leaves one. -/
theorem runStep_round (h : runStep env o s = .ok r s') : Round env s s' r := by
  obtain ⟨frame, hframe, h⟩ := orThrow_bind_ok_iff.mp (get_bind_run h)
  obtain ⟨rest, hs⟩ := List.head?_eq_some_iff.mp hframe
  obtain ⟨prepared, hprepared, h⟩ := orThrow_bind_ok_iff.mp h
  obtain ⟨block, hblock, h⟩ := orThrow_bind_ok_iff.mp h
  split at h
  · obtain ⟨_, s₁, henter, h⟩ := bind_run_ok_iff.mp h
    obtain ⟨frame₁, hs₁, hsame, hcurrent, hmemory⟩ := enterBlock_ok hs henter
    rw [← hsame.function] at hprepared
    rw [← hcurrent] at hblock
    exact .of_entered hs hs₁ hsame hmemory (runEntered_round hs₁ hprepared hblock h)
  · exact runEntered_round hs hprepared hblock h

end

end Whale
