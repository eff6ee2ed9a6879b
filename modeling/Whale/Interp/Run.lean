import Whale.Float.Arithmetic
import Whale.Interp.Prepare

set_option autoImplicit false

/-! # Running a module

The interpreter's loop. Each round runs the phis of a block it has just entered and then one
instruction or the terminator, and charges a step for each of them. -/

namespace Whale

structure Frame where
  function : FunctionId
  values : AssocMap ValueId Value
  current : BlockId
  predecessor : Option BlockId
  instruction : Nat
  allocationStart : Nat
  returnDestination : Option ValueId
  callSite : Option ExecutionSite

/-- What does not change during a run. -/
structure Env where
  prepared : AssocMap FunctionId Prepared
  functionSignatures : AssocMap FunctionId FunctionSignature
  globalPointers : AssocMap GlobalId Pointer

/-- The changing state of a run; the innermost frame comes first. -/
structure RunState where
  memory : Memory
  frames : List Frame
  framesCreated : Nat
  liveValues : Nat
  steps : Nat

structure RunResult where
  value : Option RuntimeValue
  steps : Nat
  deriving DecidableEq

abbrev RunM := EStateM RunError RunState

/-- The computation of one instruction on the memory. -/
abbrev InstructionM := EStateM InstructionFault Memory

/-! ## Values -/

/-- An operation of the memory as part of an instruction. -/
def InstructionM.ofMemory {α : Type} (x : MemoryM α) : InstructionM α := fun m =>
  match x m with
  | .ok a m => .ok a m
  | .error e m => .error e.toInstructionFault m

/-- A result without any effect. -/
def InstructionM.ofExcept {α : Type} (x : Except InstructionFault α) : InstructionM α := fun m =>
  match x with
  | .ok a => .ok a m
  | .error e => .error e m

/-- The values of a frame. -/
abbrev Values := AssocMap ValueId Value

namespace Values

def read (values : Values) (id : ValueId) : Except InstructionFault Value :=
  orThrow (AssocMap.get id values) InstructionFault.panic

def scalar (values : Values) (id : ValueId) : Except InstructionFault ConstValue := do
  match ← values.read id with
  | .scalar v => return v
  | _ => throw .panic

def pointer (values : Values) (id : ValueId) : Except InstructionFault Pointer := do
  match ← values.read id with
  | .pointer p => return p
  | _ => throw .panic

def boolean (values : Values) (id : ValueId) : Except InstructionFault Bool := do
  match ← values.scalar id with
  | .bool b => return b
  | _ => throw .panic

def float (values : Values) (id : ValueId) : Except InstructionFault FloatBits := do
  match ← values.scalar id with
  | .f bits => return bits
  | _ => throw .panic

end Values

/-! ## Instructions -/

def pointerCompare (m : Memory) (pred : ICmpPred) (lhs rhs : Pointer) : Except Fault Bool :=
  match pred with
  | .eq => m.equal lhs rhs
  | .ne => do
      let equal ← m.equal lhs rhs
      return !equal
  | .ult | .slt => do
      let ordering ← m.compareOrder lhs rhs
      return ordering.isLT
  | .ule | .sle => do
      let ordering ← m.compareOrder lhs rhs
      return ordering.isLE
  | .ugt | .sgt => do
      let ordering ← m.compareOrder lhs rhs
      return ordering.isGT
  | .uge | .sge => do
      let ordering ← m.compareOrder lhs rhs
      return ordering.isGE

/-- The integer or floating operation of `Bin`; the left operand decides which. -/
def evalBin (op : BinOp) (ty : Ty) (lhs rhs : ConstValue) : Except InstructionFault ConstValue :=
  match lhs with
  | .f a =>
      match rhs with
      | .f b => do
          let v ← orThrow (FloatBits.arithmetic op a b) InstructionFault.panic
          return .f v
      | _ => .error .panic
  | lhs => Integer.bin op ty lhs rhs

def evalNeg (ty : Ty) (value : ConstValue) : Except InstructionFault ConstValue :=
  match value with
  | .f value => .ok (.f value.negate)
  | value => Integer.negate ty value

/-- Floating comparison of scalars. -/
def floatCompare (pred : FCmpPred) (lhs rhs : ConstValue) : Except InstructionFault Bool :=
  match lhs, rhs with
  | .f a, .f b => orThrow (a.compare b pred) InstructionFault.panic
  | _, _ => .error .panic

/-- The casts that read and give a scalar. -/
def evalCast (op : CastOp) (srcTy dstTy : Ty) (value : ConstValue) :
    Except InstructionFault ConstValue :=
  match op with
  | .fExt | .fTrunc | .iToFS | .iToFU | .fToIS | .fToIU => do
      let v ← orThrow (FloatBits.convert op srcTy dstTy value) InstructionFault.panic
      orThrow v (InstructionFault.trap .invalidConversion)
  | .checkedInt => Integer.checkedCast srcTy dstTy value
  | .bitcast => do
      let bits ← orThrow (Scalar.raw srcTy value) InstructionFault.panic
      orThrow (Scalar.pack dstTy bits) InstructionFault.panic
  | op => Integer.cast op srcTy dstTy value

/-- The results of the instructions that do not touch memory. -/
def evalPure (env : Env) (prepared : Prepared) (key : BlockId × Nat) (values : Values)
    (inst : Instruction) : Except InstructionFault Value :=
  match inst with
  | .globalAddr _ global _ => do
      let p ← orThrow (env.globalPointers.get global) InstructionFault.panic
      return .pointer p
  | .nullFunction .. => do
      let signature ← orThrow (prepared.signatures.get key) InstructionFault.panic
      return .functionPointer { signature := signature, target := .null }
  | .functionAddr _ target _ => do
      let signature ← orThrow (prepared.signatures.get key) InstructionFault.panic
      return .functionPointer { signature := signature, target := .defined target }
  | .const _ _ value | .constDecl _ _ _ value => return .scalar value
  | .mov _ _ src => values.read src
  | .bin _ op ty lhs rhs => do
      let a ← values.scalar lhs
      let b ← values.scalar rhs
      return .scalar (← evalBin op ty a b)
  | .neg _ ty src => do
      let v ← values.scalar src
      return .scalar (← evalNeg ty v)
  | .not _ ty src => do
      let v ← values.scalar src
      return .scalar (← Integer.complement ty v)
  | .fCmp _ pred _ lhs rhs => do
      let a ← values.scalar lhs
      let b ← values.scalar rhs
      return .scalar (.bool (← floatCompare pred a b))
  | .select _ _ cond onTrue onFalse => do
      let c ← values.boolean cond
      values.read (if c then onTrue else onFalse)
  | .cast _ op dstTy srcTy src =>
      match op with
      | .intToPtr => do
          let v ← values.scalar src
          let bits ← Integer.operand v 64
          return .pointer (.raw (UInt64.ofNat bits))
      | .ptrToInt => do
          let p ← values.pointer src
          return .scalar (← Integer.result dstTy p.address.toNat)
      | op =>
          if op = .bitcast ∧ srcTy.isPtr = true then values.read src
          else do
            let v ← values.scalar src
            return .scalar (← evalCast op srcTy dstTy v)
  | .checked _ op ty lhs rhs => do
      let a ← values.scalar lhs
      let b ← values.scalar rhs
      let (v, overflow) ← Integer.checked op ty a b
      return .checked v overflow
  | .extract _ _ tuple index => do
      match ← values.read tuple with
      | .checked v overflow => return .scalar (if index = 0 then v else .bool overflow)
      | _ => throw .panic
  | _ => throw .panic

/-- A comparison of integers or pointers; that of pointers reads memory. -/
def evalCompare (values : Values) (pred : ICmpPred) (ty : Ty) (lhs rhs : ValueId) :
    InstructionM Value := do
  if ty.isPtr then
    let a ← .ofExcept (values.pointer lhs)
    let b ← .ofExcept (values.pointer rhs)
    return .scalar (.bool (← .ofMemory (Memory.look (pointerCompare · pred a b))))
  else
    let a ← .ofExcept (values.scalar lhs)
    let b ← .ofExcept (values.scalar rhs)
    return .scalar (.bool (← .ofExcept (Integer.compare pred ty a b)))

/-- The generic comparison. -/
def evalCmp (values : Values) (op : CmpOp) (ty : Ty) (lhs rhs : ValueId) : InstructionM Value := do
  if Scalar.floatType ty then
    let a ← .ofExcept (values.scalar lhs)
    let b ← .ofExcept (values.scalar rhs)
    let pred ← orThrow op.floatPredicate InstructionFault.panic
    return .scalar (.bool (← .ofExcept (floatCompare pred a b)))
  else
    let pred ← orThrow (cmpPred op) InstructionFault.panic
    evalCompare values pred ty lhs rhs

/-- Run one instruction other than a call. `none` is an instruction without a result. -/
def evalInstruction (env : Env) (prepared : Prepared) (frame : Frame) (key : BlockId × Nat)
    (inst : Instruction) : InstructionM (Option Value) :=
  let values : Values := frame.values
  match inst with
  | .lifetimeEnd ptr => do
      let p ← .ofExcept (values.pointer ptr)
      .ofMemory (Memory.retireStack p frame.allocationStart)
      return none
  | .ptrDiff _ lhs rhs => do
      let a ← .ofExcept (values.pointer lhs)
      let b ← .ofExcept (values.pointer rhs)
      let d ← .ofMemory (Memory.look (Memory.difference · a b))
      return some (.scalar (.i (BitVec.ofInt 128 d)))
  | .cmp _ op ty lhs rhs => do
      return some (← evalCmp values op ty lhs rhs)
  | .iCmp _ pred ty lhs rhs => do
      return some (← evalCompare values pred ty lhs rhs)
  | .alloca _ _ align => do
      let (size, natural) ← orThrow (prepared.sizes.get key) InstructionFault.panic
      let p ← .ofMemory (Memory.allocate size natural align.toNat)
      return some (.pointer p)
  | .volatileLoad _ ty ptr align | .load _ ty ptr align => do
      let p ← .ofExcept (values.pointer ptr)
      let v ← .ofMemory
        (Memory.loadWithSignature p ty align.toNat (prepared.signatures.get key))
      return some v
  | .volatileStore ty value ptr align | .store ty value ptr align => do
      let p ← .ofExcept (values.pointer ptr)
      let v ← .ofExcept (values.read value)
      .ofMemory (Memory.store p ty v align.toNat)
      return none
  | .uninit _ ptr align => do
      let p ← .ofExcept (values.pointer ptr)
      let (size, _) ← orThrow (prepared.sizes.get key) InstructionFault.panic
      .ofMemory (Memory.uninit p size align.toNat)
      return none
  | .memcpy dst src n align => do
      let d ← .ofExcept (values.pointer dst)
      let s ← .ofExcept (values.pointer src)
      let count ← .ofExcept (values.scalar n)
      let size ← .ofExcept (Integer.operand count 64)
      .ofMemory (Memory.copy d s size align.toNat)
      return none
  | .memset dst val n align => do
      let d ← .ofExcept (values.pointer dst)
      let byte ← .ofExcept (values.scalar val)
      let byte ← .ofExcept (Integer.operand byte 8)
      let count ← .ofExcept (values.scalar n)
      let size ← .ofExcept (Integer.operand count 64)
      .ofMemory (Memory.setBytes d (UInt8.ofNat byte) size align.toNat)
      return none
  | .gep _ _ basePtr indices => do
      let inputs ← .ofExcept (indices.mapM values.scalar)
      let p ← .ofExcept (values.pointer basePtr)
      let plan ← orThrow (prepared.geps.get key) InstructionFault.panic
      let q ← .ofMemory (Memory.look (Memory.gep · p plan inputs))
      return some (.pointer q)
  | .trapIf cond reason => do
      if ← .ofExcept (values.boolean cond) then
        throw (.trap (.explicit reason))
      else
        return none
  | inst => do
      let v ← .ofExcept (evalPure env prepared key values inst)
      return some v

/-! ## The loop -/

/-- The error of an instruction at a site. -/
def InstructionFault.toRunError (site : ExecutionSite) (steps : Nat) : InstructionFault → RunError
  | .trap reason => .trap site reason steps
  | .memoryLimit resource limit => .memoryLimit site resource limit
  | .panic => .panic

/-- Charge one step. -/
def RunM.charge (o : InterpreterOptions) (site : ExecutionSite) : RunM Unit := do
  let s ← get
  require (s.steps < o.maxSteps) (RunError.stepLimit site o.maxSteps)
  set { s with steps := s.steps + 1 }

/-- Run an instruction's computation on the memory of the run. -/
def RunM.ofInstruction {α : Type} (site : ExecutionSite) (x : InstructionM α) : RunM α := fun s =>
  match x s.memory with
  | .ok a m => .ok a { s with memory := m }
  | .error e m => .error (e.toRunError site s.steps) { s with memory := m }

/-- A value of the innermost frame, or a missing value. -/
def RunM.ofValues {α : Type} (site : ExecutionSite) (x : Except InstructionFault α) : RunM α :=
  .ofInstruction site (.ofExcept x)

/-- Change the innermost frame. -/
def RunState.updateFrame (s : RunState) (f : Frame → Frame) : RunState :=
  match s.frames with
  | [] => s
  | frame :: frames => { s with frames := f frame :: frames }

/-- The phis a block starts with; all are read before any is written. -/
def runPhis (o : InterpreterOptions) (site : Nat → Option ValueId → ExecutionSite)
    (frame : Frame) (index : Nat) : List Instruction → RunM (List (ValueId × Value))
  | .phi dst _ incomings :: insts => do
      RunM.charge o (site index (some dst))
      let input ← orThrow (incomings.find? fun e => some e.2 = frame.predecessor) RunError.panic
      let value ← orThrow (frame.values.get input.1) RunError.panic
      let rest ← runPhis o site frame (index + 1) insts
      return (dst, value) :: rest
  | _ => return []

/-- The function an indirect call goes to. -/
def callee (env : Env) (values : Values) : Callee → Except InstructionFault FunctionId
  | .direct id => .ok id
  | .indirect id => do
      match ← values.read id with
      | .functionPointer pointer =>
          match pointer.target with
          | .null => throw (.trap .nullFunction)
          | .invalidBits _ => throw (.trap .invalidFunctionPointer)
          | .defined id =>
              if env.functionSignatures.get id = some pointer.signature then return id
              else throw (.trap .functionSignatureMismatch)
      | _ => throw .panic

/-- The values a frame starts with. -/
def frameValues (f : Function) (arguments : List Value) : Values :=
  AssocMap.extend [] ((f.params.map Param.id).zip arguments)

/-- Enter the target of a call. -/
def runCall (env : Env) (o : InterpreterOptions) (site : ExecutionSite) (frame : Frame)
    (depth : Nat) (dst : Option ValueId) (target : Callee) (args : List ValueId) : RunM Unit := do
  let target ← RunM.ofValues site (callee env frame.values target)
  require (depth < o.maxCallDepth) (RunError.callLimit site .depth o.maxCallDepth)
  let s ← get
  require (s.framesCreated < o.maxFrames) (RunError.callLimit site .frames o.maxFrames)
  let child ← orThrow (env.prepared.get target) RunError.panic
  let live ← orThrow
    ((checkedAdd s.liveValues child.valueCapacity).filter (· ≤ o.maxLiveValues))
    (RunError.callLimit site .values o.maxLiveValues)
  let arguments ← RunM.ofValues site (args.mapM (Values.read frame.values))
  let childFrame : Frame :=
    { function := target, values := frameValues child.function arguments,
      current := child.function.entry, predecessor := none, instruction := 0,
      allocationStart := s.memory.allocationCount, returnDestination := dst,
      callSite := some site }
  modify fun s => { s with
    frames := childFrame :: s.frames, framesCreated := s.framesCreated + 1, liveValues := live }

/-- Leave the innermost frame; the result when it was the entry's. -/
def runReturn (site : ExecutionSite) (prepared : Prepared) (frame : Frame)
    (value : Option ValueId) : RunM (Option RunResult) := do
  let value ← RunM.ofValues site (value.mapM (Values.read frame.values))
  RunM.ofInstruction site (.ofMemory (Memory.retireFrom frame.allocationStart))
  let s ← get
  match s.frames.tail with
  | [] =>
      set { s with frames := [], liveValues := s.liveValues - prepared.valueCapacity }
      return some
        { value := value.map fun v =>
            { ty := prepared.function.retTy, value := v, origin := true }
          steps := s.steps }
  | parent :: frames => do
      let parent ← match frame.returnDestination with
        | none => pure parent
        | some dst => do
            let value ← orThrow value RunError.panic
            pure { parent with values := AssocMap.insert dst value parent.values }
      set { s with
        frames := parent :: frames, liveValues := s.liveValues - prepared.valueCapacity }
      return none

/-- The target of a terminator that stays in the function. -/
def nextBlock (values : Values) : Terminator → Except InstructionFault BlockId
  | .br target => .ok target
  | .cBr cond thenBb elseBb => do
      let c ← values.boolean cond
      return if c then thenBb else elseBb
  | .switch _ value defaultBb cases => do
      let v ← values.scalar value
      return ((cases.find? fun e => e.1 = v).map Prod.snd).getD defaultBb
  | .ret .. => .error .panic
  | .trap reason => .error (.trap (.explicit reason))

/-- The instruction at position `index` of the innermost frame's block. -/
def runInstruction (env : Env) (o : InterpreterOptions) (prepared : Prepared) (frame : Frame)
    (depth index : Nat) (inst : Instruction) : RunM Unit := do
  let site : ExecutionSite :=
    { function := frame.function, block := frame.current, instruction := index,
      value := inst.destination }
  modify (·.updateFrame fun f => { f with instruction := index + 1 })
  RunM.charge o site
  match inst with
  | .call _ dst _ target args => runCall env o site frame depth dst target args
  | inst => do
      let value ← RunM.ofInstruction site
        (evalInstruction env prepared frame (frame.current, index) inst)
      match value with
      | none => pure ()
      | some value => do
          let dst ← orThrow inst.destination RunError.panic
          modify (·.updateFrame fun f => { f with values := AssocMap.insert dst value f.values })

/-- The terminator of the innermost frame's block. -/
def runTerminator (o : InterpreterOptions) (prepared : Prepared) (frame : Frame)
    (block : BasicBlock) : RunM (Option RunResult) := do
  let site : ExecutionSite :=
    { function := frame.function, block := frame.current,
      instruction := block.instructions.length, value := none }
  RunM.charge o site
  let terminator ← orThrow block.terminator RunError.panic
  match terminator with
  | .ret _ value => runReturn site prepared frame value
  | terminator => do
      let next ← RunM.ofValues site (nextBlock frame.values terminator)
      modify (·.updateFrame fun f =>
        { f with predecessor := some frame.current, current := next, instruction := 0 })
      return none

/-- Enter a block: run its phis and write their values at once. -/
def enterBlock (o : InterpreterOptions) (frame : Frame) (block : BasicBlock) : RunM Unit := do
  let phis ← runPhis o
    (fun index value =>
      { function := frame.function, block := frame.current, instruction := index, value := value })
    frame 0 block.instructions
  modify (·.updateFrame fun f =>
    { f with instruction := phis.length, values := f.values.extend phis })

/-- One round of the loop: the phis when the block was just entered, and then one instruction
or the terminator. -/
def runStep (env : Env) (o : InterpreterOptions) : RunM (Option RunResult) := do
  let s ← get
  let frame ← orThrow s.frames.head? RunError.panic
  let prepared ← orThrow (env.prepared.get frame.function) RunError.panic
  let block ← orThrow (prepared.blocks.get frame.current) RunError.panic
  if frame.instruction = 0 then enterBlock o frame block else pure ()
  let entered ← get
  let frame ← orThrow entered.frames.head? RunError.panic
  match block.instructions[frame.instruction]? with
  | some inst => do
      runInstruction env o prepared frame s.frames.length frame.instruction inst
      return none
  | none => runTerminator o prepared frame block

/-- Rounds until the entry returns. -/
def runLoop (env : Env) (o : InterpreterOptions) : Nat → RunM RunResult
  | 0 => throw .panic
  | fuel + 1 => do
      match ← runStep env o with
      | some result => return result
      | none => runLoop env o fuel

/-! ## A run -/

/-- An operation on the memory for a global. -/
def globalOperation {α : Type} (global : GlobalId) (x : MemoryM α) : EStateM RunError Memory α :=
  fun m =>
    match x m with
    | .ok a m => .ok a m
    | .error (.trap reason) m => .error (.globalMemory global reason) m
    | .error (.limit resource limit) m => .error (.globalMemoryLimit global resource limit) m
    | .error .panic m => .error .panic m

/-- The storage of one global. -/
def prepareGlobal (o : InterpreterOptions) (g : GlobalStorage) :
    EStateM RunError Memory Pointer := do
  let layout ← orThrow (layoutOfWithLimit g.ty o.irLimits.maxTypeDepth).toOption RunError.panic
  let pointer ← globalOperation g.id
    (Memory.allocateGlobal layout.size layout.align g.align.toNat)
  match g.init with
  | .value value =>
      globalOperation g.id (Memory.store pointer g.ty (.scalar value) g.align.toNat)
  | .uninitialized => pure ()
  globalOperation g.id (Memory.sealGlobal pointer g.readonly)

/-- The storage of one global after the other, and their pointers. -/
def prepareGlobals (o : InterpreterOptions) : List GlobalStorage → AssocMap GlobalId Pointer →
    EStateM RunError Memory (AssocMap GlobalId Pointer)
  | [], pointers => pure pointers
  | g :: globals, pointers => do
      let pointer ← prepareGlobal o g
      prepareGlobals o globals (pointers.insert g.id pointer)

/-- The checks before execution: the prepared functions and the entry's arguments. -/
def preflight (m : Module) (function : FunctionId) (arguments : Arguments) :
    Except RunError (AssocMap FunctionId Prepared × List Value) := do
  let program := Program.ofModule m
  let entry ← orThrow (program.functions.get function) (RunError.unknownFunction function)
  let scalarEntry := match arguments with
    | .scalars _ => entry.params.all (fun p => scalarType p.ty) &&
        (entry.retTy = .void || scalarType entry.retTy)
    | .runtime _ => true
  require (scalarEntry = true) (RunError.unsupportedSignature function)
  require (arguments.length = entry.params.length)
    (RunError.argumentCount entry.params.length arguments.length)
  let inputs ← inputValues program arguments 0 entry.params
  let start : Preparation := argumentTargets inputs
    { pending := [function], callableTargets := [], callableBySignature := [],
      indirectSignatures := [], visited := [], prepared := [] }
  let preparation ← prepareAll program (m.functions.length + 1) start
  -- Validate all global storage before allocating or executing any instruction.
  match m.globalStorage.find? fun g => !callValueType g.ty with
  | some g => throw (.unsupportedGlobal g.id)
  | none => return (preparation.prepared, inputs)

/-- The state a run starts in, with all globals allocated. -/
def startState (o : InterpreterOptions) (function : FunctionId) (entry : Prepared)
    (inputs : List Value) (memory : Memory) : Except RunError RunState := do
  let site : ExecutionSite :=
    { function := function, block := entry.function.entry, instruction := 0, value := none }
  require (o.maxCallDepth ≠ 0) (RunError.callLimit site .depth 0)
  require (o.maxFrames ≠ 0) (RunError.callLimit site .frames 0)
  require (entry.valueCapacity ≤ o.maxLiveValues)
    (RunError.callLimit site .values o.maxLiveValues)
  let frame : Frame :=
    { function := function, values := frameValues entry.function inputs,
      current := entry.function.entry, predecessor := none, instruction := 0,
      allocationStart := memory.allocationCount, returnDestination := none, callSite := none }
  return { memory := memory, frames := [frame], framesCreated := 1,
           liveValues := entry.valueCapacity, steps := 0 }

/-- How a run ends: its result, or its failure, and the steps it has charged. -/
structure RunOutcome where
  result : Except Failure RunResult
  steps : Nat

/-- Run the loop from a state to its end. There is at least one step in each round, so that
the rounds the steps allow, and one to run into the limit, are all there can be. -/
def runFrom (m : Module) (env : Env) (o : InterpreterOptions) (s : RunState) : RunOutcome :=
  match runLoop env o (o.maxSteps + 1) s with
  | .ok result s => { result := .ok result, steps := s.steps }
  | .error cause s =>
      { result := .error (runtimeFailure m cause
          (s.frames.map fun f => (f.function, f.callSite)) o.maxTraceFrames)
        steps := s.steps }

/-- The source's `run_inner`, behind the verification of the module. -/
def runInner (m : Module) (arena : Nat) (capacity : List MapOp → Nat) (function : FunctionId)
    (arguments : Arguments) (o : InterpreterOptions) : RunOutcome :=
  let early (cause : RunError) : RunOutcome :=
    { result := .error { cause := cause, diagnostic := none }, steps := 0 }
  match preflight m function arguments with
  | .error cause => early cause
  | .ok (prepared, inputs) =>
      match prepareGlobals o m.globalStorage [] (Memory.new arena capacity o.memoryLimits) with
      | .error cause _ => early cause
      | .ok pointers memory =>
          match prepared.get function with
          | none => early .panic
          | some entry =>
              match startState o function entry inputs memory with
              | .error cause => early cause
              | .ok s =>
                  let env : Env :=
                    { prepared := prepared
                      functionSignatures :=
                        AssocMap.extend [] (m.declarations.map fun d => (d.id, d.signature))
                      globalPointers := pointers }
                  runFrom m env o s

/-- Run a function of a module in a fresh arena. -/
def run (m : Module) (arena : Nat) (capacity : List MapOp → Nat) (function : FunctionId)
    (arguments : Arguments) (o : InterpreterOptions) : RunOutcome :=
  let outcome := runInner m arena capacity function arguments o
  match outcome.result with
  | .ok result => { result := .ok result, steps := outcome.steps }
  | .error failure =>
      { result := .error (runFailure m failure o.maxTraceFrames), steps := outcome.steps }

end Whale
