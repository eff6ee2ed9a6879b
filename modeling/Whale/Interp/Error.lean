import Whale.IR.Budget
import Whale.IR.Module
import Whale.Interp.Integer

set_option autoImplicit false

/-! # Options, errors and diagnostics of the interpreter

A run is bounded by its options. A failed run has a cause and, when original source
metadata or a chain of callers is there to show, a diagnostic. Failing host allocations are
not modelled. -/

namespace Whale

/-- Limits verification as well as executed instructions and terminators. -/
structure InterpreterOptions where
  maxSteps : Nat
  /-- Maximum simultaneously active invocation frames, including the entry. -/
  maxCallDepth : Nat
  /-- Maximum invocation frames created over the entire run. -/
  maxFrames : Nat
  /-- Reserved value slots across all simultaneously active frames. -/
  maxLiveValues : Nat
  /-- Retained caller edges in failures. -/
  maxTraceFrames : Nat
  irLimits : IrLimits
  memoryLimits : MemoryLimits
  deriving DecidableEq

def InterpreterOptions.default : InterpreterOptions where
  maxSteps := 1000000
  maxCallDepth := 256
  maxFrames := 100000
  maxLiveValues := 1000000
  maxTraceFrames := 64
  irLimits := .default
  memoryLimits := .default

/-- An instruction index is zero-based; the terminator follows the instructions. -/
structure ExecutionSite where
  function : FunctionId
  block : BlockId
  instruction : Nat
  value : Option ValueId
  deriving DecidableEq

inductive CallResource where
  | depth
  | frames
  | values
  deriving DecidableEq

/-- Why a run has no result. `panic` stands for `unreachable!`, `expect`, `unwrap` and missing
keys. -/
inductive RunError where
  | unknownFunction (function : FunctionId)
  | unsupportedGlobal (global : GlobalId)
  | globalMemory (global : GlobalId) (reason : MemoryTrap)
  | globalMemoryLimit (global : GlobalId) (resource : MemoryResource) (limit : Nat)
  | unsupportedSignature (function : FunctionId)
  | argumentCount (expected got : Nat)
  | argumentType (index : Nat) (expected : Ty)
  | unsupportedInstruction (site : ExecutionSite) (operation : String)
  | stepLimit (site : ExecutionSite) (limit : Nat)
  | memoryLimit (site : ExecutionSite) (resource : MemoryResource) (limit : Nat)
  | callLimit (site : ExecutionSite) (resource : CallResource) (limit : Nat)
  | trap (site : ExecutionSite) (reason : TrapReason) (steps : Nat)
  | panic
  deriving DecidableEq

namespace RunError

/-- A limit of the options was reached. -/
def isLimit : RunError → Bool
  | globalMemoryLimit .. | stepLimit .. | memoryLimit .. | callLimit .. => true
  | _ => false

def runtimeSite : RunError → Option ExecutionSite
  | trap site .. | stepLimit site _ | memoryLimit site .. | callLimit site .. => some site
  | _ => none

end RunError

/-! ## Diagnostics -/

def maxRuntimeTraceFrames : Nat := 256

def maxRuntimeDiagnosticSourceBytes : Nat := 1024 * 1024

/-- One active caller edge. -/
structure RuntimeCallFrame where
  caller : FunctionId
  callee : FunctionId
  site : ExecutionSite
  original : Option OriginalLocation
  deriving DecidableEq

structure RuntimeDiagnostic where
  site : Option ExecutionSite
  global : Option GlobalId
  original : Option OriginalLocation
  /-- Outermost caller first, within the retained tail. -/
  calls : List RuntimeCallFrame
  omittedCallFrames : Nat
  omittedSourceDetails : Nat
  deriving DecidableEq

structure SourceDetailBudget where
  remaining : Nat
  omitted : Nat

def SourceDetailBudget.new : SourceDetailBudget where
  remaining := maxRuntimeDiagnosticSourceBytes
  omitted := 0

/-- The location of a target, with as much source detail as the budget allows. -/
def SourceDetailBudget.location (b : SourceDetailBudget) (m : Module) (target : SourceTarget) :
    Option OriginalLocation × SourceDetailBudget :=
  match m.sources.original target with
  | none => (none, b)
  | some original =>
      match original.span with
      | none => (some { original := original.id, source := none }, b)
      | some span =>
          match m.sources.files.find? fun f => f.id = span.file with
          | none => (some { original := original.id, source := none }, b)
          | some file =>
              if file.name.utf8ByteSize > b.remaining then
                (some { original := original.id, source := none },
                  { b with omitted := b.omitted + 1 })
              else
                (some { original := original.id, source := some (file.name, span) },
                  { b with remaining := b.remaining - file.name.utf8ByteSize })

def executionSource (m : Module) (site : ExecutionSite) (budget : SourceDetailBudget) :
    Option OriginalLocation × SourceDetailBudget :=
  match m.functions.find? fun f => f.id = site.function with
  | none => (none, budget)
  | some f =>
      match f.blocks.find? fun b => b.id = site.block with
      | none => (none, budget)
      | some block =>
          if site.instruction = block.instructions.length then
            budget.location m (.terminator site.function site.block)
          else
            budget.location m (.instruction site.function site.block site.instruction)

/-- A failed run. -/
structure Failure where
  cause : RunError
  diagnostic : Option RuntimeDiagnostic
  deriving DecidableEq

/-- The callees of the active calls and their call sites, innermost first. -/
abbrev CallChain := List (FunctionId × Option ExecutionSite)

/-- The retained caller edges, innermost first; a nonentry frame records its caller. -/
def callFrames (m : Module) : CallChain → SourceDetailBudget →
    List RuntimeCallFrame × SourceDetailBudget
  | [], budget => ([], budget)
  | (_, none) :: chain, budget => callFrames m chain budget
  | (callee, some site) :: chain, budget =>
      let (original, budget) := executionSource m site budget
      let (calls, budget) := callFrames m chain budget
      ({ caller := site.function, callee := callee, site := site, original := original } :: calls,
        budget)

/-- `chain` holds the frames of the failed run, innermost first, the entry last. -/
def runtimeFailure (m : Module) (cause : RunError) (chain : CallChain) (traceLimit : Nat) :
    Failure :=
  match cause.runtimeSite with
  | none => { cause := cause, diagnostic := none }
  | some site =>
      let (original, budget) := executionSource m site .new
      let callerCount := chain.length - 1
      if original = none ∧ callerCount = 0 then { cause := cause, diagnostic := none }
      else
        let retained := min callerCount (min traceLimit maxRuntimeTraceFrames)
        let (calls, budget) := callFrames m (chain.dropLast.take retained) budget
        { cause := cause
          diagnostic := some
            { site := some site, global := none, original := original, calls := calls.reverse,
              omittedCallFrames := callerCount - retained,
              omittedSourceDetails := budget.omitted } }

/-- The failure of a run that has no active frame, or none left to show. -/
def runFailure (m : Module) (failure : Failure) (traceLimit : Nat) : Failure :=
  if failure.diagnostic.isSome then failure
  else
    let global := match failure.cause with
      | .globalMemory global _ | .globalMemoryLimit global .. | .unsupportedGlobal global =>
          some global
      | _ => none
    match global with
    | none => runtimeFailure m failure.cause [] traceLimit
    | some global =>
        match SourceDetailBudget.new.location m (.global global) with
        | (some original, budget) =>
            { cause := failure.cause
              diagnostic := some
                { site := none, global := some global, original := some original, calls := [],
                  omittedCallFrames := 0, omittedSourceDetails := budget.omitted } }
        | (none, _) => runtimeFailure m failure.cause [] traceLimit

@[simp] theorem runtimeFailure_cause (m : Module) (cause : RunError) (chain : CallChain)
    (traceLimit : Nat) : (runtimeFailure m cause chain traceLimit).cause = cause := by
  unfold runtimeFailure
  split
  · rfl
  · dsimp only
    split <;> rfl

@[simp] theorem runFailure_cause (m : Module) (failure : Failure) (traceLimit : Nat) :
    (runFailure m failure traceLimit).cause = failure.cause := by
  unfold runFailure
  split
  · rfl
  · dsimp only
    split
    · exact runtimeFailure_cause ..
    · split
      · rfl
      · exact runtimeFailure_cause ..

end Whale
