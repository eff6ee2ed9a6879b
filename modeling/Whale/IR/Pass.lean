import Whale.IR.Budget
import Whale.IR.Module

set_option autoImplicit false

/-! # Verified, transactional pass boundaries

A pass is whatever function the caller supplies; the runner verifies the module before and
after it, compares its report with what it did, and restores the module when anything fails.
Nothing here depends on what the verifier checks, so it is a parameter. -/

namespace Whale

/-! ## Analyses -/

inductive AnalysisKind where
  | cfg
  | values
  | effects
  deriving DecidableEq

structure Invalidates where
  cfg : Bool
  values : Bool
  effects : Bool
  deriving DecidableEq

namespace Invalidates

def all : Invalidates where
  cfg := true
  values := true
  effects := true

def default : Invalidates where
  cfg := false
  values := false
  effects := false

end Invalidates

/-- `identity` is the allocation the state and its caches share. -/
structure AnalysisState where
  identity : Nat
  cfgEpoch : Nat
  valuesEpoch : Nat
  effectsEpoch : Nat
  deriving DecidableEq

namespace AnalysisState

def epoch (s : AnalysisState) : AnalysisKind → Nat
  | .cfg => s.cfgEpoch
  | .values => s.valuesEpoch
  | .effects => s.effectsEpoch

/-- The next epoch of one analysis. -/
def next (epoch : Nat) (invalid : Bool) : Except String Nat :=
  if invalid then orThrow (checkedAdd epoch 1) "analysis epoch exhausted" else .ok epoch

def invalidate (s : AnalysisState) (which : Invalidates) : Except String AnalysisState := do
  let cfgEpoch ← next s.cfgEpoch which.cfg
  let valuesEpoch ← next s.valuesEpoch which.values
  let effectsEpoch ← next s.effectsEpoch which.effects
  return { s with cfgEpoch := cfgEpoch, valuesEpoch := valuesEpoch, effectsEpoch := effectsEpoch }

end AnalysisState

/-- A cache belongs to one pair of a module and an analysis state. -/
structure AnalysisCache (α : Type) where
  identity : Nat
  kind : AnalysisKind
  epoch : Nat
  value : α

namespace AnalysisCache

variable {α : Type}

def new (kind : AnalysisKind) (state : AnalysisState) (value : α) : AnalysisCache α where
  identity := state.identity
  kind := kind
  epoch := state.epoch kind
  value := value

def get (cache : AnalysisCache α) (state : AnalysisState) : Option α :=
  if cache.identity = state.identity ∧ cache.epoch = state.epoch cache.kind then some cache.value
  else none

end AnalysisCache

/-! ## Running a pass -/

structure PassChange where
  changed : Bool
  invalidates : Invalidates
  deriving DecidableEq

/-- What one run of a pass does: the module it leaves, and its report or failure. -/
structure Pass where
  name : String
  run : Module → Except String PassChange × Module

inductive PassStage where
  | before
  | transform
  | after
  | contract
  deriving DecidableEq

inductive PassFailure (VerifyError : Type) where
  | verification (e : VerifyError)
  | message (text : String)

structure PassError (VerifyError : Type) where
  pass : String
  target : String
  stage : PassStage
  cause : PassFailure VerifyError

/-- A module under transformation and the analyses of it. -/
structure Session where
  module : Module
  analyses : AnalysisState
  deriving DecidableEq

section

variable {VerifyError : Type} (verify : Module → IrLimits → Except VerifyError Unit)

/-- The part of the runner that a failure undoes. -/
def runChecked (pass : Pass) (limits : IrLimits) (before : Module) :
    EStateM (PassError VerifyError) Session PassChange := do
  let error (stage : PassStage) (cause : PassFailure VerifyError) : PassError VerifyError :=
    { pass := pass.name, target := before.target, stage := stage, cause := cause }
  let module := (pass.run before).2
  modify fun s => { s with module := module }
  let report ← orRaise (pass.run before).1 fun e => error .transform (.message e)
  orRaise (verify module limits) fun e => error .after (.verification e)
  let changed := decide (module ≠ before)
  require (¬ (report.changed ≠ changed ∨ changed = true ∧ report.invalidates ≠ .all ∨
      changed = false ∧ report.invalidates ≠ .default))
    (error .contract (.message
      "report must match the mutation and explicitly invalidate all analyses on change"))
  let s ← get
  let analyses ← orRaise (s.analyses.invalidate report.invalidates) fun e =>
    error .contract (.message e)
  set { s with analyses := analyses }
  return report

/-- Always verify before and after; on a failure restore the original module. -/
def runPassWithLimits (pass : Pass) (limits : IrLimits) :
    EStateM (PassError VerifyError) Session PassChange := fun s =>
  match verify s.module limits with
  | .error e =>
      .error { pass := pass.name, target := s.module.target, stage := .before
               cause := .verification e } s
  | .ok _ =>
      match runChecked verify pass limits s.module s with
      | .ok report s' => .ok report s'
      | .error e s' => .error e { s' with module := s.module }

/-! ## What one call does -/

variable {verify}

variable {pass : Pass} {limits : IrLimits} {s s' : Session}

/-- One call of the runner. -/
structure Call where
  pass : Pass
  limits : IrLimits

variable (verify)

/-- The session one call leaves, whatever becomes of the call. -/
def Call.after (call : Call) (s : Session) : Session :=
  match runPassWithLimits verify call.pass call.limits s with
  | .ok _ s' => s'
  | .error _ s' => s'

variable {verify}

end

end Whale
