import Whale.Builder.Session
import Whale.Frontend.Limits
import Whale.Verifier.Sources

set_option autoImplicit false

/-! # Source mappings of a function under construction

The frontend takes a checkpoint, emits, and annotates everything that is new since the checkpoint
with an original node. Mappings name instructions by position; an allocation that is inserted into
the entry block afterwards leaves a shift behind, which the next checkpoint, annotation or finish
applies. -/

namespace Whale

open Frontend (AstLimitError)

/-! ## Originals -/

/-- The number of a file, new or known. -/
def SourceMetadata.fileId (m : SourceMetadata) (name : String) : UInt32 × List SourceFile :=
  match m.files.find? (·.name = name) with
  | some file => (file.id, m.files)
  | none => (UInt32.ofNat m.files.length, m.files ++ [⟨UInt32.ofNat m.files.length, name⟩])

/-- A retained constant wrapper may be encountered again when its declaration is mapped. -/
def SourceMetadata.addFrontendOriginal (m : SourceMetadata) (note : SourceAnnotation) :
    SourceMetadata :=
  if m.originals.any (fun node => node.id = note.id) then m
  else
    match note.source with
    | none => { m with originals := m.originals ++ [⟨note.id, none⟩] }
    | some s =>
        let file := m.fileId s.file
        { m with
          files := file.2
          originals := m.originals ++
            [⟨note.id, some ⟨file.1, s.line, s.column, s.endLine, s.endColumn⟩⟩] }

/-! ## The builder -/

/-- The counters of values and blocks are 32-bit numbers; counting past them panics. -/
def FunctionBuilder.Counts (fb : FunctionBuilder) : Prop :=
  fb.mb.nextValue < 2 ^ 32 ∧ fb.mb.nextBlock < 2 ^ 32

instance (fb : FunctionBuilder) : Decidable fb.Counts :=
  inferInstanceAs (Decidable (fb.mb.nextValue < 2 ^ 32 ∧ fb.mb.nextBlock < 2 ^ 32))

/-- A builder and the work that is left for source mappings. -/
structure SourceBuilder where
  fb : FunctionBuilder
  sourceWork : Nat
  deriving DecidableEq

/-- For each block its length, the allocations at its front, and whether it is terminated. -/
structure SourceCheckpoint where
  blocks : List (BlockId × Nat × Nat × Bool)
  deriving DecidableEq

/-- The allocations at the front of a block. -/
def BasicBlock.allocas (b : BasicBlock) : Nat := (b.instructions.takeWhile isAlloca).length

def SourceMetadata.nameBytes (m : SourceMetadata) : Nat :=
  (m.files.map fun file => file.name.utf8ByteSize).sum

def SourceAnnotation.fileBytes (a : SourceAnnotation) : Nat :=
  match a.source with
  | some s => s.file.utf8ByteSize
  | none => 0

def Function.instructionCount (f : Function) : Nat :=
  (f.blocks.map fun b => b.instructions.length).sum

namespace SourceBuilder

def sources (s : SourceBuilder) : SourceMetadata := s.fb.mb.module.sources

def chargeSourceWork (s : SourceBuilder) (amount : Nat) : Except AstLimitError SourceBuilder :=
  if amount ≤ s.sourceWork then .ok { s with sourceWork := s.sourceWork - amount }
  else .error .sourceWork

def flushSourceShifts (s : SourceBuilder) : SourceBuilder :=
  { s with fb := { s.fb with mb := s.fb.mb.flushSourceShifts s.fb.func.id s.fb.func.entry } }

/-- Flush while resource failures can still be returned to the frontend. -/
def finishSourceMapping (s : SourceBuilder) : Except AstLimitError SourceBuilder :=
  if (s.fb.mb.sourceShifts.get s.fb.func.id).isSome then do
    let s ← s.chargeSourceWork s.sources.mappings.length
    return s.flushSourceShifts
  else .ok s

def sourceCheckpoint (s : SourceBuilder) :
    Except AstLimitError (SourceCheckpoint × SourceBuilder) := do
  let s ← s.chargeSourceWork s.fb.func.blocks.length
  let s ← s.chargeSourceWork (s.fb.func.instructionCount + s.sources.mappings.length)
  return (⟨s.fb.func.blocks.map fun b =>
    (b.id, b.instructions.length, b.allocas, b.terminator.isSome)⟩, s.flushSourceShifts)

end SourceBuilder

/-- What a checkpoint knows of a block; blocks it does not know were empty. -/
def SourceCheckpoint.row (before : SourceCheckpoint) (b : BlockId) : Nat × Nat × Bool :=
  ((AssocMap.extend [] before.blocks).get b).getD (0, 0, false)

/-- The instruction at the index is new. In the entry block new allocations stand behind the old
ones, and push the rest of the old instructions back. -/
def isNew (entry : Bool) (oldLen oldAllocas allocas index : Nat) : Bool :=
  if entry then
    decide (oldAllocas ≤ index ∧ index < allocas ∨ oldLen + (allocas - oldAllocas) ≤ index)
  else decide (oldLen ≤ index)

/-- The operations of a block that are new since the checkpoint. -/
def newTargets (f : Function) (before : SourceCheckpoint) (b : BasicBlock) : List SourceTarget :=
  let row := before.row b.id
  ((List.range b.instructions.length).filter
      (isNew (b.id = f.entry) row.1 row.2.1 b.allocas ·)).map (.instruction f.id b.id ·) ++
    if b.terminator.isSome ∧ row.2.2 = false then [.terminator f.id b.id] else []

namespace SourceBuilder

/-- What is new and has no mapping yet gets one. -/
def annotateSource (s : SourceBuilder) (note : SourceAnnotation)
    (before : SourceCheckpoint) : Except AstLimitError SourceBuilder := do
  let s ← s.chargeSourceWork (s.fb.func.blocks.length + s.sources.files.length)
  let s ← s.chargeSourceWork (s.fb.func.instructionCount + s.sources.mappings.length +
    s.sources.originals.length + s.sources.nameBytes + note.fileBytes)
  let s := s.flushSourceShifts
  let sources := s.sources.addFrontendOriginal note
  let existing := sources.mappings.map SourceMapping.target
  let targets := (s.fb.func.blocks.flatMap (newTargets s.fb.func before)).filter (· ∉ existing)
  let sources := { sources with
    mappings := sources.mappings ++ targets.map (⟨·, note.id⟩) }
  return { s with
    fb := { s.fb with
      mb := { s.fb.mb with
        module := { s.fb.mb.module with sources := sources }
        sourceMappedFunctions := s.fb.func.id :: s.fb.mb.sourceMappedFunctions } } }

end SourceBuilder

/-! ## Between functions -/

/-- The module and the work that is left. -/
structure SourceModule where
  mb : ModuleBuilder
  sourceWork : Nat
  deriving DecidableEq

namespace SourceModule

def chargeSourceWork (s : SourceModule) (amount : Nat) : Except AstLimitError SourceModule :=
  if amount ≤ s.sourceWork then .ok { s with sourceWork := s.sourceWork - amount }
  else .error .sourceWork

def withSources (s : SourceModule) (sources : SourceMetadata) : SourceModule :=
  { s with mb := { s.mb with module := { s.mb.module with sources := sources } } }

/-- Keep an original that no instruction is mapped to. -/
def retainSource (s : SourceModule) (note : SourceAnnotation) :
    Except AstLimitError SourceModule := do
  let sources := s.mb.module.sources
  let s ← s.chargeSourceWork (1 + sources.originals.length + sources.files.length +
    sources.nameBytes + note.fileBytes)
  return s.withSources (sources.addFrontendOriginal note)

def annotateGlobalSource (s : SourceModule) (id : GlobalId) (note : SourceAnnotation) :
    Except AstLimitError SourceModule := do
  let s ← s.retainSource note
  let sources := s.mb.module.sources
  return s.withSources { sources with mappings := sources.mappings ++ [⟨.global id, note.id⟩] }

end SourceModule

def SourceBuilder.module (s : SourceBuilder) : SourceModule := ⟨s.fb.mb, s.sourceWork⟩

def SourceBuilder.withModule (s : SourceBuilder) (m : SourceModule) : SourceBuilder :=
  ⟨{ s.fb with mb := m.mb }, m.sourceWork⟩

/-! ## Sessions -/

/-- A function under construction, with the checkpoints that were taken and not used yet. -/
structure SourceState where
  builder : SourceBuilder
  checkpoints : List SourceCheckpoint
  deriving DecidableEq

inductive SourceOp where
  | emit (op : FunctionOp)
  | checkpoint
  | annotate (note : SourceAnnotation) (k : Nat)
  | finishMapping

/-- One operation; `none` when it panics or when a resource is used up, which ends the session. -/
def SourceOp.step : SourceOp → SourceState → Option SourceState
  | .emit op, s =>
      match op.run s.builder.fb with
      | .ok _ fb =>
          if fb.Counts then some { s with builder := { s.builder with fb := fb } } else none
      | .error e fb =>
          if e = .panic then none else some { s with builder := { s.builder with fb := fb } }
  | .checkpoint, s =>
      match s.builder.sourceCheckpoint with
      | .ok (taken, builder) => some ⟨builder, taken :: s.checkpoints⟩
      | .error _ => none
  | .annotate note k, s =>
      match s.checkpoints[k]? with
      | none => none
      | some before =>
          match s.builder.annotateSource note before with
          | .ok builder => some ⟨builder, s.checkpoints.eraseIdx k⟩
          | .error _ => none
  | .finishMapping, s =>
      match s.builder.finishSourceMapping with
      | .ok builder => some { s with builder := builder }
      | .error _ => none

inductive SourceSession where
  | idle (mb : ModuleBuilder) (sourceWork : Nat)
  | building (s : SourceState)
  deriving DecidableEq

inductive SessionOp where
  | module (op : ModuleOp)
  | beginFunction (name : String) (params : List (String × Ty)) (retTy : Ty)
  | beginDeclaredFunction (id : FunctionId) (names : List String)
  | source (op : SourceOp)
  | finish

def SessionOp.step : SessionOp → SourceSession → Option SourceSession
  | .module op, .idle mb work =>
      match op.run mb with
      | .ok _ mb => some (.idle mb work)
      | .error e mb => if e = .panic then none else some (.idle mb work)
  | .beginFunction name params retTy, .idle mb work =>
      let fb := mb.beginFunction name params retTy
      if fb.Counts then some (.building ⟨⟨fb, work⟩, []⟩) else none
  | .beginDeclaredFunction id names, .idle mb work =>
      match mb.beginDeclaredFunction id names with
      | .ok fb => if fb.Counts then some (.building ⟨⟨fb, work⟩, []⟩) else none
      | .error _ => some (.idle mb work)
  | .source op, .building s => (op.step s).map .building
  | .finish, .building s => some (.idle s.builder.fb.finish s.builder.sourceWork)
  | _, _ => none

end Whale
