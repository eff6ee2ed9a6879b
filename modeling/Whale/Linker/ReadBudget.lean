import Whale.Linker.Archive
import Whale.Linker.Link
import Whale.Object.Elf.Read

set_option autoImplicit false

/-! # The inputs of a linker

Objects and archives that are loaded from bytes share the limits of a linker: what is read is
taken from what remains. A call works on a copy of the budget, which is kept when it succeeds. -/

namespace Whale

/-- The limit on a resource of the reader. -/
def ObjectReadLimits.get (l : ObjectReadLimits) : ObjectResource → Nat
  | .inputBytes => l.maxInputBytes
  | .sections => l.maxSections
  | .programHeaders => l.maxProgramHeaders
  | .symbols => l.maxSymbols
  | .relocations => l.maxRelocations
  | .payloadBytes => l.maxPayloadBytes
  | .stringBytes => l.maxStringBytes
  | .work => l.maxWork
  -- The reader has no output.
  | .outputBytes => 0

def ObjectReadLimits.set (l : ObjectReadLimits) (r : ObjectResource) (n : Nat) : ObjectReadLimits :=
  match r with
  | .inputBytes => { l with maxInputBytes := n }
  | .sections => { l with maxSections := n }
  | .programHeaders => { l with maxProgramHeaders := n }
  | .symbols => { l with maxSymbols := n }
  | .relocations => { l with maxRelocations := n }
  | .payloadBytes => { l with maxPayloadBytes := n }
  | .stringBytes => { l with maxStringBytes := n }
  | .work => { l with maxWork := n }
  | .outputBytes => l

namespace Elf

def ObjectReadUsage.get (u : ObjectReadUsage) : ObjectResource → Nat
  | .inputBytes => u.inputBytes
  | .sections => u.sections
  | .programHeaders => u.programHeaders
  | .symbols => u.symbols
  | .relocations => u.relocations
  | .payloadBytes => u.payloadBytes
  | .stringBytes => u.stringBytes
  | .work => u.work
  | .outputBytes => 0

end Elf

namespace Linker

open Elf (ObjectReadUsage readElfWithUsage)

/-! ## Errors -/

def inputError : ReadAbort → LinkError
  | .error cause => { LinkError.new .input with contexts := cause.contexts, inputCause := some cause }
  | .panic => LinkError.new .panic

def LinkError.context (e : LinkError) (context : Context) : LinkError :=
  { e with contexts := e.contexts ++ [context] }

/-- The error of a call for an error of the parser of archives. -/
def archiveError : ArchiveError → LinkError
  | .nameBudget => inputError (.error (ObjectError.limit "read" .stringBytes))
  | .workBudget => inputError (.error (ObjectError.limit "read" .work))
  | .panic => LinkError.new .panic
  | _ => LinkError.new .input

/-- An error in the member `name` of an archive. -/
def memberError (name : String) (e : ReadAbort) : LinkError :=
  (inputError e).context (.object "archive" (some name))

/-- `x` with its errors turned into others. -/
def mapErr {ε ε' σ α : Type} (f : ε → ε') (x : EStateM ε σ α) : EStateM ε' σ α := fun s =>
  match x s with
  | .ok a t => .ok a t
  | .error e t => .error (f e) t

/-- Run `x` on a copy of the state, which is kept when `x` succeeds. -/
def onCopy {ε σ α : Type} (x : EStateM ε σ α) : EStateM ε σ α := fun s =>
  match x s with
  | .ok a next => .ok a next
  | .error e _ => .error e s

/-! ## The budget -/

structure ReadBudget where
  remaining : ObjectReadLimits
  deriving DecidableEq

namespace ReadBudget

abbrev Charging := EStateM ReadAbort ReadBudget

def subtract (r : ObjectResource) (amount : Nat) : Charging Unit := do
  let b ← get
  let left ← orThrow (checkedSub (b.remaining.get r) amount)
    (ReadAbort.error (ObjectError.limit "read" r))
  set (ReadBudget.mk (b.remaining.set r left))

def input (bytes : Nat) : Charging Unit := subtract .inputBytes bytes

/-- The resources of a read, without the bytes of the input. -/
def consumed : List ObjectResource :=
  [.sections, .programHeaders, .symbols, .relocations, .payloadBytes, .stringBytes, .work]

def consume (u : ObjectReadUsage) : Charging Unit := consumed.forM fun r => subtract r (u.get r)

/-- The limits that are handed to the reader. The bytes were already charged. -/
def limitsFor (b : ReadBudget) (bytes : List UInt8) : ObjectReadLimits :=
  { b.remaining with maxInputBytes := bytes.length }

def member (bytes : List UInt8) : Charging ObjectFile := do
  let b ← get
  let (object, usage) ← orRaise (readElfWithUsage bytes (b.limitsFor bytes)) id
  consume usage
  return object

def object (bytes : List UInt8) : EStateM LinkError ReadBudget ObjectFile := onCopy do
  mapErr inputError (input bytes.length)
  mapErr inputError (member bytes)

/-- The limits that are handed to the parser of archives. -/
def parseLimits (b : ReadBudget) : Archive.Limits where
  maxNames := 1024 * 1024
  maxStrings := b.remaining.maxStringBytes
  maxWork := b.remaining.maxWork

/-- The members of an archive, when its names and the work for them are paid. -/
def openArchive (bytes : List UInt8) : EStateM LinkError ReadBudget (List ArchiveMember) := do
  mapErr inputError (input bytes.length)
  let b ← get
  let (members, names, work) ← orRaise (Archive.parseArchive bytes b.parseLimits) archiveError
  mapErr inputError (subtract .stringBytes names)
  mapErr inputError (subtract .work work)
  return members

def readMember (bytes : List UInt8) (m : ArchiveMember) :
    EStateM LinkError ReadBudget ArchiveObject := do
  let object ← mapErr (memberError m.name) (member (m.bytes.bytes bytes))
  return { name := m.name, object := object }

def archive (bytes : List UInt8) : EStateM LinkError ReadBudget (List ArchiveObject) := onCopy do
  let members ← openArchive bytes
  members.mapM (readMember bytes)

end ReadBudget

/-- The objects of an archive, under a budget of its own. -/
def readObjectsWithLimits (bytes : List UInt8) (limits : ObjectReadLimits) :
    Except LinkError (List ArchiveObject) :=
  match ReadBudget.archive bytes ⟨limits⟩ with
  | .ok members _ => .ok members
  | .error e _ => .error e

/-! ## The linker -/

end Linker

open Linker in
structure Linker where
  inputs : List LinkInput
  entry : String
  readBudget : ReadBudget

namespace Linker

def withReadLimits (limits : ObjectReadLimits) : Linker where
  inputs := []
  entry := "_start"
  readBudget := ⟨limits⟩

def addObject (object : ObjectFile) : EStateM LinkError Linker Unit :=
  modify fun l => { l with inputs := l.inputs ++ [.object object] }

/-- A new input that `x` reads. -/
def addInput (x : EStateM LinkError ReadBudget LinkInput) : EStateM LinkError Linker Unit := do
  let l ← get
  match x l.readBudget with
  | .ok input b => set { l with readBudget := b, inputs := l.inputs ++ [input] }
  | .error e b => do
      set { l with readBudget := b }
      throw (e.context (.input l.inputs.length))

def addObjectBytes (bytes : List UInt8) : EStateM LinkError Linker Unit :=
  addInput (LinkInput.object <$> ReadBudget.object bytes)

def addArchive (bytes : List UInt8) : EStateM LinkError Linker Unit :=
  addInput (LinkInput.archive <$> ReadBudget.archive bytes)

def linkChecked (l : Linker) : Except LinkError (List UInt8) :=
  linkWithLimit l.inputs l.entry (256 * 1024 * 1024)

/-! ## Calls -/

inductive Call where
  | object (object : ObjectFile)
  | objectBytes (bytes : List UInt8)
  | archive (bytes : List UInt8)

def call : Call → EStateM LinkError Linker Unit
  | .object o => addObject o
  | .objectBytes bytes => addObjectBytes bytes
  | .archive bytes => addArchive bytes

/-- The linker behind a call, whether it succeeded or not. -/
def after (l : Linker) (c : Call) : Linker :=
  match call c l with
  | .ok _ t => t
  | .error _ t => t

def run (l : Linker) (calls : List Call) : Linker := calls.foldl after l

/-- The calls that succeed. -/
def succeeded : Linker → List Call → List Call
  | _, [] => []
  | l, c :: calls =>
      match call c l with
      | .ok _ t => c :: succeeded t calls
      | .error _ t => succeeded t calls

end Linker

end Whale
