import Whale.Lib.Span
import Whale.Linker.Relocation

set_option autoImplicit false

/-! # Writing executables

A minimal static Linux AMD64 executable: the ELF header, the program headers and the
relocated payloads, each at its place. -/

namespace Whale.Linker

inductive LinkErrorKind where
  | input
  | selection (cause : SelectionError)
  | symbols (cause : ResolveError)
  | entry
  | layout (cause : LayoutIssue)
  | relocation
  /-- An index that is not there. -/
  | panic
  deriving DecidableEq

structure LinkError where
  kind : LinkErrorKind
  contexts : List Context
  inputCause : Option ObjectError
  relocationCause : Option RelocationError
  deriving DecidableEq

def LinkError.new (kind : LinkErrorKind) : LinkError where
  kind := kind
  contexts := []
  inputCause := none
  relocationCause := none

/-- The contexts of the diagnostic of a relocation error. -/
def RelocationError.contexts (e : RelocationError) : List Context :=
  (e.object.map Context.input).toList ++ (e.sectionIndex.map Context.section).toList ++
    (e.offset.map Context.sectionOffset).toList

def LinkError.ofRelocation (cause : RelocationError) : LinkError :=
  { LinkError.new .relocation with
    contexts := cause.contexts, relocationCause := some cause }

/-- The error for an invalid object at `index` of the inputs. -/
def LinkError.ofInput (cause : ObjectError) (index : Nat) : LinkError :=
  { LinkError.new .input with
    contexts := cause.contexts ++ [.input index], inputCause := some cause }

/-! ## The file -/

/-- Bytes to write at a position of the output. -/
abbrev Write := Nat × List UInt8

def put16 (pos value : Nat) : Write := (pos, leBytes 2 value)

def put32 (pos value : Nat) : Write := (pos, leBytes 4 value)

def put64 (pos value : Nat) : Write := (pos, leBytes 8 value)

def elfIdent : List UInt8 := [0x7f, 0x45, 0x4c, 0x46, 2, 1, 1, 0, 0, 0, 0, 0, 0, 0, 0, 0]

/-- The ELF header of an executable with `segments` load segments. -/
def headerWrites (address segments : Nat) : List Write :=
  [(0, elfIdent), put16 16 2, put16 18 62, put32 20 1, put64 24 address, put64 32 64,
    put16 52 64, put16 54 56, put16 56 ((segments + 1) % 2 ^ 16)]

/-- The program header of a load segment. -/
def segmentWrites (pos : Nat) (s : Segment) : List Write :=
  [put32 pos 1, put32 (pos + 4) s.flags, put64 (pos + 8) s.offset, put64 (pos + 16) s.address,
    put64 (pos + 24) s.address, put64 (pos + 32) s.fileSize, put64 (pos + 40) s.memorySize,
    put64 (pos + 48) pageSize]

/-- The program headers of the load segments, from position `pos` on. -/
def segmentsWrites (pos : Nat) : List Segment → List Write
  | [] => []
  | s :: segments => segmentWrites pos s ++ segmentsWrites (pos + 56) segments

/-- The program header of the stack, which is not executable. -/
def stackWrites (pos : Nat) : List Write :=
  [put32 pos 0x6474e551, put32 (pos + 4) 6, put64 (pos + 48) 16]

/-- The payloads of the sections that have one in the file. -/
def payloadWrites (sections : List SectionPlacement) (payloads : Payloads) :
    Except LinkError (List Write) :=
  (sections.filter (·.kind ≠ .bss)).mapM fun p => do
    let payload ← orThrow (payloads.at? p.objectIndex p.sectionIndex) (LinkError.new .panic)
    return (p.fileOffset, payload)

/-- Everything that is written: headers, program headers and payloads. -/
def emitWrites (segments : List Segment) (address : Nat) (sections : List Write) : List Write :=
  headerWrites address segments.length ++ segmentsWrites 64 segments ++
    stackWrites (64 + segments.length * 56) ++ sections

/-- The executable with everything in its place. -/
def emit (layout : Layout) (segments : List Segment) (address : Nat) (payloads : Payloads) :
    Except LinkError (List UInt8) := do
  let sections ← payloadWrites layout.sections payloads
  return patchAll (List.replicate layout.fileSize 0) (emitWrites segments address sections)

/-- The object, the section and the offset in it of the entry symbol. -/
def entryPoint (objects : List ObjectFile) (symbols : SymbolTable) (entry : String) :
    Except LinkError (Nat × Nat × Nat) := do
  let selected ← orThrow (symbols.symbols.get (.global entry)) (LinkError.new .entry)
  let owner ← orThrow selected.objectIndex (LinkError.new .entry)
  let sectionIndex ← orThrow selected.sectionIndex (LinkError.new .entry)
  let source ← orThrow (objects[owner]? >>= (·.sections[sectionIndex]?)) (LinkError.new .panic)
  require (¬ (source.kind ≠ .text ∨ selected.value.toNat ≥ source.data.length))
    (LinkError.new .entry)
  return (owner, sectionIndex, selected.value.toNat)

def writeExecutable (objects : List ObjectFile) (entry : String) (maxBytes : Nat) :
    Except LinkError (List UInt8) := do
  require (entry ≠ "") (LinkError.new .entry)
  let symbols ← (resolve objects).mapError fun cause => LinkError.new (.symbols cause)
  let (owner, sectionIndex, value) ← entryPoint objects symbols entry
  let (layout, segments) ← (executableLayout objects maxBytes).mapError fun cause =>
    LinkError.new (.layout cause)
  let base ← orThrow (layout.address owner sectionIndex) (LinkError.new .panic)
  let address ← orThrow (checkedAdd base value) (LinkError.new .entry)
  let payloads ← (applyRelocations objects layout maxBytes).mapError LinkError.ofRelocation
  emit layout segments address payloads

/-! ## A link -/

/-- The checks on the input at `index`. -/
def checkLinkInput (e : LinkInput × Nat) : Except LinkError Unit :=
  match e.1 with
  | .object o =>
      match o.target.validateAmd64 with
      | .error _ => .error (LinkError.ofInput (ObjectError.new "validate" .invalidTarget) e.2)
      | .ok () =>
          match o.validate with
          | .ok () => .ok ()
          | .error cause => .error (LinkError.ofInput cause e.2)
  | .archive members =>
      members.forM fun m => match m.object.validate with
        | .ok () => .ok ()
        | .error _ => .error (LinkError.new .input)

/-- Link the inputs to an executable of at most `maxBytes` bytes. -/
def linkWithLimit (inputs : List LinkInput) (entry : String) (maxBytes : Nat) :
    Except LinkError (List UInt8) := do
  inputs.zipIdx.forM checkLinkInput
  let objects ← (select inputs entry maxBytes).mapError fun cause =>
    LinkError.new (.selection cause)
  -- Resolve first to preserve the public unresolved-reference diagnostic boundary.
  let _ ← (resolve objects).mapError fun cause => LinkError.new (.symbols cause)
  writeExecutable objects entry maxBytes

end Whale.Linker
