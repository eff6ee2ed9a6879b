import Whale.Lib.Bytes
import Whale.Object.Object

set_option autoImplicit false

/-! # Layouts

Addresses and file offsets of the sections of a link. `Layout.compute` puts the sections one
behind the other in input order. `executableLayout` also forms the load segments: the text
segment with the headers in front, read-only data, and the writable segment, in which BSS comes
last. -/

namespace Whale.Linker

def imageBase : Nat := 0x400000

def pageSize : Nat := 4096

/-- Lower 48-bit user range, excluding its final guard page. -/
def userEnd : Nat := 2 ^ 47 - pageSize

structure SectionPlacement where
  objectIndex : Nat
  sectionIndex : Nat
  kind : SectionKind
  align : Nat
  fileOffset : Nat
  memoryAddress : Nat
  fileSize : Nat
  memorySize : Nat
  deriving DecidableEq

structure Layout where
  /-- Memory addresses indexed by input object and section. -/
  sectionOffsets : List (List Nat)
  /-- Logical sizes in input object and section order. -/
  sectionSizes : List Nat
  sections : List SectionPlacement
  baseAddress : Nat
  fileSize : Nat
  memorySize : Nat
  deriving DecidableEq

/-- The address of a section. -/
def Layout.address (layout : Layout) (objectIndex sectionIndex : Nat) : Option Nat :=
  layout.sectionOffsets[objectIndex]? >>= (·[sectionIndex]?)

/-! ## Placement in input order -/

inductive ComputeIssue where
  | invalidTarget (input : Nat)
  | alignment (input sectionIndex : Nat)
  | sectionSize
  | memoryAlignment (input sectionIndex : Nat)
  | memorySize (input sectionIndex : Nat)
  | fileAlignment (input sectionIndex : Nat)
  | fileSize (input sectionIndex : Nat)
  deriving DecidableEq

/-- The variables of the loop over the sections of one object. -/
structure Computing where
  layout : Layout
  memoryEnd : Nat
  offsets : List Nat

/-- The file cursor behind a section at the offset. -/
def fileEnd (s : Section) (fileOffset fileSize : Nat) : Option Nat :=
  if s.kind = .bss then some fileSize else checkedAdd fileOffset s.fileSize

/-- Place section `e.2` of the object: BSS consumes memory but never advances the file
cursor. -/
def computeSection (objectIndex : Nat) (c : Computing) (e : Section × Nat) :
    Except ComputeIssue Computing := do
  let align := max e.1.align.toNat 1
  require (isPowerOfTwo align = true) (ComputeIssue.alignment objectIndex e.2)
  let memorySize ← orThrow e.1.memorySize ComputeIssue.sectionSize
  let memoryAddress ← orThrow (checkedAlignUp c.memoryEnd align)
    (ComputeIssue.memoryAlignment objectIndex e.2)
  let memoryEnd ← orThrow (checkedAdd memoryAddress memorySize)
    (ComputeIssue.memorySize objectIndex e.2)
  let fileOffset ← orThrow (checkedAlignUp c.layout.fileSize align)
    (ComputeIssue.fileAlignment objectIndex e.2)
  let fileSize ← orThrow (fileEnd e.1 fileOffset c.layout.fileSize)
    (ComputeIssue.fileSize objectIndex e.2)
  return {
    layout := { c.layout with
      fileSize := fileSize
      sectionSizes := c.layout.sectionSizes ++ [memorySize]
      sections := c.layout.sections ++
        [{ objectIndex := objectIndex, sectionIndex := e.2, kind := e.1.kind, align := align
           fileOffset := fileOffset, memoryAddress := memoryAddress, fileSize := e.1.fileSize
           memorySize := memorySize }] }
    memoryEnd := memoryEnd
    offsets := c.offsets ++ [memoryAddress] }

/-- The sections of one object. -/
def computeObject (state : Layout × Nat) (e : ObjectFile × Nat) :
    Except ComputeIssue (Layout × Nat) := do
  e.1.target.validateAmd64.mapError fun _ => ComputeIssue.invalidTarget e.2
  let placed ← e.1.sections.zipIdx.foldlM (computeSection e.2)
    { layout := state.1, memoryEnd := state.2, offsets := [] }
  return ({ placed.layout with
    sectionOffsets := placed.layout.sectionOffsets ++ [placed.offsets] }, placed.memoryEnd)

/-- Deterministic section placement. Zero object alignment means one. -/
def Layout.compute (objects : List ObjectFile) (baseAddress : Nat) :
    Except ComputeIssue Layout := do
  let layout : Layout :=
    { sectionOffsets := [], sectionSizes := [], sections := [], baseAddress := baseAddress
      fileSize := 0, memorySize := 0 }
  let (layout, memoryEnd) ← objects.zipIdx.foldlM computeObject (layout, baseAddress)
  return { layout with memorySize := memoryEnd - baseAddress }

/-! ## Executable placement -/

structure Segment where
  flags : Nat
  offset : Nat
  address : Nat
  fileSize : Nat
  memorySize : Nat
  deriving DecidableEq

inductive LayoutIssue where
  | invalidTarget
  | invalidObject (cause : ObjectError)
  | alignmentOverflow
  | addressOverflow
  | sectionSize
  | memoryOverflow
  | outputLimit
  | virtualAddressOverflow
  | addressSpace
  deriving DecidableEq

/-- The sections of one kind, in input order, with their object and section indices. -/
def sectionsOf (objects : List ObjectFile) (kind : SectionKind) : List ((Nat × Nat) × Section) :=
  objects.zipIdx.flatMap fun o =>
    (o.1.sections.zipIdx.filter fun s => s.1.kind = kind).map fun s => ((o.2, s.2), s.1)

def hasKind (objects : List ObjectFile) (kinds : List SectionKind) : Bool :=
  objects.any fun o => o.sections.any fun s => decide (s.kind ∈ kinds)

/-- The variables of the loop over the sections of a segment. -/
structure Placing where
  offsets : List (List Nat)
  sections : List SectionPlacement
  cursor : Nat
  fileEnd : Nat

/-- Place one section behind the cursor. -/
def placeSection (kind : SectionKind) (p : Placing) (e : (Nat × Nat) × Section) :
    Except LayoutIssue Placing := do
  let start ← orThrow (checkedAdd imageBase p.cursor) LayoutIssue.addressOverflow
  let align := max e.2.align.toNat 1
  let va ← orThrow (checkedAlignUp start align) LayoutIssue.alignmentOverflow
  let cursor := va - imageBase
  let size ← orThrow e.2.memorySize LayoutIssue.sectionSize
  let stop ← orThrow (checkedAdd cursor size) LayoutIssue.memoryOverflow
  return {
    offsets := p.offsets.modify e.1.1 (·.set e.1.2 va)
    sections := p.sections ++
      [{ objectIndex := e.1.1, sectionIndex := e.1.2, kind := kind, align := align
         fileOffset := cursor, memoryAddress := va, fileSize := e.2.fileSize
         memorySize := size }]
    cursor := stop
    fileEnd := if kind = .bss then p.fileEnd else stop }

/-- The sections of one kind. -/
def placeKind (objects : List ObjectFile) (p : Placing) (kind : SectionKind) :
    Except LayoutIssue Placing :=
  (sectionsOf objects kind).foldlM (placeSection kind) p

/-- The file offset of a segment: the text segment starts with the headers. -/
def segmentStart (flags fileSize : Nat) : Except LayoutIssue Nat :=
  if flags = 5 then .ok 0
  else orThrow (checkedAlignUp fileSize pageSize) LayoutIssue.alignmentOverflow

/-- One load segment: its sections and, behind them, the checks on their extent. -/
def placeSegment (objects : List ObjectFile) (maxBytes headerSize : Nat)
    (state : Layout × List Segment) (group : List SectionKind × Nat) :
    Except LayoutIssue (Layout × List Segment) :=
  let (layout, segments) := state
  let (kinds, flags) := group
  if flags = 5 ∨ hasKind objects kinds = true then do
    let start ← segmentStart flags layout.fileSize
    let cursor := if flags = 5 then headerSize else start
    let placed ← kinds.foldlM (placeKind objects)
      { offsets := layout.sectionOffsets, sections := layout.sections, cursor := cursor
        fileEnd := cursor }
    require (placed.fileEnd ≤ maxBytes) LayoutIssue.outputLimit
    let memoryEnd ← orThrow (checkedAdd imageBase placed.cursor) LayoutIssue.virtualAddressOverflow
    require (memoryEnd ≤ userEnd) LayoutIssue.addressSpace
    return (
      { layout with
        sectionOffsets := placed.offsets, sections := placed.sections
        fileSize := placed.fileEnd, memorySize := placed.cursor },
      segments ++
        [{ flags := flags, offset := start, address := imageBase + start
           fileSize := placed.fileEnd - start, memorySize := placed.cursor - start }])
  else return state

/-- The kinds of the sections of each segment, and its permissions: 4 to read, 2 to write,
1 to execute. -/
def segmentGroups : List (List SectionKind × Nat) :=
  [([.text], 5), ([.readOnlyData], 4), ([.data, .bss], 6)]

/-- The ELF header, a program header for each segment and one for the stack. -/
def headerSize (objects : List ObjectFile) : Nat :=
  64 + 56 * (2 + (hasKind objects [.readOnlyData]).toNat + (hasKind objects [.data, .bss]).toNat)

def checkLayoutInput (object : ObjectFile) : Except LayoutIssue Unit :=
  match object.target.validateAmd64 with
  | .error _ => .error .invalidTarget
  | .ok () =>
      match object.validate with
      | .error cause => .error (.invalidObject cause)
      | .ok () => .ok ()

/-- Executable placement accounts for headers and page permissions, and puts BSS last in the
writable segment. -/
def executableLayout (objects : List ObjectFile) (maxBytes : Nat) :
    Except LayoutIssue (Layout × List Segment) := do
  objects.forM checkLayoutInput
  let size := headerSize objects
  let layout : Layout :=
    { sectionOffsets := objects.map fun o => o.sections.map fun _ => 0
      sectionSizes := [], sections := [], baseAddress := imageBase, fileSize := size
      memorySize := size }
  let (layout, segments) ← segmentGroups.foldlM (placeSegment objects maxBytes size) (layout, [])
  let sizes ← orThrow ((objects.flatMap ObjectFile.sections).mapM Section.memorySize)
    LayoutIssue.sectionSize
  return ({ layout with sectionSizes := sizes }, segments)

end Whale.Linker
