import Whale.Lib.Bisect
import Whale.Object.Elf.Read

set_option autoImplicit false

/-! # Inspecting ELF files

The AMD64 code ranges of an object or a static executable. File, section and virtual offsets stay
distinct. The state of an inspection is the work it may still do. -/

namespace Whale.Reverse

open Elf

structure CodeRegion where
  id : Nat
  «section» : Option Nat
  name : String
  fileOffset : Nat
  address : Nat
  bytes : List UInt8
  deriving DecidableEq

structure ImageSymbol where
  name : String
  region : Option Nat
  offset : Nat
  address : Option Nat
  deriving DecidableEq

structure Annotation where
  region : Nat
  offset : Nat
  symbol : String
  addend : Int64
  kind : RelocKind
  width : Nat
  deriving DecidableEq

structure Image where
  kind : String
  entry : Option Nat
  regions : List CodeRegion
  symbols : List ImageSymbol
  relocations : List Annotation
  deriving DecidableEq

inductive ImageIssue where
  | object (e : ObjectError)
  | unsupportedKind
  | workLimit
  | dynamicHeaders
  | loadHeader
  | addressOverflow
  | overlap
  | entryOutside
  | sectionZero
  | sectionNames
  | sectionNameTable
  | sectionNameMissing
  | sectionNameOffset
  | sectionNameBudget
  | sectionNameWork
  | sectionNameStrings
  | sectionNameEncoding
  | sectionAlignment
  | sectionOverflow
  | symbolTable
  | symbolCount
  | symbolNames
  | symbolNameOffset
  | symbolNameBudget
  | symbolWork
  | symbolStrings
  | symbolNameEncoding
  | symbolSection
  | symbolOverflow
  | symbolClass
  | symbolOwnerOverflow
  | symbolOutside
  | symbolUnmapped
  | symbolFileOverflow
  | symbolMapping
  /-- Unchecked arithmetic that overflows, or an index that is not there. -/
  | panic
  deriving DecidableEq

def ImageIssue.ofAbort : ReadAbort → ImageIssue
  | .error e => .object e
  | .panic => .panic

abbrev Inspect := EStateM ImageIssue Nat

namespace Inspect

/-- What the view answers. -/
def view {α : Type} (x : Except ReadAbort α) : Inspect α := orRaise x ImageIssue.ofAbort

end Inspect

def charge (count : Nat) : Inspect Unit := do
  let work ← get
  let left ← orThrow (checkedSub work count) ImageIssue.workLimit
  set left

theorem charge_run {count work : Nat} (h : count ≤ work) :
    charge count work = .ok () (work - count) := by
  show ((orThrow (checkedSub work count) ImageIssue.workLimit : Inspect Nat) >>= set) work = _
  rw [checkedSub_eq_some.mpr ⟨h, rfl⟩]
  rfl

theorem view_run {α : Type} {x : Except ReadAbort α} {a : α} (h : x = .ok a) (work : Nat) :
    Inspect.view x work = .ok a work := by
  rw [h]
  rfl

/-! ## Objects -/

/-- The code regions, and the region of each section. -/
structure Regions where
  regions : List CodeRegion
  map : List (Option Nat)
  objectIndex : Nat

/-- The section header at `index`; payload sections are those of the object, in order. -/
def addSection (view : ElfView) (sections : List Section) (r : Regions) (index : Nat) :
    Inspect Regions := do
  charge 1
  let s ← Inspect.view (view.section index)
  if s.kind = 1 ∨ s.kind = 8 then do
    let source ← orThrow sections[r.objectIndex]? ImageIssue.panic
    if source.kind = .text then do
      let bytes ← Inspect.view (view.range s.offset s.size)
      return {
        regions := r.regions ++
          [{ id := r.regions.length, «section» := some r.objectIndex, name := source.name
             fileOffset := s.offset, address := 0, bytes := bytes }]
        map := r.map.set r.objectIndex (some r.regions.length)
        objectIndex := r.objectIndex + 1 }
    else return { r with objectIndex := r.objectIndex + 1 }
  else return r

def addSymbol (map : List (Option Nat)) (symbol : ObjectSymbol) : Inspect ImageSymbol := do
  charge 1
  let region ← match symbol.sectionIndex with
    | none => pure none
    | some index => orThrow map[index]? ImageIssue.panic
  return { name := symbol.name, region := region, offset := symbol.value.toNat, address := none }

/-- The number of bytes a relocation changes. -/
def relocWidth : RelocKind → Nat
  | .absolute64 => 8
  | .relative8 => 1
  | _ => 4

def addRelocation (map : List (Option Nat)) (annotations : List Annotation)
    (relocation : ObjectRelocation) : Inspect (List Annotation) := do
  charge 1
  let region ← orThrow map[relocation.sectionIndex]? ImageIssue.panic
  match region with
  | none => return annotations
  | some region =>
      return annotations ++
        [{ region := region, offset := relocation.offset, symbol := relocation.symbol
           addend := relocation.addend, kind := relocation.kind
           width := relocWidth relocation.kind }]

/-- `usize::BITS - n.leading_zeros()`. -/
def bitLength (n : Nat) : Nat := if n = 0 then 0 else n.log2 + 1

/-- The order of annotations: by region, then by offset. -/
def Annotation.le (a b : Annotation) : Bool :=
  a.region < b.region ∨ a.region = b.region ∧ a.offset ≤ b.offset

def relocatable (view : ElfView) (limits : ObjectReadLimits) : Except ImageIssue Image := do
  let (object, usage) ← (readElfWithUsage view.bytes limits).mapError ImageIssue.ofAbort
  -- Reader and image projection consume one allowance.
  let work ← orThrow (checkedSub limits.maxWork usage.work) ImageIssue.workLimit
  let inspect : Inspect Image := do
    charge object.sections.length
    let r ← (List.range' 1 (view.header.sectionCount - 1)).foldlM
      (addSection view object.sections) ⟨[], List.replicate object.sections.length none, 0⟩
    let symbols ← object.symbols.mapM (addSymbol r.map)
    let relocations ← object.relocations.foldlM (addRelocation r.map) []
    charge (min (relocations.length * bitLength relocations.length) wordMax)
    return {
      kind := "elf64-amd64-relocatable", entry := none, regions := r.regions, symbols := symbols
      relocations := relocations.mergeSort Annotation.le }
  match inspect work with
  | .ok image _ => return image
  | .error e _ => throw e

/-! ## Executables -/

/-- The variables of the loop over the program headers. -/
structure Mapped where
  regions : List CodeRegion
  /-- The virtual ranges of the load segments. -/
  mappings : List (Nat × Nat)

/-- The checks on the numbers of a load segment. -/
def validLoad (p : ElfProgramHeader) : Prop :=
  p.fileSize ≤ p.memorySize ∧ p.flags < 8 ∧
    (p.align ≤ 1 ∨ isPowerOfTwo p.align = true ∧ p.offset % p.align = p.virtualAddress % p.align)

instance (p : ElfProgramHeader) : Decidable (validLoad p) := inferInstanceAs (Decidable (_ ∧ _))

/-- The bytes of a load segment. One of zeros only has none, wherever its offset points. -/
def loadBytes (view : ElfView) (p : ElfProgramHeader) : Inspect (List UInt8) :=
  if p.fileSize = 0 then return [] else Inspect.view (view.range p.offset p.fileSize)

def mapProgram (view : ElfView) (m : Mapped) (index : Nat) : Inspect Mapped := do
  charge 1
  let p ← Inspect.view (view.program index)
  require (p.kind ≠ 2 ∧ p.kind ≠ 3) ImageIssue.dynamicHeaders
  if p.kind ≠ 1 then return m
  else do
    require (validLoad p) ImageIssue.loadHeader
    let stop ← orThrow (checkedAdd p.virtualAddress p.memorySize) ImageIssue.addressOverflow
    let bytes ← loadBytes view p
    charge m.mappings.length
    require (∀ range ∈ m.mappings, ¬ (p.virtualAddress < range.2 ∧ range.1 < stop))
      ImageIssue.overlap
    let mappings := m.mappings ++ [(p.virtualAddress, stop)]
    if p.flags % 2 = 1 ∧ bytes ≠ [] then
      return {
        mappings := mappings
        regions := m.regions ++
          [{ id := m.regions.length, «section» := none, name := s!"PT_LOAD[{index}]"
             fileOffset := p.offset, address := p.virtualAddress, bytes := bytes }] }
    else return { m with mappings := mappings }

/-- The region has the byte at an address. -/
def CodeRegion.holds (r : CodeRegion) (address : Nat) : Prop :=
  r.address ≤ address ∧ address - r.address < r.bytes.length

instance (r : CodeRegion) (address : Nat) : Decidable (r.holds address) :=
  inferInstanceAs (Decidable (_ ∧ _))

/-- The bytes of the section-name table, if there is one. -/
def sectionNames (view : ElfView) : Inspect (Option (List UInt8)) :=
  if view.header.stringSection = 0 then return none
  else do
    let table ← Inspect.view (view.section view.header.stringSection)
    require (table.kind = 3) ImageIssue.sectionNames
    let names ← Inspect.view (view.range table.offset table.size)
    require (names.head? = some 0) ImageIssue.sectionNameTable
    return some names

/-- The variables of the loop over the sections. -/
structure Named where
  symbols : List ImageSymbol
  stringWork : Nat
  symbolCount : Nat

/-- The issues of a kind of names. -/
structure NameIssues where
  offset : ImageIssue
  budget : ImageIssue
  work : ImageIssue
  strings : ImageIssue
  encoding : ImageIssue

/-- The name at `offset` of a table, each byte at the price of `cost`; and the bytes of names
inspected so far. -/
def inspectName (issues : NameIssues) (limits : ObjectReadLimits) (cost : Nat)
    (names : List UInt8) (offset stringWork : Nat) : Inspect (String × Nat) := do
  require (offset ≤ names.length) issues.offset
  let tail := names.drop offset
  let work ← get
  let remaining := min (limits.maxStringBytes - stringWork) (work / cost)
  let stop ← orThrow ((tail.take (remaining + 1)).findIdx? (· == 0)) issues.budget
  let price ← orThrow (checkedMul (stop + 1) cost) issues.work
  charge price
  let stringWork ← orThrow (checkedAdd stringWork (stop + 1)) issues.strings
  require (stringWork ≤ limits.maxStringBytes) issues.strings
  let name ← orThrow (ofBytes (tail.take stop)) issues.encoding
  return (name, stringWork)

def sectionNameIssues : NameIssues :=
  ⟨.sectionNameOffset, .sectionNameBudget, .sectionNameWork, .sectionNameStrings,
    .sectionNameEncoding⟩

def symbolNameIssues : NameIssues :=
  ⟨.symbolNameOffset, .symbolNameBudget, .symbolWork, .symbolStrings, .symbolNameEncoding⟩

/-- The region of a symbol of a section, whose file positions have to agree. -/
def symbolRegion (view : ElfView) (regions : List CodeRegion) (sectionIndex kind value size : Nat) :
    Inspect (Option CodeRegion) := do
  let stop ← orThrow (checkedAdd value size) ImageIssue.symbolOverflow
  if sectionIndex = 0xfff1 then return none
  else do
    require (sectionIndex < 0xff00) ImageIssue.symbolClass
    let owner ← Inspect.view (view.section sectionIndex)
    let ownerEnd ← orThrow (checkedAdd owner.address owner.size) ImageIssue.symbolOwnerOverflow
    let outside := value < owner.address ∨ stop > ownerEnd
    -- Linkers emit markers of size zero beyond their nominal section.
    require (¬ outside ∨ kind = 0 ∧ size = 0) ImageIssue.symbolOutside
    if ¬ outside ∧ owner.kind = 1 ∧ owner.flags.testBit 2 = true ∧ value < ownerEnd then do
      charge regions.length
      let r ← orThrow
        (regions.find? fun r => decide (r.holds value ∧ stop ≤ r.address + r.bytes.length))
        ImageIssue.symbolUnmapped
      let position ← orThrow (checkedAdd owner.offset (value - owner.address))
        ImageIssue.symbolFileOverflow
      require (checkedAdd r.fileOffset (value - r.address) = some position)
        ImageIssue.symbolMapping
      return some r
    else return none

/-- Record `n` of a symbol table. -/
def inspectSymbol (view : ElfView) (limits : ObjectReadLimits) (regions : List CodeRegion)
    (table : ElfSectionHeader) (names : List UInt8) (s : Named) (n : Nat) : Inspect Named := do
  charge 1
  let pos ← Inspect.view (recordAt table n)
  let offset ← Inspect.view (view.u32 pos)
  let (name, stringWork) ← inspectName symbolNameIssues limits 3 names offset s.stringWork
  let s := { s with stringWork := stringWork }
  let sectionIndex ← Inspect.view (plus pos 6 >>= view.u16)
  if sectionIndex = 0 ∨ name = "" then return s
  else do
    require (sectionIndex < view.header.sectionCount ∨ 0xff00 ≤ sectionIndex)
      ImageIssue.symbolSection
    let info ← Inspect.view (plus pos 4 >>= view.number 1)
    let kind := info % 16
    -- Symbols of thread-local storage have no addresses.
    if kind = 6 then return s
    else do
      let value ← Inspect.view (plus pos 8 >>= view.u64)
      let size ← Inspect.view (plus pos 16 >>= view.u64)
      let region ← symbolRegion view regions sectionIndex kind value size
      return { s with
        symbols := s.symbols ++
          [{ name := name, region := region.map CodeRegion.id
             offset := (region.map fun r => value - r.address).getD 0, address := some value }] }

def inspectSection (view : ElfView) (limits : ObjectReadLimits) (regions : List CodeRegion)
    (names : Option (List UInt8)) (s : Named) (index : Nat) : Inspect Named := do
  charge 1
  let header ← Inspect.view (view.section index)
  let stringWork ← if header.name = 0 then pure s.stringWork
    else do
      let names ← orThrow names ImageIssue.sectionNameMissing
      let (_, stringWork) ← inspectName sectionNameIssues limits 2 names header.name s.stringWork
      pure stringWork
  let s := { s with stringWork := stringWork }
  require (header.align = 0 ∨ isPowerOfTwo header.align = true) ImageIssue.sectionAlignment
  let _ ← orThrow (checkedAdd header.address header.size) ImageIssue.sectionOverflow
  let _ ← if header.kind = 8 then pure [] else Inspect.view (view.range header.offset header.size)
  if header.kind ≠ 2 then return s
  else do
    require (header.entrySize = 24 ∧ header.size % 24 = 0 ∧ header.size / 24 ≤ limits.maxSymbols ∧
      header.link < view.header.sectionCount) ImageIssue.symbolTable
    let count ← orThrow (checkedAdd s.symbolCount (header.size / 24)) ImageIssue.symbolCount
    require (count ≤ limits.maxSymbols) ImageIssue.symbolCount
    let s := { s with symbolCount := count }
    let strings ← Inspect.view (view.section header.link)
    require (strings.kind = 3) ImageIssue.symbolNames
    let names ← Inspect.view (view.range strings.offset strings.size)
    (List.range' 1 (header.size / 24 - 1)).foldlM
      (inspectSymbol view limits regions header names) s

def executable (view : ElfView) (limits : ObjectReadLimits) : Inspect Image := do
  let m ← (List.range view.header.programCount).foldlM (mapProgram view) ⟨[], []⟩
  charge m.regions.length
  require (∃ r ∈ m.regions, r.holds view.header.entry) ImageIssue.entryOutside
  let null ← if view.header.sectionCount = 0 then pure []
    else Inspect.view (view.range view.header.sectionOffset 64)
  require (null.all (· == 0)) ImageIssue.sectionZero
  let names ← sectionNames view
  let s ← (List.range' 1 (view.header.sectionCount - 1)).foldlM
    (inspectSection view limits m.regions names) ⟨[], 0, 0⟩
  return {
    kind := "elf64-amd64-executable", entry := some view.header.entry, regions := m.regions
    symbols := s.symbols, relocations := [] }

/-- Inspect a file. -/
def Image.elf (bytes : List UInt8) (limits : ObjectReadLimits) : Except ImageIssue Image := do
  let view ← (ElfView.parse bytes limits).mapError ImageIssue.ofAbort
  if view.header.kind = 1 then relocatable view limits
  else if view.header.kind = 2 then
    match executable view limits limits.maxWork with
    | .ok image _ => return image
    | .error e _ => throw e
  else throw .unsupportedKind

/-! ## Annotations -/

/-- `(r.region, r.offset) < (region, offset)`. -/
def Annotation.before (r : Annotation) (region offset : Nat) : Bool :=
  r.region < region ∨ r.region = region ∧ r.offset < offset

/-- The annotations that touch `length` bytes from `offset` on. Sums end at `usize::MAX`. -/
def Image.annotations (image : Image) (region offset length : Nat) : List Annotation :=
  let start := partitionPoint (fun r => r.before region (offset - 7)) image.relocations
  let stop := min (offset + length) wordMax
  ((image.relocations.drop start).takeWhile fun r =>
    decide (r.region = region ∧ r.offset < stop)).filter fun r =>
      decide (offset < min (r.offset + r.width) wordMax)

end Whale.Reverse
