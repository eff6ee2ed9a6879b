import Whale.Lib.Bytes
import Whale.Object.Object

set_option autoImplicit false

/-! # Reading ELF headers

Checked access to the bytes of an ELF file and to its header tables. What the header means in
an object or in an executable is for their readers to check. Arithmetic of the source that is
not checked, and reading at an index that is not there, is a panic when it goes wrong. -/

namespace Whale

structure ObjectReadLimits where
  maxInputBytes : Nat
  maxSections : Nat
  maxProgramHeaders : Nat
  maxSymbols : Nat
  maxRelocations : Nat
  /-- Sum of copied section payloads; aliases cannot multiply input storage. -/
  maxPayloadBytes : Nat
  /-- Cumulative names inspected and copied, including repeated references. -/
  maxStringBytes : Nat
  maxWork : Nat
  deriving DecidableEq

def ObjectReadLimits.default : ObjectReadLimits where
  maxInputBytes := 256 * 1024 * 1024
  maxSections := 65279
  maxProgramHeaders := 4096
  maxSymbols := 1000000
  maxRelocations := 1000000
  maxPayloadBytes := 256 * 1024 * 1024
  maxStringBytes := 16 * 1024 * 1024
  maxWork := 512 * 1024 * 1024

/-- Why reading stops. -/
inductive ReadAbort where
  | error (e : ObjectError)
  | panic
  deriving DecidableEq

namespace Elf

def readError (kind : ObjectErrorKind) : ObjectError := ObjectError.new "read" kind

def limitError (resource : ObjectResource) : ObjectError := ObjectError.limit "read" resource

structure ElfHeader where
  kind : Nat
  entry : Nat
  programOffset : Nat
  sectionOffset : Nat
  programEntrySize : Nat
  programCount : Nat
  sectionEntrySize : Nat
  sectionCount : Nat
  stringSection : Nat
  deriving DecidableEq

structure ElfSectionHeader where
  name : Nat
  kind : Nat
  flags : Nat
  address : Nat
  offset : Nat
  size : Nat
  link : Nat
  info : Nat
  align : Nat
  entrySize : Nat
  deriving DecidableEq

structure ElfProgramHeader where
  kind : Nat
  flags : Nat
  offset : Nat
  virtualAddress : Nat
  physicalAddress : Nat
  fileSize : Nat
  memorySize : Nat
  align : Nat
  deriving DecidableEq

structure ElfView where
  bytes : List UInt8
  header : ElfHeader
  deriving DecidableEq

/-- An unchecked sum. -/
def plus (a b : Nat) : Except ReadAbort Nat := orThrow (checkedAdd a b) ReadAbort.panic

/-- An unchecked product. -/
def times (a b : Nat) : Except ReadAbort Nat := orThrow (checkedMul a b) ReadAbort.panic

def fail {α : Type} (e : ObjectError) : Except ReadAbort α := .error (.error e)

namespace ElfView

/-! ## Access -/

section

variable (view : ElfView)

def range (offset size : Nat) : Except ReadAbort (List UInt8) := do
  let stop ← orThrow (checkedAdd offset size) (ReadAbort.error ((readError .overflow).at offset))
  require (stop ≤ view.bytes.length) (ReadAbort.error ((readError .truncated).at offset))
  return slice view.bytes offset size

def table (offset count stride : Nat) : Except ReadAbort Unit := do
  let size ← orThrow (checkedMul count stride)
    (ReadAbort.error ((readError .overflow).at offset))
  let _ ← view.range offset size
  return ()

/-- A little-endian number of `n` bytes. -/
def number (n pos : Nat) : Except ReadAbort Nat := do
  let bytes ← view.range pos n
  return leValue bytes

def u16 (pos : Nat) : Except ReadAbort Nat := view.number 2 pos

def u32 (pos : Nat) : Except ReadAbort Nat := view.number 4 pos

def u64 (pos : Nat) : Except ReadAbort Nat := view.number 8 pos

def i64 (pos : Nat) : Except ReadAbort Int64 := do
  let value ← view.number 8 pos
  return Int64.ofNat value

/-- The section header at `index`. -/
def «section» (index : Nat) : Except ReadAbort ElfSectionHeader := do
  require (index < view.header.sectionCount)
    (ReadAbort.error ((readError .invalidSection).section index))
  let offset ← orThrow (checkedMul index 64) (ReadAbort.error (readError .overflow))
  let pos ← orThrow (checkedAdd view.header.sectionOffset offset)
    (ReadAbort.error (readError .overflow))
  return {
    name := ← view.u32 pos
    kind := ← view.u32 (← plus pos 4)
    flags := ← view.u64 (← plus pos 8)
    address := ← view.u64 (← plus pos 16)
    offset := ← view.u64 (← plus pos 24)
    size := ← view.u64 (← plus pos 32)
    link := ← view.u32 (← plus pos 40)
    info := ← view.u32 (← plus pos 44)
    align := ← view.u64 (← plus pos 48)
    entrySize := ← view.u64 (← plus pos 56) }

/-- The program header at `index`. -/
def program (index : Nat) : Except ReadAbort ElfProgramHeader := do
  require (index < view.header.programCount) (ReadAbort.error (readError .outOfBounds))
  let offset ← orThrow (checkedMul index 56) (ReadAbort.error (readError .overflow))
  let pos ← orThrow (checkedAdd view.header.programOffset offset)
    (ReadAbort.error (readError .overflow))
  return {
    kind := ← view.u32 pos
    flags := ← view.u32 (← plus pos 4)
    offset := ← view.u64 (← plus pos 8)
    virtualAddress := ← view.u64 (← plus pos 16)
    physicalAddress := ← view.u64 (← plus pos 24)
    fileSize := ← view.u64 (← plus pos 32)
    memorySize := ← view.u64 (← plus pos 40)
    align := ← view.u64 (← plus pos 48) }

end

/-! ## The header -/

def magic : List UInt8 := [0x7f, 0x45, 0x4c, 0x46]

/-- The first sixteen bytes: the class, the byte order, the version and the ABI. -/
def checkIdent (bytes : List UInt8) : Except ReadAbort Unit := do
  require (bytes.take 4 = magic) (ReadAbort.error ((readError .invalidEncoding).at 0))
  require (slice bytes 4 3 = [2, 1, 1]) (ReadAbort.error ((readError .unsupported).at 4))
  require ((bytes[7]? = some 0 ∨ bytes[7]? = some 3) ∧ bytes[8]? = some 0 ∧
      (slice bytes 9 7).all (· == 0))
    (ReadAbort.error ((readError .unsupported).at 7))

def readHeader (view : ElfView) : Except ReadAbort ElfHeader := do
  return {
    kind := ← view.u16 16
    entry := ← view.u64 24
    programOffset := ← view.u64 32
    sectionOffset := ← view.u64 40
    programEntrySize := ← view.u16 54
    programCount := ← view.u16 56
    sectionEntrySize := ← view.u16 58
    sectionCount := ← view.u16 60
    stringSection := ← view.u16 62 }

/-- The numbers of table entries and the places of the tables. -/
def checkTables (view : ElfView) (limits : ObjectReadLimits) : Except ReadAbort Unit := do
  let h := view.header
  require (¬ (h.sectionCount ≥ 0xff00 ∨ h.programCount = 0xffff ∨ h.stringSection = 0xffff ∨
      h.sectionCount = 0 ∧ h.sectionOffset ≠ 0))
    (ReadAbort.error ((readError .unsupported).at 56))
  require (h.sectionCount ≤ limits.maxSections) (ReadAbort.error (limitError .sections))
  require (h.programCount ≤ limits.maxProgramHeaders)
    (ReadAbort.error (limitError .programHeaders))
  if h.sectionCount > 0 then do
    require (h.sectionEntrySize = 64 ∧ h.stringSection < h.sectionCount)
      (ReadAbort.error ((readError .invalidSection).at 58))
    view.table h.sectionOffset h.sectionCount 64
  else require (h.stringSection = 0) (ReadAbort.error ((readError .invalidSection).at 62))
  if h.programCount > 0 then do
    require (h.programEntrySize = 56) (ReadAbort.error ((readError .invalidEncoding).at 54))
    view.table h.programOffset h.programCount 56
  else return ()

def parse (bytes : List UInt8) (limits : ObjectReadLimits) : Except ReadAbort ElfView := do
  require (bytes.length ≤ limits.maxInputBytes) (ReadAbort.error (limitError .inputBytes))
  require (64 ≤ bytes.length) (ReadAbort.error ((readError .truncated).at bytes.length))
  checkIdent bytes
  let view : ElfView := ⟨bytes, ⟨0, 0, 0, 0, 0, 0, 0, 0, 0⟩⟩
  let machine ← view.u16 18
  require (machine = 62) (ReadAbort.error ((readError .invalidTarget).at 18))
  let version ← view.u32 20
  require (version = 1) (ReadAbort.error ((readError .unsupported).at 20))
  let flags ← view.u32 48
  require (flags = 0) (ReadAbort.error ((readError .unsupported).at 20))
  let size ← view.u16 52
  require (size = 64) (ReadAbort.error ((readError .unsupported).at 20))
  let view : ElfView := ⟨bytes, ← readHeader view⟩
  checkTables view limits
  return view

/-! ## What can be read -/

section

variable {view : ElfView}

theorem range_ok_iff {offset size : Nat} {bs : List UInt8} :
    view.range offset size = .ok bs ↔
      offset + size < wordBound ∧ offset + size ≤ view.bytes.length ∧
        bs = slice view.bytes offset size := by
  unfold range
  rw [bind_ok_iff]
  constructor
  · rintro ⟨stop, hstop, h⟩
    obtain ⟨rfl, hbound⟩ := checkedAdd_eq_some.mp (orThrow_ok_iff.mp hstop)
    obtain ⟨hle, h⟩ := require_then_ok_iff.mp h
    cases h
    exact ⟨hbound, hle, rfl⟩
  · rintro ⟨hbound, hle, rfl⟩
    refine ⟨offset + size, orThrow_ok_iff.mpr (checkedAdd_eq_some.mpr ⟨rfl, hbound⟩), ?_⟩
    exact require_then_ok_iff.mpr ⟨hle, rfl⟩

theorem number_ok_iff {n pos v : Nat} :
    view.number n pos = .ok v ↔
      pos + n < wordBound ∧ pos + n ≤ view.bytes.length ∧ v = leValue (slice view.bytes pos n) := by
  unfold number
  rw [bind_ok_iff]
  constructor
  · rintro ⟨bs, hbs, h⟩
    obtain ⟨hbound, hle, rfl⟩ := range_ok_iff.mp hbs
    cases h
    exact ⟨hbound, hle, rfl⟩
  · rintro ⟨hbound, hle, rfl⟩
    exact ⟨_, range_ok_iff.mpr ⟨hbound, hle, rfl⟩, rfl⟩

variable (hlength : view.bytes.length < wordBound)

include hlength

theorem range_eq {offset size : Nat} (h : offset + size ≤ view.bytes.length) :
    view.range offset size = .ok (slice view.bytes offset size) :=
  range_ok_iff.mpr ⟨h.trans_lt hlength, h, rfl⟩

theorem number_eq {n pos : Nat} (h : pos + n ≤ view.bytes.length) :
    view.number n pos = .ok (leValue (slice view.bytes pos n)) :=
  number_ok_iff.mpr ⟨h.trans_lt hlength, h, rfl⟩

theorem plus_eq {a b : Nat} (h : a + b ≤ view.bytes.length) : plus a b = .ok (a + b) :=
  orThrow_ok_iff.mpr (checkedAdd_eq_some.mpr ⟨rfl, h.trans_lt hlength⟩)

theorem table_eq {offset count stride : Nat} (h : offset + count * stride ≤ view.bytes.length) :
    view.table offset count stride = .ok () := by
  have hsize : count * stride < wordBound := by omega
  unfold table
  rw [orThrow_ok_iff.mpr (checkedMul_eq_some.mpr ⟨rfl, hsize⟩), ok_bind, range_eq hlength h]
  rfl

/-- A program header is what its record says. -/
theorem program_eq {index : Nat} (hindex : index < view.header.programCount)
    (h : view.header.programOffset + (index * 56 + 56) ≤ view.bytes.length) :
    let pos := view.header.programOffset + index * 56
    view.program index = .ok
      { kind := leValue (slice view.bytes pos 4)
        flags := leValue (slice view.bytes (pos + 4) 4)
        offset := leValue (slice view.bytes (pos + 8) 8)
        virtualAddress := leValue (slice view.bytes (pos + 16) 8)
        physicalAddress := leValue (slice view.bytes (pos + 24) 8)
        fileSize := leValue (slice view.bytes (pos + 32) 8)
        memorySize := leValue (slice view.bytes (pos + 40) 8)
        align := leValue (slice view.bytes (pos + 48) 8) } := by
  intro pos
  have hoffset : index * 56 < wordBound := by omega
  have hpos : view.header.programOffset + index * 56 < wordBound := by omega
  unfold program
  rw [require_of hindex, ok_bind, orThrow_ok_iff.mpr (checkedMul_eq_some.mpr ⟨rfl, hoffset⟩),
    ok_bind, orThrow_ok_iff.mpr (checkedAdd_eq_some.mpr ⟨rfl, hpos⟩), ok_bind]
  simp (disch := omega) only [u32, u64, plus_eq hlength, number_eq hlength, ok_bind, pos]
  rfl

end

end ElfView

end Elf

end Whale
