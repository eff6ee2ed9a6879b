import Mathlib.Algebra.BigOperators.Group.List.Basic
import Whale.Object.Elf.Read

set_option autoImplicit false

/-! # What an ELF object file holds

The parts of a relocatable file in terms of its bytes: headers, names, symbol and relocation
records, each with the range it lies in, and what reading them costs. `ReadFrom` relates the
bytes, the object and the usage that the reader reports. -/

namespace Whale.Elf

/-! ## Records -/

/-- The number of `n` bytes at `pos`. -/
def field (bytes : List UInt8) (pos n : Nat) : Nat := leValue (slice bytes pos n)

/-- The section header at `index` of the table at `offset`. -/
def headerAt (bytes : List UInt8) (offset index : Nat) : ElfSectionHeader :=
  let pos := offset + index * 64
  { name := field bytes pos 4
    kind := field bytes (pos + 4) 4
    flags := field bytes (pos + 8) 8
    address := field bytes (pos + 16) 8
    offset := field bytes (pos + 24) 8
    size := field bytes (pos + 32) 8
    link := field bytes (pos + 40) 4
    info := field bytes (pos + 44) 4
    align := field bytes (pos + 48) 8
    entrySize := field bytes (pos + 56) 8 }

/-- The section lies inside the input. -/
def Inside (bytes : List UInt8) (h : ElfSectionHeader) : Prop := h.offset + h.size ≤ bytes.length

/-- `name` is the string at `index` of a string table, up to its zero byte. -/
structure NameAt (bytes : List UInt8) (table : ElfSectionHeader) (index : Nat) (name : String) :
    Prop where
  inside : Inside bytes table
  /-- The zero byte is in the table. -/
  stop : index + name.utf8ByteSize < table.size
  zero : bytes[table.offset + index + name.utf8ByteSize]? = some 0
  first : 0 ∉ slice bytes (table.offset + index) name.utf8ByteSize
  text : ofBytes (slice bytes (table.offset + index) name.utf8ByteSize) = some name

/-- Record `index` of a table of records of 24 bytes. -/
def RecordInside (bytes : List UInt8) (table : ElfSectionHeader) (index : Nat) : Prop :=
  index * 24 + 24 ≤ table.size ∧ Inside bytes table

/-- The symbol record at `index`. -/
structure RecordFrom (bytes : List UInt8) (symtab strings : ElfSectionHeader) (index : Nat)
    (r : RawSymbol) : Prop where
  inside : RecordInside bytes symtab index
  name : NameAt bytes strings (field bytes (symtab.offset + index * 24) 4) r.name
  kind : r.kind = field bytes (symtab.offset + index * 24 + 4) 2 % 16
  binding : r.binding = field bytes (symtab.offset + index * 24 + 4) 2 / 16 % 16
  visibility : r.visibility = field bytes (symtab.offset + index * 24 + 4) 2 / 256
  section_ : r.section = field bytes (symtab.offset + index * 24 + 6) 2
  value : r.value = field bytes (symtab.offset + index * 24 + 8) 8
  size : r.size = field bytes (symtab.offset + index * 24 + 16) 8

/-! ## What becomes of them -/

/-- The headers in use, with their indices: the first one is null. -/
def active (headers : List ElfSectionHeader) : List (ElfSectionHeader × Nat) :=
  (headers.zipIdx.drop 1).filter fun e => e.1.kind ≠ 0

def isPayload (h : ElfSectionHeader) : Prop := h.kind = 1 ∨ h.kind = 8

instance (h : ElfSectionHeader) : Decidable (isPayload h) := inferInstanceAs (Decidable (_ ∨ _))

/-- The headers of the sections of the object. -/
def payloads (headers : List ElfSectionHeader) : List (ElfSectionHeader × Nat) :=
  (headers.zipIdx.drop 1).filter fun e => isPayload e.1

/-- The section of a payload header. -/
structure SectionFrom (bytes : List UInt8) (names h : ElfSectionHeader) (s : Section) : Prop where
  kind : payloadKind h.kind h.flags = some s.kind
  name : NameAt bytes names h.name s.name
  data : h.kind ≠ 8 → Inside bytes h ∧ s.data = slice bytes h.offset h.size ∧ s.zeroFill = 0
  zero : h.kind = 8 → s.data = [] ∧ s.zeroFill = UInt64.ofNat h.size
  align : s.align = UInt64.ofNat h.align

/-- The records of the symbols of the object: those of files have none. -/
def symbolRecords (raw : List RawSymbol) : List (RawSymbol × Nat) :=
  (raw.zipIdx.drop 1).filter fun e => e.1.kind ≠ 4

/-- The symbol of a record; the section symbols, which have no name of their own, get one. -/
structure SymbolFrom (headers : List ElfSectionHeader) (r : RawSymbol) (s : ObjectSymbol) :
    Prop where
  kind : readKind r.kind = some s.kind ∨ r.kind = 3 ∧ s.kind = .noType
  name : r.kind ≠ 3 → s.name = r.name
  binding : readBinding r.binding = some s.binding
  visibility : readVisibility r.visibility = some s.visibility
  value : s.value = UInt64.ofNat r.value
  size : s.size = UInt64.ofNat r.size
  undefined : s.sectionIndex = none → r.section = 0
  defined : ∀ i, s.sectionIndex = some i → ((payloads headers)[i]?.map Prod.snd) = some r.section

/-- The relocation tables, with their indices. -/
def relocationTables (headers : List ElfSectionHeader) : List (ElfSectionHeader × Nat) :=
  headers.zipIdx.filter fun e => e.1.kind = 4

/-- The records of a list of relocation tables. -/
def relocationRecords (tables : List (ElfSectionHeader × Nat)) : List (ElfSectionHeader × Nat) :=
  tables.flatMap fun e => (List.range (e.1.size / 24)).map fun n => (e.1, n)

/-- The relocation of record `n` of a table. -/
structure RelocationFrom (bytes : List UInt8) (headers : List ElfSectionHeader)
    (raw : List RawSymbol) (symbols : List ObjectSymbol) (table : ElfSectionHeader) (n : Nat)
    (r : ObjectRelocation) : Prop where
  inside : RecordInside bytes table n
  section_ : ((payloads headers)[r.sectionIndex]?.map Prod.snd) = some table.info
  offset : r.offset = field bytes (table.offset + n * 24) 8
  kind : relocKind (field bytes (table.offset + n * 24 + 8) 8 % 2 ^ 32) = some r.kind
  symbol : ∃ j : Nat, ((symbolRecords raw)[j]?.map Prod.snd) =
      some (field bytes (table.offset + n * 24 + 8) 8 / 2 ^ 32) ∧
    (symbols[j]?.map ObjectSymbol.name) = some r.symbol
  addend : r.addend = Int64.ofNat (field bytes (table.offset + n * 24 + 16) 8)

/-! ## Costs -/

structure Cost where
  work : Nat
  strings : Nat
  payload : Nat
  deriving DecidableEq

namespace Cost

instance : Add Cost := ⟨fun a b => ⟨a.work + b.work, a.strings + b.strings, a.payload + b.payload⟩⟩

instance : Zero Cost := ⟨⟨0, 0, 0⟩⟩

@[simp] theorem add_work (a b : Cost) : (a + b).work = a.work + b.work := rfl

@[simp] theorem add_strings (a b : Cost) : (a + b).strings = a.strings + b.strings := rfl

@[simp] theorem add_payload (a b : Cost) : (a + b).payload = a.payload + b.payload := rfl

theorem ext {a b : Cost} (hw : a.work = b.work) (hs : a.strings = b.strings)
    (hp : a.payload = b.payload) : a = b := by
  cases a
  cases b
  simp only at hw hs hp
  rw [hw, hs, hp]

instance : AddCommMonoid Cost where
  add_assoc a b c := ext (Nat.add_assoc _ _ _) (Nat.add_assoc _ _ _) (Nat.add_assoc _ _ _)
  zero_add a := ext (Nat.zero_add _) (Nat.zero_add _) (Nat.zero_add _)
  add_zero a := ext (Nat.add_zero _) (Nat.add_zero _) (Nat.add_zero _)
  add_comm a b := ext (Nat.add_comm _ _) (Nat.add_comm _ _) (Nat.add_comm _ _)
  nsmul := nsmulRec

end Cost

/-- One step of the reader. -/
def stepCost : Cost := ⟨1, 0, 0⟩

/-- Looking a name up in a string table, with the zero byte behind it. -/
def nameCost (name : String) : Cost := ⟨name.utf8ByteSize + 1, name.utf8ByteSize, 0⟩

/-- Copying a name. -/
def copyCost (name : String) : Cost := ⟨name.utf8ByteSize, name.utf8ByteSize, 0⟩

/-- Copying the data of a section. -/
def dataCost (data : List UInt8) : Cost := ⟨data.length, 0, data.length⟩

def sectionCost (s : Section) : Cost := dataCost s.data + copyCost s.name

def recordCost (r : RawSymbol) : Cost := stepCost + nameCost r.name

/-- The names that were tried before one with `dollars` dollar signs at its end. -/
def triesCost (length dollars : Nat) : Cost :=
  ⟨((List.range dollars).map fun i => length + i + 1).sum, 0, 0⟩

/-- The name of the section symbol at `index`, before it is made unique. -/
def helperName (index : Nat) : String := s!"__whale_elf_section_{index}"

/-- A name of its own is copied; that of a section symbol is made and copied twice. -/
def symbolCost (e : (RawSymbol × Nat) × ObjectSymbol) : Cost :=
  if e.1.1.kind = 3 then
    triesCost (helperName e.1.2).utf8ByteSize
        (e.2.name.utf8ByteSize - (helperName e.1.2).utf8ByteSize) +
      ⟨0, e.2.name.utf8ByteSize * 2, 0⟩
  else copyCost e.2.name

def relocationCost (r : ObjectRelocation) : Cost := stepCost + copyCost r.symbol

/-- What it costs to read an object with these parts; `names` are those of the headers in use. -/
def totalCost (headers : List ElfSectionHeader) (names : List String) (raw : List RawSymbol)
    (object : ObjectFile) : Cost :=
  headers.length • stepCost + (names.map nameCost).sum + (object.sections.map sectionCost).sum +
    (raw.map recordCost).sum + (((symbolRecords raw).zip object.symbols).map symbolCost).sum +
    (object.relocations.map relocationCost).sum

/-! ## Reading -/

/-- The parts of the file that an object was read from. -/
structure Parts where
  /-- Where the section headers are. -/
  table : Nat
  headers : List ElfSectionHeader
  names : List String
  raw : List RawSymbol
  sectionNames : ElfSectionHeader
  symtab : ElfSectionHeader
  strings : ElfSectionHeader

structure PartsOf (bytes : List UInt8) (object : ObjectFile) (p : Parts) : Prop where
  /-- The table of section headers. -/
  table : p.table + p.headers.length * 64 ≤ bytes.length
  headers : p.headers = (List.range p.headers.length).map (headerAt bytes p.table)
  /-- A section in use lies in the input, unless it has no bytes there. -/
  inside : ∀ e ∈ active p.headers, e.1.kind ≠ 8 → Inside bytes e.1
  tables : p.sectionNames ∈ p.headers ∧ p.symtab ∈ p.headers ∧ p.strings ∈ p.headers
  names : List.Forall₂ (fun e name => NameAt bytes p.sectionNames e.1.name name)
    (active p.headers) p.names
  sections : List.Forall₂ (fun e s => SectionFrom bytes p.sectionNames e.1 s)
    (payloads p.headers) object.sections
  /-- The symbol records are all of the symbol table. -/
  records : List.Forall₂ (fun k r => RecordFrom bytes p.symtab p.strings k r)
    (List.range (p.symtab.size / 24)) p.raw
  symbols : List.Forall₂ (fun e s => SymbolFrom p.headers e.1 s) (symbolRecords p.raw)
    object.symbols
  relocations : List.Forall₂
    (fun e r => RelocationFrom bytes p.headers p.raw object.symbols e.1 e.2 r)
    (relocationRecords (relocationTables p.headers)) object.relocations

/-- The object was read from parts inside the input, and the usage is what that costs. -/
def ReadFrom (bytes : List UInt8) (object : ObjectFile) (usage : ObjectReadUsage) : Prop :=
  ∃ p, PartsOf bytes object p ∧
    usage =
      { inputBytes := bytes.length, sections := p.headers.length, programHeaders := 0
        symbols := p.raw.length, relocations := object.relocations.length
        payloadBytes := (totalCost p.headers p.names p.raw object).payload
        stringBytes := (totalCost p.headers p.names p.raw object).strings
        work := (totalCost p.headers p.names p.raw object).work }

/-- The usage is within the limits. -/
structure ObjectReadUsage.Within (u : ObjectReadUsage) (limits : ObjectReadLimits) : Prop where
  inputBytes : u.inputBytes ≤ limits.maxInputBytes
  sections : u.sections ≤ limits.maxSections
  programHeaders : u.programHeaders ≤ limits.maxProgramHeaders
  symbols : u.symbols ≤ limits.maxSymbols
  relocations : u.relocations ≤ limits.maxRelocations
  payloadBytes : u.payloadBytes ≤ limits.maxPayloadBytes
  stringBytes : u.stringBytes ≤ limits.maxStringBytes
  work : u.work ≤ limits.maxWork

end Whale.Elf
