import Whale.Lib.AssocMap
import Whale.Lib.Text
import Whale.Object.Elf.View
import Whale.Object.Undeclared

set_option autoImplicit false

/-! # Writing ELF objects

The size of the output is computed first, without copying anything. Then the string tables and
the section headers are built, the sections are placed, and the bytes are put one after the other.
-/

namespace Whale.Elf

/-! ## Checked sizes -/

def writeError (kind : ObjectErrorKind) : ObjectError := ObjectError.new "write" kind

def outputLimit : ObjectError := ObjectError.limit "write" .outputBytes

def alignUp (value align : Nat) : Except ObjectError Nat := do
  require (isPowerOfTwo align = true) (writeError .invalidAlignment)
  orThrow (checkedAlignUp value align) (writeError .overflow)

def checkedU32 (value : Nat) : Except ObjectError Nat := do
  require (value < 2 ^ 32) (writeError .overflow)
  return value

/-- Indices from 0xff00 on are reserved. -/
def checkedSectionCount (input relocationSections : Nat) : Except ObjectError Nat := do
  let count ← orThrow (checkedAdd input relocationSections >>= (checkedAdd · 4))
    (writeError .overflow)
  require (count < 0xff00) (writeError .unsupported)
  return count

def checkedOutputSize (size limit : Nat) : Except ObjectError Nat := do
  require (size ≤ limit) outputLimit
  require (size < 2 ^ 63) (writeError .overflow)
  return size

def checkedTableBytes (count stride limit : Nat) : Except ObjectError Nat := do
  let size ← orThrow (checkedMul count stride) (writeError .overflow)
  checkedOutputSize size limit

/-- The end of a string table with a name and a zero byte more. -/
def checkedNameEnd (current nameLen : Nat) : Except ObjectError Nat := do
  let stop ← orThrow (checkedAdd current nameLen >>= (checkedAdd · 1)) (writeError .overflow)
  checkedU32 stop

/-- The offset of a name in a string table, and the table with it. -/
def pushName (table : List UInt8) (name : String) : Except ObjectError (Nat × List UInt8) := do
  let _ ← checkedNameEnd table.length (asBytes name).length
  let index ← checkedU32 table.length
  return (index, table ++ asBytes name ++ [0])

def advance (offset size : Nat) : Except ObjectError Nat :=
  orThrow (checkedAdd offset size) (writeError .overflow)

/-! ## Preflight -/

/-- The number of relocations of each section that has any. -/
def countRelocations (sections : Nat) :
    List ObjectRelocation → AssocMap Nat Nat → Except ObjectError (AssocMap Nat Nat)
  | [], counts => return counts
  | r :: relocations, counts => do
      require (r.sectionIndex < sections)
        ((writeError .invalidSection).section r.sectionIndex)
      let count ← advance ((counts.get r.sectionIndex).getD 0) 1
      countRelocations sections relocations (counts.insert r.sectionIndex count)

/-- The sizes of the section-name table and of the file after a section. -/
def preflightSection (counts : AssocMap Nat Nat) (limit : Nat) (sizes : Nat × Nat)
    (e : Section × Nat) : Except ObjectError (Nat × Nat) := do
  let (s, index) := e
  let (names, offset) := sizes
  let names ← checkedNameEnd names (asBytes s.name).length
  let _ ← checkedOutputSize names limit
  require (s.align = 0 ∨ isPowerOfTwo s.align.toNat = true)
    ((writeError .invalidAlignment).section index)
  let aligned ← alignUp offset (max s.align.toNat 1)
  let offset ← if s.kind = .bss then pure offset else advance aligned s.fileSize
  let names ← if (counts.get index).isNone then pure names
    else do
      let length ← advance (asBytes s.name).length 5
      let names ← checkedNameEnd names length
      let _ ← checkedOutputSize names limit
      pure names
  let _ ← checkedOutputSize offset limit
  return (names, offset)

/-- The number of symbols and the size of their string table. -/
def preflightNames (limit : Nat) :
    List String → List String → Nat × Nat → Except ObjectError (Nat × Nat)
  | [], _, sizes => return sizes
  | name :: names, seen, (symbols, strings) => do
      let _ ← checkedOutputSize (asBytes name).length limit
      if name ∈ seen then preflightNames limit names seen (symbols, strings)
      else do
        let symbols ← advance symbols 1
        if name = "" then preflightNames limit names (name :: seen) (symbols, strings)
        else do
          let strings ← checkedNameEnd strings (asBytes name).length
          let _ ← checkedOutputSize strings limit
          preflightNames limit names (name :: seen) (symbols, strings)

/-- Place a table of records behind `offset`. -/
def preflightTable (limit stride offset count : Nat) : Except ObjectError Nat := do
  let bytes ← checkedTableBytes count stride limit
  let aligned ← alignUp offset 8
  advance aligned bytes

def metadataNames : List String := [".symtab", ".strtab", ".shstrtab"]

/-- Account for the complete output before copying any name or payload. -/
def preflight (o : ObjectFile) (limit : Nat) : Except ObjectError Unit := do
  let counts ← countRelocations o.sections.length o.relocations []
  let sectionCount ← checkedSectionCount o.sections.length counts.length
  let (names, offset) ← o.sections.zipIdx.foldlM (preflightSection counts limit) (1, 64)
  let (symbols, strings) ← preflightNames limit
    (o.symbols.map ObjectSymbol.name ++ o.relocations.map ObjectRelocation.symbol) [] (1, 1)
  let _ ← checkedU32 symbols
  let offset ← ((List.range o.sections.length).filterMap fun i => counts.get i).foldlM
    (preflightTable limit 24) offset
  let offset ← preflightTable limit 24 offset symbols
  let names ← metadataNames.foldlM (fun names name => checkedNameEnd names (asBytes name).length)
    names
  let offset ← advance offset strings
  let offset ← advance offset names
  let headers ← checkedTableBytes sectionCount 64 limit
  let aligned ← alignUp offset 8
  let total ← advance aligned headers
  let _ ← checkedOutputSize total limit
  -- The records of the writer for a section header, a symbol and an output symbol.
  let _ ← checkedTableBytes sectionCount 64 wordMax
  let _ ← checkedTableBytes symbols 56 wordMax
  let _ ← checkedTableBytes symbols 24 wordMax
  return ()

/-! ## Records -/

def ident : List UInt8 := [0x7f, 0x45, 0x4c, 0x46, 2, 1, 1, 0, 0, 0, 0, 0, 0, 0, 0, 0]

/-- The ELF header of an object. -/
def headerBytes (machine flags sectionOffset sectionCount stringSection : Nat) : List UInt8 :=
  ident ++ leBytes 2 1 ++ leBytes 2 machine ++ leBytes 4 1 ++ leBytes 8 0 ++ leBytes 8 0 ++
    leBytes 8 sectionOffset ++ leBytes 4 flags ++ leBytes 2 64 ++ leBytes 2 0 ++ leBytes 2 0 ++
    leBytes 2 64 ++ leBytes 2 sectionCount ++ leBytes 2 stringSection

def ElfSectionHeader.blank : ElfSectionHeader := ⟨0, 0, 0, 0, 0, 0, 0, 0, 0, 0⟩

def ElfSectionHeader.toBytes (h : ElfSectionHeader) : List UInt8 :=
  leBytes 4 h.name ++ leBytes 4 h.kind ++ leBytes 8 h.flags ++ leBytes 8 h.address ++
    leBytes 8 h.offset ++ leBytes 8 h.size ++ leBytes 4 h.link ++ leBytes 4 h.info ++
    leBytes 8 h.align ++ leBytes 8 h.entrySize

structure ElfSym where
  name : Nat
  info : Nat
  other : Nat
  shndx : Nat
  value : Nat
  size : Nat
  deriving DecidableEq

def ElfSym.toBytes (s : ElfSym) : List UInt8 :=
  leBytes 4 s.name ++ leBytes 1 s.info ++ leBytes 1 s.other ++ leBytes 2 s.shndx ++
    leBytes 8 s.value ++ leBytes 8 s.size

structure ElfRela where
  offset : Nat
  info : Nat
  addend : Int64
  deriving DecidableEq

def ElfRela.toBytes (r : ElfRela) : List UInt8 :=
  leBytes 8 r.offset ++ leBytes 8 r.info ++ leBytes 8 r.addend.toUInt64.toNat

/-- A section header and what it has in the file. -/
abbrev Entry := ElfSectionHeader × Option (List UInt8)

/-! ## Sections -/

/-- The section-name table, and the section headers from the null header on. -/
structure Tables where
  names : List UInt8
  entries : List Entry

def sectionTypeAndFlags : SectionKind → Nat × Nat
  | .text => (1, 6)
  | .data => (1, 3)
  | .readOnlyData => (1, 2)
  | .bss => (8, 3)

def addSection (t : Tables) (s : Section) : Except ObjectError Tables := do
  let (name, names) ← pushName t.names s.name
  let (kind, flags) := sectionTypeAndFlags s.kind
  -- Validation says that there is a size.
  let header : ElfSectionHeader :=
    { ElfSectionHeader.blank with
      name := name, kind := kind, flags := flags, size := s.memorySize.getD 0
      align := max s.align.toNat 1 }
  return { names := names, entries := t.entries ++ [(header, if kind = 8 then none else s.data)] }

/-- The index of the header of a section; the null header comes first. -/
def headerIndex (sectionIndex : Nat) : Nat := sectionIndex + 1

/-! ## Symbols -/

def undefinedSymbol (name : String) : ObjectSymbol where
  kind := .noType
  name := name
  sectionIndex := none
  value := 0
  size := 0
  binding := .global
  visibility := .default

/-- The symbols of the output: one for each undeclared name comes last. -/
def outputSymbols (o : ObjectFile) : List ObjectSymbol :=
  o.symbols ++ (undeclared o).map undefinedSymbol

/-- Local symbols come first. -/
def orderedSymbols (symbols : List ObjectSymbol) : List ObjectSymbol :=
  (symbols.filter fun s => s.binding = .local) ++ symbols.filter fun s => s.binding ≠ .local

def firstGlobalIndex (symbols : List ObjectSymbol) : Nat :=
  1 + (symbols.takeWhile fun s => s.binding = .local).length

def bindingToStb : SymbolBinding → Nat
  | .local => 0
  | .global => 1
  | .weak => 2

def symbolType : SymbolKind → Nat
  | .noType => 0
  | .object => 1
  | .function => 2

def visibilityToStv : SymbolVisibility → Nat
  | .default => 0
  | .hidden => 2

/-- The string table, the symbol table, and the index of each name in it. -/
structure SymbolTables where
  strings : List UInt8
  records : List ElfSym
  indexByName : AssocMap String Nat

/-- The header index of the section of a symbol. -/
def sectionOf (sections : Nat) (symbol : ObjectSymbol) : Nat :=
  match symbol.sectionIndex with
  | some index => if index < sections then headerIndex index else 0
  | none => 0

def addSymbol (sections : Nat) (t : SymbolTables) (symbol : ObjectSymbol) :
    Except ObjectError SymbolTables := do
  let (name, strings) ← if symbol.name = "" then pure (0, t.strings)
    else pushName t.strings symbol.name
  let shndx := sectionOf sections symbol
  require (shndx < 2 ^ 16) (writeError .overflow)
  let index := t.records.length
  return {
    strings := strings
    records := t.records ++
      [{ name := name, info := (bindingToStb symbol.binding <<< 4) ||| symbolType symbol.kind
         other := visibilityToStv symbol.visibility, shndx := shndx, value := symbol.value.toNat
         size := symbol.size.toNat }]
    indexByName := if (t.indexByName.get symbol.name).isSome then t.indexByName
      else t.indexByName.insert symbol.name index }

def buildSymbols (o : ObjectFile) (limit : Nat) : Except ObjectError SymbolTables := do
  let ordered := orderedSymbols (outputSymbols o)
  let count ← advance ordered.length 1
  let _ ← checkedU32 count
  let _ ← checkedTableBytes count 24 limit
  ordered.foldlM (addSymbol o.sections.length) ⟨[0], [⟨0, 0, 0, 0, 0, 0⟩], []⟩

/-! ## Relocations -/

def relaRecord (target : ObjectTarget) (indexByName : AssocMap String Nat)
    (r : ObjectRelocation) : Except ObjectError ElfRela := do
  let index ← orThrow (indexByName.get r.symbol) (writeError .invalidRelocation)
  let symbol ← checkedU32 index
  let encoding ← orThrow (r.kind.encoding target) (writeError .invalidRelocation)
  return { offset := r.offset, info := (symbol <<< 32) ||| encoding.1, addend := r.addend }

/-- The relocations of a section, in input order. -/
def relocationsOf (o : ObjectFile) (sectionIndex : Nat) : List ObjectRelocation :=
  o.relocations.filter fun r => r.sectionIndex = sectionIndex

/-- The relocation table of a section, if it has relocations. -/
def addRelocations (o : ObjectFile) (limit symbolTable : Nat) (indexByName : AssocMap String Nat)
    (t : Tables) (e : Section × Nat) : Except ObjectError Tables := do
  let (s, index) := e
  let relocations := relocationsOf o index
  if relocations = [] then return t
  else do
    let (name, names) ← pushName t.names (".rela" ++ s.name)
    let _ ← checkedTableBytes relocations.length 24 limit
    let records ← relocations.mapM (relaRecord o.target indexByName)
    let data := records.flatMap ElfRela.toBytes
    let target ← checkedU32 (headerIndex index)
    let header : ElfSectionHeader :=
      { ElfSectionHeader.blank with
        name := name, kind := 4, flags := 0x40, info := target, align := 8, entrySize := 24
        size := data.length, link := symbolTable }
    return { names := names, entries := t.entries ++ [(header, some data)] }

/-! ## Placement -/

/-- The sections at their offsets, and the offset behind the last one. -/
def place : Nat → List Entry → Except ObjectError (List Entry × Nat)
  | current, [] => return ([], current)
  | current, (h, payload) :: entries => do
      let offset ← alignUp current (max h.align 1)
      if h.kind = 8 then do
        let (rest, stop) ← place current entries
        return (({ h with offset := offset }, payload) :: rest, stop)
      else do
        let size := (payload.map List.length).getD 0
        let next ← advance offset size
        let (rest, stop) ← place next entries
        return (({ h with offset := offset, size := size }, payload) :: rest, stop)

/-- Zeros up to `offset`. -/
def padTo (out : List UInt8) (offset : Nat) : List UInt8 :=
  out ++ List.replicate (offset - out.length) 0

/-- What the sections have in the file, each at its offset. -/
def emitPayloads : List UInt8 → List Entry → List UInt8
  | out, [] => out
  | out, (h, payload) :: entries =>
      if h.kind = 8 then emitPayloads out entries
      else emitPayloads (padTo out h.offset ++ payload.getD []) entries

/-! ## The object -/

/-- The headers behind those of the sections: relocation tables, the symbol table, its string
table and the section-name table. -/
def addMetadata (o : ObjectFile) (limit : Nat) (symbols : SymbolTables) (t : Tables) :
    Except ObjectError Tables := do
  let tables := (o.sections.zipIdx.filter fun e => relocationsOf o e.2 ≠ []).length
  let symbolTable := t.entries.length + tables
  let t ← o.sections.zipIdx.foldlM (addRelocations o limit symbolTable symbols.indexByName) t
  let (name, names) ← pushName t.names ".symtab"
  let _ ← checkedTableBytes symbols.records.length 24 limit
  let data := symbols.records.flatMap ElfSym.toBytes
  let info ← checkedU32 (firstGlobalIndex (orderedSymbols (outputSymbols o)))
  let link ← checkedU32 (symbolTable + 1)
  let symtab : ElfSectionHeader :=
    { ElfSectionHeader.blank with
      name := name, kind := 2, info := info, align := 8, entrySize := 24, size := data.length
      link := link }
  let (name, names) ← pushName names ".strtab"
  let strtab : ElfSectionHeader :=
    { ElfSectionHeader.blank with
      name := name, kind := 3, align := 1, size := symbols.strings.length }
  let _ ← checkedU32 symbolTable
  let (name, names) ← pushName names ".shstrtab"
  let shstrtab : ElfSectionHeader :=
    { ElfSectionHeader.blank with name := name, kind := 3, align := 1, size := names.length }
  return {
    names := names
    entries := t.entries ++
      [(symtab, some data), (strtab, some symbols.strings), (shstrtab, some names)] }

/-- The number of sections with relocations. -/
def relocationSections (o : ObjectFile) : Nat :=
  (o.relocations.map ObjectRelocation.sectionIndex).eraseDups.length

def writeElf (o : ObjectFile) (limit : Nat) : Except ObjectError (List UInt8) := do
  let machine ← o.target.elfMachine.mapError fun _ => writeError .invalidTarget
  let _ ← checkedSectionCount o.sections.length (relocationSections o)
  preflight o limit
  o.validate
  let t ← o.sections.foldlM addSection ⟨[0], [(ElfSectionHeader.blank, none)]⟩
  let symbols ← buildSymbols o limit
  let t ← addMetadata o limit symbols t
  let (entries, stop) ← place 64 (t.entries.drop 1)
  let sectionOffset ← alignUp stop 8
  let bytes ← checkedTableBytes t.entries.length 64 limit
  let total ← advance sectionOffset bytes
  let _ ← checkedOutputSize total limit
  let count ← checkedSectionCount o.sections.length (relocationSections o)
  let stringSection := t.entries.length - 1
  require (stringSection < 2 ^ 16) (writeError .overflow)
  let out := emitPayloads (headerBytes machine o.target.elfFlags sectionOffset count stringSection)
    entries
  return padTo out sectionOffset ++
    ((t.entries.take 1 ++ entries).flatMap fun e => e.1.toBytes)

end Whale.Elf
