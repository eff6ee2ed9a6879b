import Whale.Lib.Text
import Whale.Object.Elf.View

set_option autoImplicit false

/-! # Reading ELF objects

The importer of relocatable AMD64 objects. Records and names are charged to a budget as they are
inspected and copied. -/

namespace Whale.Elf

structure ObjectReadUsage where
  inputBytes : Nat
  sections : Nat
  programHeaders : Nat
  symbols : Nat
  relocations : Nat
  payloadBytes : Nat
  stringBytes : Nat
  work : Nat
  deriving DecidableEq

structure Budget where
  limits : ObjectReadLimits
  work : Nat
  strings : Nat
  payload : Nat
  deriving DecidableEq

abbrev Reading := EStateM ReadAbort Budget

namespace Reading

def fail {α : Type} (e : ObjectError) : Reading α := throw (.error e)

def check (c : Prop) [Decidable c] (e : ObjectError) : Reading Unit :=
  require c (ReadAbort.error e)

def get {α : Type} (o : Option α) (e : ObjectError) : Reading α := orThrow o (ReadAbort.error e)

/-- What the view answers. -/
def view {α : Type} (x : Except ReadAbort α) : Reading α := orRaise x id

/-- The value at an index that must be there. -/
def index {α : Type} (o : Option α) : Reading α := orThrow o ReadAbort.panic

/-- An error of `x` with a context added. -/
def within {α : Type} (context : ObjectError → ObjectError) (x : Reading α) : Reading α := fun b =>
  match x b with
  | .error (.error e) b => .error (.error (context e)) b
  | r => r

end Reading

/-! ## The budget -/

def charge (n : Nat) : Reading Unit := do
  let b ← get
  let work ← Reading.get (checkedAdd b.work n) (limitError .work)
  set { b with work := work }
  Reading.check (work ≤ b.limits.maxWork) (limitError .work)

def chargeStrings (n : Nat) : Reading Unit := do
  let b ← get
  let strings ← Reading.get (checkedAdd b.strings n) (limitError .stringBytes)
  set { b with strings := strings }
  Reading.check (strings ≤ b.limits.maxStringBytes) (limitError .stringBytes)

def chargePayload (n : Nat) : Reading Unit := do
  let b ← get
  let payload ← Reading.get (checkedAdd b.payload n) (limitError .payloadBytes)
  set { b with payload := payload }
  Reading.check (payload ≤ b.limits.maxPayloadBytes) (limitError .payloadBytes)

/-- A copy of a name. -/
def own (s : String) : Reading String := do
  chargeStrings s.utf8ByteSize
  charge s.utf8ByteSize
  return s

/-- The name at `index` of a string table. -/
def readName (view : ElfView) (table : ElfSectionHeader) (index : Nat) : Reading String := do
  Reading.check (table.kind = 3 ∧ index < table.size) ((readError .invalidName).at table.offset)
  let start ← Reading.get (checkedAdd table.offset index) (readError .overflow)
  let tail ← Reading.view (view.range start (table.size - index))
  let b ← get
  let remaining := b.limits.maxWork - b.work
  match (tail.take (remaining + 1)).findIdx? (· == 0) with
  | none =>
      if tail.length > remaining then Reading.fail (limitError .work)
      else Reading.fail ((readError .invalidName).at start)
  | some stop => do
      let length ← Reading.view (plus stop 1)
      charge length
      chargeStrings stop
      Reading.get (ofBytes (tail.take stop)) ((readError .invalidName).at start)

/-! ## Sections -/

/-- A string table must begin and end with a zero byte. -/
def isStringTable (bytes : List UInt8) : Prop := bytes.head? = some 0 ∧ bytes.getLast? = some 0

instance (bytes : List UInt8) : Decidable (isStringTable bytes) :=
  inferInstanceAs (Decidable (_ ∧ _))

def checkHeader (view : ElfView) (index : Nat) (s : ElfSectionHeader) : Reading Unit :=
  if index = 0 then do
    let bytes ← Reading.view (view.range view.header.sectionOffset 64)
    Reading.check (bytes.all (· == 0)) ((readError .invalidSection).section 0)
  else if s.kind = 0 then return ()
  else do
    Reading.check (s.align = 0 ∨ isPowerOfTwo s.align = true)
      ((readError .invalidAlignment).section index)
    Reading.check (s.address = 0) ((readError .invalidSection).section index)
    -- The offset of a section without bytes in the file is conceptual.
    if s.kind = 8 then return ()
    else do
      let _ ← Reading.view (view.range s.offset s.size)
      return ()

def readHeaders (view : ElfView) : Reading (List ElfSectionHeader) :=
  (List.range view.header.sectionCount).mapM fun index => do
    charge 1
    let s ← Reading.view (view.section index)
    checkHeader view index s
    return s

/-- The variables of the loop over the sections. -/
structure Collected where
  sections : List Section
  /-- The payload section of each section header. -/
  mapping : List (Option Nat)
  symbolTable : Option Nat
  deriving DecidableEq

def payloadKind (kind flags : Nat) : Option SectionKind :=
  match kind, flags with
  | 1, 6 => some .text
  | 1, 3 => some .data
  | 1, 2 => some .readOnlyData
  | 8, 3 => some .bss
  | _, _ => none

def readPayload (view : ElfView) (s : ElfSectionHeader) : Reading (List UInt8) :=
  if s.kind = 8 then return []
  else do
    chargePayload s.size
    charge s.size
    Reading.view (view.range s.offset s.size)

def collectSection (view : ElfView) (names : ElfSectionHeader) (c : Collected)
    (e : ElfSectionHeader × Nat) : Reading Collected :=
  let (s, index) := e
  let at_ (kind : ObjectErrorKind) := (readError kind).section index
  if s.kind = 0 then return c
  else do
    let name ← Reading.within (·.section index) (readName view names s.name)
    if s.kind = 1 ∨ s.kind = 8 then do
      let kind ← Reading.get (payloadKind s.kind s.flags) (at_ .unsupported)
      Reading.check (s.link = 0 ∧ s.info = 0 ∧ s.entrySize = 0) (at_ .unsupported)
      let data ← readPayload view s
      let name ← own name
      return { c with
        mapping := c.mapping.set index (some c.sections.length)
        sections := c.sections ++
          [{ name := name, kind := kind, data := data
             zeroFill := if s.kind = 8 then UInt64.ofNat s.size else 0
             align := UInt64.ofNat s.align }] }
    else if s.kind = 2 then do
      Reading.check (c.symbolTable = none) (at_ .unsupported)
      return { c with symbolTable := some index }
    else if s.kind = 3 then do
      Reading.check (s.flags = 0) (at_ .invalidName)
      let bytes ← Reading.view (view.range s.offset s.size)
      Reading.check (isStringTable bytes) (at_ .invalidName)
      return c
    else if s.kind = 4 then do
      Reading.check (s.flags &&& (wordMax ^^^ 0x40) = 0) (at_ .unsupported)
      return c
    else Reading.fail (at_ .unsupported)

/-! ## Symbols -/

structure RawSymbol where
  name : String
  kind : Nat
  binding : Nat
  visibility : Nat
  «section» : Nat
  value : Nat
  size : Nat
  deriving DecidableEq

/-- The record at `pos`. -/
def readRecord (view : ElfView) (strings : ElfSectionHeader) (pos : Nat) : Reading RawSymbol := do
  let offset ← Reading.view (view.u32 pos)
  let name ← readName view strings offset
  -- Two bytes: the binding and the kind, and the visibility.
  let info ← Reading.view (plus pos 4 >>= view.u16)
  return {
    name := name
    kind := info % 16
    binding := info / 16 % 16
    visibility := info / 256
    «section» := ← Reading.view (plus pos 6 >>= view.u16)
    value := ← Reading.view (plus pos 8 >>= view.u64)
    size := ← Reading.view (plus pos 16 >>= view.u64) }

/-- The position of record `n` of a table of records of 24 bytes. -/
def recordAt (table : ElfSectionHeader) (n : Nat) : Except ReadAbort Nat := do
  let offset ← times n 24
  plus table.offset offset

def readRaw (view : ElfView) (symtab strings : ElfSectionHeader) (index : Nat) :
    Reading RawSymbol := do
  charge 1
  let pos ← Reading.view (recordAt symtab index)
  let symbol ← readRecord view strings pos
  if index = 0 then do
    let bytes ← Reading.view (view.range pos 24)
    Reading.check (bytes.all (· == 0)) ((readError .invalidSymbol).at pos)
    return symbol
  else do
    Reading.check (index < symtab.info ↔ symbol.binding = 0) ((readError .invalidSymbol).at pos)
    return symbol

def readBinding : Nat → Option SymbolBinding
  | 0 => some .local
  | 1 => some .global
  | 2 => some .weak
  | _ => none

def readVisibility : Nat → Option SymbolVisibility
  | 0 => some .default
  | 2 => some .hidden
  | _ => none

def readKind : Nat → Option SymbolKind
  | 0 => some .noType
  | 1 => some .object
  | 2 => some .function
  | _ => none

/-- The name with as many dollar signs behind it as it takes to be new. A try with a name that
is taken costs at least one, so that what is left of the work is fuel enough. -/
def freshName (taken : List String) : Nat → String → Reading String
  | 0, name =>
      if name ∈ taken then do
        let length ← Reading.view (plus name.utf8ByteSize 1)
        charge length
        throw .panic
      else return name
  | fuel + 1, name =>
      if name ∈ taken then do
        let length ← Reading.view (plus name.utf8ByteSize 1)
        charge length
        freshName taken fuel (name.push '$')
      else return name

/-- The variables of the loop over the symbols. -/
structure Resolved where
  symbols : List ObjectSymbol
  /-- The symbol of each symbol record. -/
  mapping : List (Option Nat)
  helperNames : List String
  deriving DecidableEq

def Resolved.push (r : Resolved) (index : Nat) (symbol : ObjectSymbol) : Resolved :=
  { r with
    mapping := r.mapping.set index (some r.symbols.length), symbols := r.symbols ++ [symbol] }

def resolveSymbol (mapping : List (Option Nat)) (usedNames : List String) (r : Resolved)
    (e : RawSymbol × Nat) : Reading Resolved := do
  let (symbol, index) := e
  let at_ (kind : ObjectErrorKind) := (readError kind).symbol symbol.name
  let binding ← Reading.get (readBinding symbol.binding) (at_ .unsupported)
  let visibility ← Reading.get (readVisibility symbol.visibility) (at_ .unsupported)
  if symbol.kind = 4 then do
    Reading.check (binding = .local ∧ symbol.section = 0xfff1 ∧ symbol.value = 0 ∧
      symbol.size = 0) (at_ .invalidSymbol)
    -- The name of a file is never a definition.
    return r
  else if symbol.kind = 3 then do
    Reading.check (binding = .local ∧ visibility = .default ∧ symbol.value = 0 ∧
      symbol.size = 0) (at_ .invalidSymbol)
    let owner ← Reading.get mapping[symbol.section]?.join (at_ .invalidSection)
    let b ← get
    let name ← freshName (usedNames ++ r.helperNames) (b.limits.maxWork - b.work)
      s!"__whale_elf_section_{index}"
    let cost ← Reading.get (checkedMul name.utf8ByteSize 2) (limitError .stringBytes)
    chargeStrings cost
    return { r.push index
      { kind := .noType, name := name, sectionIndex := some owner
        value := UInt64.ofNat symbol.value, size := UInt64.ofNat symbol.size, binding := binding
        visibility := visibility } with helperNames := name :: r.helperNames }
  else do
    let kind ← Reading.get (readKind symbol.kind) (at_ .unsupported)
    let owner ← if symbol.section = 0 then pure none
      else some <$> Reading.get mapping[symbol.section]?.join (at_ .unsupported)
    let name ← own symbol.name
    return r.push index
      { kind := kind, name := name, sectionIndex := owner, value := UInt64.ofNat symbol.value
        size := UInt64.ofNat symbol.size, binding := binding, visibility := visibility }

/-! ## Relocations -/

def relocKind : Nat → Option RelocKind
  | 1 => some .absolute64
  | 10 => some .absolute32
  | 11 => some .signedAbsolute32
  | 2 => some .relative32
  | 15 => some .relative8
  | 9 => some .gotPcRel
  | 4 => some .plt32
  | _ => none

/-- Relocation `n` of the table with header index `index`, for section `target`. -/
def readRelocation (view : ElfView) (symbols : Resolved) (table : ElfSectionHeader)
    (index target n : Nat) : Reading ObjectRelocation := do
  charge 1
  let pos ← Reading.view (recordAt table n)
  let place ← Reading.view (plus pos 8)
  let info ← Reading.view (view.u64 place)
  let symbol ← Reading.get symbols.mapping[info / 2 ^ 32]?.join
    (((readError .invalidRelocation).at place).section index)
  let kind ← Reading.get (relocKind (info % 2 ^ 32))
    (((readError .unsupported).at place).section index)
  let offset ← Reading.view (view.u64 pos)
  let symbol ← Reading.index symbols.symbols[symbol]?
  let name ← own symbol.name
  let addend ← Reading.view (plus pos 16 >>= view.i64)
  return {
    sectionIndex := target, offset := offset, symbol := name, addend := addend, kind := kind }

def readRelocations (view : ElfView) (limits : ObjectReadLimits) (mapping : List (Option Nat))
    (symbolTable : Nat) (symbols : Resolved) (relocations : List ObjectRelocation)
    (e : ElfSectionHeader × Nat) : Reading (List ObjectRelocation) := do
  let (s, index) := e
  let at_ (kind : ObjectErrorKind) := (readError kind).section index
  Reading.check (s.entrySize = 24 ∧ s.size % 24 = 0 ∧ s.link = symbolTable) (at_ .invalidRelocation)
  let target ← Reading.get mapping[s.info]?.join (at_ .invalidRelocation)
  let count := s.size / 24
  let total ← Reading.get (checkedAdd relocations.length count) (limitError .relocations)
  Reading.check (total ≤ limits.maxRelocations) (limitError .relocations)
  let new ← (List.range count).mapM (readRelocation view symbols s index target)
  return relocations ++ new

/-! ## The object -/

/-- The symbol table and its string table, and the number of symbols. -/
def symbolTables (limits : ObjectReadLimits) (headers : List ElfSectionHeader)
    (symbolTable : Option Nat) :
    Reading (Nat × ElfSectionHeader × ElfSectionHeader × Nat) := do
  let index ← Reading.get symbolTable (readError .invalidSymbol)
  let at_ (kind : ObjectErrorKind) := (readError kind).section index
  let symtab ← Reading.index headers[index]?
  Reading.check (symtab.flags = 0 ∧ symtab.entrySize = 24 ∧ symtab.size % 24 = 0 ∧
    symtab.link < headers.length) (at_ .invalidSymbol)
  let strings ← Reading.index headers[symtab.link]?
  Reading.check (strings.kind = 3) (at_ .invalidSymbol)
  let count := symtab.size / 24
  Reading.check (count ≠ 0 ∧ count ≤ limits.maxSymbols) (limitError .symbols)
  Reading.check (symtab.info ≠ 0 ∧ symtab.info ≤ count) (at_ .invalidSymbol)
  return (index, symtab, strings, count)

def readSymbols (view : ElfView) (mapping : List (Option Nat))
    (symtab strings : ElfSectionHeader) (count : Nat) : Reading Resolved := do
  let raw ← (List.range count).mapM (readRaw view symtab strings)
  let usedNames := (raw.filter fun s => s.kind ≠ 3 ∧ s.kind ≠ 4).map RawSymbol.name
  (raw.zipIdx.drop 1).foldlM (resolveSymbol mapping usedNames) ⟨[], List.replicate count none, []⟩

def readObject (view : ElfView) (limits : ObjectReadLimits) :
    Reading (ObjectFile × Nat × Nat) := do
  let h := view.header
  Reading.check (h.kind = 1) ((readError .unsupported).at 16)
  Reading.check (h.entry = 0 ∧ h.programCount = 0 ∧ h.programOffset = 0)
    (readError .invalidEncoding)
  Reading.check (h.sectionCount ≠ 0 ∧ h.stringSection ≠ 0) (readError .invalidSection)
  let headers ← readHeaders view
  let names ← Reading.index headers[h.stringSection]?
  Reading.check (names.kind = 3) ((readError .invalidName).section h.stringSection)
  let bytes ← Reading.view (view.range names.offset names.size)
  Reading.check (isStringTable bytes) ((readError .invalidName).section h.stringSection)
  let c ← (headers.zipIdx.drop 1).foldlM (collectSection view names)
    ⟨[], List.replicate h.sectionCount none, none⟩
  let (symbolTable, symtab, strings, count) ← symbolTables limits headers c.symbolTable
  let symbols ← readSymbols view c.mapping symtab strings count
  let relocations ← (headers.zipIdx.filter fun e => e.1.kind = 4).foldlM
    (readRelocations view limits c.mapping symbolTable symbols) []
  let object : ObjectFile :=
    { target := ObjectTarget.x86_64WhaleLinux, sections := c.sections, symbols := symbols.symbols
      relocations := relocations }
  match object.validate with
  | .error e => Reading.fail e
  | .ok () => return (object, count, relocations.length)

def readElfWithUsage (bytes : List UInt8) (limits : ObjectReadLimits) :
    Except ReadAbort (ObjectFile × ObjectReadUsage) := do
  let view ← ElfView.parse bytes limits
  match readObject view limits ⟨limits, 0, 0, 0⟩ with
  | .error e _ => throw e
  | .ok (object, symbols, relocations) b =>
      return (object,
        { inputBytes := bytes.length, sections := view.header.sectionCount
          programHeaders := view.header.programCount, symbols := symbols
          relocations := relocations, payloadBytes := b.payload, stringBytes := b.strings
          work := b.work })

def readElf (bytes : List UInt8) (limits : ObjectReadLimits) : Except ReadAbort ObjectFile := do
  let (object, _) ← readElfWithUsage bytes limits
  return object

end Whale.Elf
