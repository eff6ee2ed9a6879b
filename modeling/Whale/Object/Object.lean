import Whale.Target
import Whale.Lib.Word

set_option autoImplicit false

/-! # Object files

The in-memory object: sections, symbols and relocations, and the structural validation
every writer and every consumer runs first. The English texts of errors are left out; their
kinds and contexts are the source's. -/

namespace Whale

/-! ## Sections, symbols, relocations -/

inductive SectionKind where
  | text
  | data
  | bss
  | readOnlyData
  deriving DecidableEq

structure Section where
  name : String
  kind : SectionKind
  data : List UInt8
  /-- Additional zero-filled memory without file payload; only valid for BSS. -/
  zeroFill : UInt64
  /-- Zero (no constraint) or a power of two. -/
  align : UInt64
  deriving DecidableEq

inductive SymbolBinding where
  | local
  | global
  | weak
  deriving DecidableEq

inductive SymbolVisibility where
  | default
  | hidden
  deriving DecidableEq

inductive SymbolKind where
  | noType
  | function
  | object
  deriving DecidableEq

structure ObjectSymbol where
  kind : SymbolKind
  name : String
  sectionIndex : Option Nat
  value : UInt64
  size : UInt64
  binding : SymbolBinding
  visibility : SymbolVisibility
  deriving DecidableEq

inductive RelocKind where
  /-- A checked ELF relocation belonging to one explicit machine, never AMD64 fallback. -/
  | targetSpecific (machine : Machine) (code : UInt32)
  /-- Explicit COFF namespace; ELF numeric IDs are never reinterpreted. -/
  | coffSpecific (machine : Machine) (code : UInt16)
  /-- Explicit Mach-O namespace, independent of ELF/COFF numeric IDs. -/
  | machSpecific (machine : Machine) (code : UInt8)
  | absolute64
  | absolute32
  /-- Sign-extended 32-bit absolute value, distinct from unsigned 32. -/
  | signedAbsolute32
  | relative32
  | relative8
  | gotPcRel
  | plt32
  deriving DecidableEq

structure ObjectRelocation where
  sectionIndex : Nat
  offset : Nat
  symbol : String
  addend : Int64
  kind : RelocKind
  deriving DecidableEq

structure ObjectFile where
  target : ObjectTarget
  sections : List Section
  symbols : List ObjectSymbol
  relocations : List ObjectRelocation

/-! ## Errors -/

inductive ObjectErrorKind where
  | invalidTarget
  | invalidAlignment
  | invalidName
  | invalidSection
  | invalidSymbol
  | duplicateSymbol
  | invalidRelocation
  | outOfBounds
  | overflow
  | resourceLimit
  | unsupported
  | truncated
  | invalidEncoding
  deriving DecidableEq

inductive ObjectResource where
  | inputBytes
  | sections
  | programHeaders
  | symbols
  | relocations
  | payloadBytes
  | stringBytes
  | work
  | outputBytes
  deriving DecidableEq

/-- Where an error was found. -/
inductive Context where
  | input (index : Nat)
  | section (index : Nat)
  | fileOffset (offset : Nat)
  | sectionOffset (offset : Nat)
  | symbol (name : String)
  | object (name : String) (member : Option String)
  deriving DecidableEq

structure ObjectError where
  kind : ObjectErrorKind
  phase : String
  contexts : List Context
  resource : Option ObjectResource
  deriving DecidableEq

namespace ObjectError

def new (phase : String) (kind : ObjectErrorKind) : ObjectError where
  kind := kind
  phase := phase
  contexts := []
  resource := none

def context (e : ObjectError) (context : Context) : ObjectError :=
  { e with contexts := e.contexts ++ [context] }

def «section» (e : ObjectError) (index : Nat) : ObjectError := e.context (.section index)

def symbol (e : ObjectError) (name : String) : ObjectError := e.context (.symbol name)

def «at» (e : ObjectError) (offset : Nat) : ObjectError := e.context (.fileOffset offset)

def limit (phase : String) (resource : ObjectResource) : ObjectError :=
  { new phase .resourceLimit with resource := some resource }

end ObjectError

/-! ## Relocation encodings -/

/-- The COFF type and field width of a relocation. -/
def RelocKind.coffEncoding (kind : RelocKind) (machine : Machine) : Option (Nat × Nat) :=
  match machine, kind with
  | .x86_64, .absolute64 => some (1, 8)
  | .x86_64, .absolute32 => some (2, 4)
  | .x86_64, .relative32 | .x86_64, .plt32 => some (4, 4)
  | .aArch64, .absolute64 => some (14, 8)
  | .aArch64, .absolute32 => some (1, 4)
  | .aArch64, .coffSpecific .aArch64 code =>
      if code = 3 ∨ code = 5 ∨ code = 15 then some (code.toNat, 4) else none
  | _, _ => none

/-- The Mach-O type and field width of a relocation. -/
def RelocKind.machEncoding (kind : RelocKind) (machine : Machine) : Option (Nat × Nat) :=
  match machine, kind with
  | .aArch64, .absolute64 => some (0, 8)
  | .aArch64, .machSpecific .aArch64 code =>
      if code = 0 then some (0, 8) else if code = 2 then some (2, 4) else none
  | .x86_64, .absolute64 => some (0, 8)
  | .x86_64, .relative32 => some (1, 4)
  | .x86_64, .plt32 => some (2, 4)
  | .x86_64, .machSpecific .x86_64 code =>
      if code = 0 then some (0, 8)
      else if code = 1 ∨ code = 2 then some (code.toNat, 4)
      else none
  | _, _ => none

/-- The ELF type and field width of a relocation. -/
def RelocKind.elfEncoding (kind : RelocKind) (machine : Machine) : Option (Nat × Nat) :=
  match machine, kind with
  | .x86_64, .absolute64 => some (1, 8)
  | .x86_64, .absolute32 => some (10, 4)
  | .x86_64, .signedAbsolute32 => some (11, 4)
  | .x86_64, .relative32 => some (2, 4)
  | .x86_64, .relative8 => some (15, 1)
  | .x86_64, .gotPcRel => some (9, 4)
  | .x86_64, .plt32 => some (4, 4)
  | .aArch64, .absolute64 => some (257, 8)
  | .aArch64, .absolute32 => some (258, 4)
  | .riscV64, .absolute64 | .loongArch64, .absolute64 => some (2, 8)
  | .riscV64, .absolute32 | .loongArch64, .absolute32 => some (1, 4)
  | .aArch64, .targetSpecific .aArch64 code =>
      if code = 274 ∨ code = 280 ∨ code = 282 ∨ code = 283 then some (code.toNat, 4) else none
  | .riscV64, .targetSpecific .riscV64 code =>
      if code = 16 ∨ code = 17 then some (code.toNat, 4) else none
  | .loongArch64, .targetSpecific .loongArch64 code =>
      if 64 ≤ code ∧ code ≤ 66 then some (code.toNat, 4) else none
  | _, _ => none

/-- The numeric type and the field width of a relocation in an object of the target. -/
def RelocKind.encoding (kind : RelocKind) (target : ObjectTarget) : Option (Nat × Nat) :=
  match target.format with
  | .coff => kind.coffEncoding target.machine
  | .machO64 => kind.machEncoding target.machine
  | .elf64 => kind.elfEncoding target.machine

/-! ## Validation -/

namespace Section

/-- Logical memory extent. Zero-valued BSS data is accepted. -/
def memorySize (s : Section) : Option Nat :=
  if s.kind ≠ .bss ∧ s.zeroFill ≠ 0 then none
  else if s.kind = .bss ∧ s.data.any (· ≠ 0) then none
  else checkedAdd s.data.length s.zeroFill.toNat

def fileSize (s : Section) : Nat := if s.kind = .bss then 0 else s.data.length

/-- The checks on the section at `index`. -/
def validate (s : Section) (index : Nat) : Except ObjectError Unit := do
  let error (kind : ObjectErrorKind) := (ObjectError.new "validate" kind).section index
  require (¬ (s.kind ≠ .bss ∧ s.zeroFill ≠ 0)) (error .invalidSection)
  require (¬ (s.kind = .bss ∧ s.data.any (· ≠ 0) = true)) (error .invalidSection)
  require ((checkedAdd s.data.length s.zeroFill.toNat).isSome = true) (error .overflow)
  require ('\x00' ∉ s.name.toList) (error .invalidName)
  require (s.align = 0 ∨ isPowerOfTwo s.align.toNat = true) (error .invalidAlignment)

end Section

/-- The checks on one symbol; `names` are the names of the symbols before it. -/
def ObjectSymbol.validate (symbol : ObjectSymbol) (sections : List Section)
    (names : List String) : Except ObjectError Unit := do
  let error (kind : ObjectErrorKind) := ObjectError.new "validate" kind
  require ('\x00' ∉ symbol.name.toList) ((error .invalidName).symbol symbol.name)
  require (symbol.name ∉ names) ((error .duplicateSymbol).symbol symbol.name)
  match symbol.sectionIndex with
  | none => return ()
  | some index => do
      let section' ← orThrow sections[index]?
        (((error .invalidSection).section index).symbol symbol.name)
      let stop ← orThrow (checkedAdd symbol.value.toNat symbol.size.toNat)
        ((error .overflow).symbol symbol.name)
      require (∀ size, section'.memorySize = some size → stop ≤ size)
        (((error .outOfBounds).section index).symbol symbol.name)

/-- The checks on one relocation. -/
def ObjectRelocation.validate (relocation : ObjectRelocation) (target : ObjectTarget)
    (sections : List Section) : Except ObjectError Unit := do
  let error (kind : ObjectErrorKind) := ObjectError.new "validate" kind
  require ('\x00' ∉ relocation.symbol.toList)
    ((error .invalidName).symbol relocation.symbol)
  let section' ← orThrow sections[relocation.sectionIndex]?
    ((error .invalidSection).section relocation.sectionIndex)
  require (section'.kind ≠ .bss) ((error .invalidRelocation).section relocation.sectionIndex)
  let encoding ← orThrow (relocation.kind.encoding target)
    ((error .invalidRelocation).section relocation.sectionIndex)
  let stop ← orThrow (checkedAdd relocation.offset encoding.2)
    ((error .overflow).section relocation.sectionIndex)
  require (stop ≤ section'.data.length) ((error .outOfBounds).section relocation.sectionIndex)

namespace ObjectFile

def validateSections : List Section → Nat → Except ObjectError Unit
  | [], _ => .ok ()
  | s :: sections, index => do
      s.validate index
      validateSections sections (index + 1)

def validateSymbols (sections : List Section) :
    List ObjectSymbol → List String → Except ObjectError Unit
  | [], _ => .ok ()
  | symbol :: symbols, names => do
      symbol.validate sections names
      validateSymbols sections symbols (symbol.name :: names)

def validateRelocations (target : ObjectTarget) (sections : List Section) :
    List ObjectRelocation → Except ObjectError Unit
  | [] => .ok ()
  | relocation :: relocations => do
      relocation.validate target sections
      validateRelocations target sections relocations

/-- Validate the in-memory structure before writing or consuming the object. -/
def validate (o : ObjectFile) : Except ObjectError Unit := do
  match o.target.validate with
  | .error _ => throw (ObjectError.new "validate" .invalidTarget)
  | .ok () => pure ()
  validateSections o.sections 0
  validateSymbols o.sections o.symbols []
  validateRelocations o.target o.sections o.relocations

end ObjectFile

end Whale
