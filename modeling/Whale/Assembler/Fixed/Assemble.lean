import Whale.Assembler.Fixed.Operand
import Whale.Lib.Bytes

set_option autoImplicit false

/-! # The fixed-width assembler

Two passes over a source of labels, directives and instructions. The first one gives every
record its section and its offset, the second one encodes the records; every instruction has
four bytes. -/

namespace Whale.Assembler

open Whale.Text

/-- What an instruction set defines: its name, whether `#` starts a comment, and the words of
its instructions. -/
structure FixedIsa where
  id : String
  hashComments : Bool
  encode : Instruction → Context → Except AsmError (Word × Context)

inductive Action where
  | instruction (inst : Instruction)
  | data (width : Nat) (values : List Text)
  | zero (size : Nat)
  | align (alignment : Nat)

structure Record where
  sectionIndex : Nat
  offset : Nat
  span : SourceSpan
  action : Action

/-- The state of the first pass. -/
structure Layout where
  sections : List AsmSection
  sectionNames : AssocMap String Nat
  sizes : List Nat
  selected : Nat
  symbols : AssocMap String Symbol
  globals : AssocMap String SourceSpan
  records : List Record
  materialized : Nat

namespace Layout

def blankSection (name : String) (kind : AsmSectionKind) : AsmSection where
  name := name
  kind := kind
  align := if kind = .text then 4 else 1
  data := []
  zeroFill := 0
  relocs := []

def start : Layout where
  sections := [blankSection ".text" .text]
  sectionNames := [(".text", 0)]
  sizes := [0]
  selected := 0
  symbols := []
  globals := []
  records := []
  materialized := 0

/-- The size of the selected section so far. -/
def size (l : Layout) : Nat := l.sizes.getD l.selected 0

/-- The kind of the selected section. -/
def kind (l : Layout) : AsmSectionKind :=
  (l.sections[l.selected]?.map AsmSection.kind).getD .text

/-! ## Labels and directives -/

/-- The labels at the start of the text, each with a colon, and the rest. -/
def defineLabels (sourceName : String) (span : SourceSpan) :
    Nat → Text → Layout → Except AsmError (Text × Layout)
  | 0, text, l => .ok (text, l)
  | fuel + 1, text, l =>
      match text.span (· ≠ ':') with
      | (_, []) => .ok (text, l)
      | (before, _ :: rest) => do
          identifier (trim before)
          require (l.symbols.length < 65536) (failure "symbol count exceeds 65536")
          let name := String.ofList (trim before)
          match AssocMap.get name l.symbols with
          | some previous =>
              throw ((error (.duplicateSymbol name)).at' sourceName span (some previous.span))
          | none =>
              let symbol : Symbol :=
                { sectionIndex := some l.selected, offset := l.size, span := span }
              defineLabels sourceName span fuel (trim rest)
                { l with symbols := AssocMap.insert name symbol l.symbols }

def selectSection (l : Layout) (name : Text) : Except AsmError Layout := do
  identifier name
  let name := String.ofList name
  match AssocMap.get name l.sectionNames with
  | some index => return { l with selected := index }
  | none =>
      let index := l.sections.length
      require (index < 4096) (failure "section count exceeds 4096")
      return { l with
        sections := l.sections ++ [blankSection name (.defaultForName name)]
        sectionNames := AssocMap.insert name index l.sectionNames
        sizes := l.sizes ++ [0]
        selected := index }

/-- A global name, which `.extern` defines outside of all sections. -/
def declare (external : Bool) (span : SourceSpan) (l : Layout) (name : Text) :
    Except AsmError Layout := do
  identifier name
  require (l.globals.length < 65536) (failure "global count exceeds 65536")
  let name := String.ofList name
  let l := { l with globals := AssocMap.insert name span l.globals }
  if external then
    match AssocMap.get name l.symbols with
    | some previous =>
        require (previous.sectionIndex = none) (failure "external symbol is already defined")
        return l
    | none =>
        require (l.symbols.length < 65536) (failure "symbol count exceeds 65536")
        let symbol : Symbol := { sectionIndex := none, offset := 0, span := span }
        return { l with symbols := AssocMap.insert name symbol l.symbols }
  else return l

def dataWidth (mnemonic : String) : Option Nat :=
  match mnemonic with
  | ".byte" => some 1
  | ".hword" => some 2
  | ".short" => some 2
  | ".word" => some 4
  | ".long" => some 4
  | ".quad" => some 8
  | _ => none

/-- The alignment of a directive whose operand is an alignment or its logarithm. -/
def alignmentOf (mnemonic : String) (value : Int) : Except AsmError Nat := do
  require (0 ≤ value ∧ value < 2 ^ 64) (failure "invalid alignment")
  if mnemonic = ".balign" then
    require (isPowerOfTwo value.toNat = true)
      (failure "alignment must be a nonzero power of two")
    return value.toNat
  else
    require (value < 64) (failure "alignment overflow")
    return 2 ^ value.toNat

/-- The action of a line; an alignment raises that of the section. -/
def action (l : Layout) (mnemonic : String) (tail : Text) :
    Except AsmError (Action × Layout) :=
  match dataWidth mnemonic with
  | some width => do
      let values ← operands tail
      require (values ≠ []) (failure "data directive requires values")
      return (.data width values, l)
  | none =>
      if mnemonic = ".zero" ∨ mnemonic = ".space" then do
        let size ← integer tail
        require (0 ≤ size ∧ size < 2 ^ 64) (failure "invalid reservation size")
        return (.zero size.toNat, l)
      else if mnemonic = ".balign" ∨ mnemonic = ".p2align" ∨ mnemonic = ".align" then do
        let value ← integer tail
        let alignment ← alignmentOf mnemonic value
        return (.align alignment, { l with
          sections := l.sections.modify l.selected fun s =>
            { s with align := max s.align alignment } })
      else if mnemonic.toList.head? = some '.' then
        .error (error (.unsupportedDirective mnemonic))
      else do
        let operands ← operands tail
        return (.instruction { mnemonic := mnemonic, operands := operands }, l)

/-! ## Records -/

/-- The bytes from `offset` up to the next multiple of the alignment. -/
def padding (alignment offset : Nat) : Nat := (alignment - offset % alignment) % alignment

def actionSize (offset : Nat) : Action → Nat
  | .instruction _ => 4
  | .data width values => width * values.length
  | .zero size => size
  | .align alignment => padding alignment offset

def isReservation : Action → Bool
  | .zero _ => true
  | .align _ => true
  | _ => false

def isInstruction : Action → Bool
  | .instruction _ => true
  | _ => false

/-- Put an action at the end of the selected section. -/
def add (l : Layout) (limits : AssemblyLimits) (span : SourceSpan) (a : Action) :
    Except AsmError Layout := do
  require (l.kind = .bss → isReservation a = true)
    (failure "BSS accepts only labels, alignment and zero reservations")
  require (isInstruction a = true → l.kind = .text ∧ l.size % 4 = 0)
    (failure "instructions require four-byte alignment in a text section")
  let size := actionSize l.size a
  require (size < 2 ^ 64) (failure "data size overflow")
  require (l.size + size < 2 ^ 64) (failure "section size overflow")
  let materialized := if l.kind = .bss then l.materialized else l.materialized + size
  require (l.kind = .bss ∨ materialized ≤ min limits.maxOutputBytes (256 * 1024 * 1024))
    (failure "Assembly output limit exceeded")
  require (l.records.length < 262144) (failure "record count exceeds 262144")
  let record : Record :=
    { sectionIndex := l.selected, offset := l.size, span := span, action := a }
  return { l with
    sizes := l.sizes.set l.selected (l.size + size)
    materialized := materialized
    records := l.records ++ [record] }

/-! ## Lines -/

/-- The text before a comment. -/
def beforeComment (hash : Bool) : Text → Text
  | [] => []
  | c :: cs =>
      if (c = '/' ∧ cs.head? = some '/') ∨ c = ';' ∨ (hash = true ∧ c = '#') then []
      else c :: beforeComment hash cs

def isSectionDirective (mnemonic : String) : Bool :=
  mnemonic = ".text" || mnemonic = ".data" || mnemonic = ".rodata" || mnemonic = ".bss" ||
    mnemonic = ".section"

def isSymbolDirective (mnemonic : String) : Bool :=
  mnemonic = ".global" || mnemonic = ".globl" || mnemonic = ".extern"

/-- A line without its labels. -/
def statement (limits : AssemblyLimits) (span : SourceSpan) (text : Text) (l : Layout) :
    Except AsmError Layout := do
  let mnemonic := String.ofList (lower (text.takeWhile fun c => !isWhite c))
  let tail := trim (text.dropWhile fun c => !isWhite c)
  if isSectionDirective mnemonic = true then
    if mnemonic = ".section" then l.selectSection tail
    else do
      require (tail = []) (failure "section directive takes no operands")
      l.selectSection mnemonic.toList
  else if isSymbolDirective mnemonic = true then do
    let names ← operands tail
    require (names ≠ []) (failure "symbol directive requires a name")
    names.foldlM (declare (mnemonic = ".extern") span) l
  else do
    let (a, l) ← l.action mnemonic tail
    l.add limits span a

def line (hash : Bool) (limits : AssemblyLimits) (sourceName : String) (span : SourceSpan)
    (original : Text) (l : Layout) : Except AsmError Layout := do
  let text := trim (beforeComment hash original)
  let (text, l) ← defineLabels sourceName span text.length text l
  if text = [] then return l else l.statement limits span text

/-- The lines from the byte `start` on. -/
def lines (hash : Bool) (limits : AssemblyLimits) (sourceName : String) :
    List Text → Nat → Nat → Layout → Except AsmError Layout
  | [], _, _, l => .ok l
  | original :: rest, index, start, l => do
      let content := original.rdropWhile fun c => c = '\r' || c = '\n'
      let span : SourceSpan :=
        { start := start, stop := start + Text.size content, line := index + 1, column := 1 }
      let l ← (line hash limits sourceName span original l).mapError
        fun e => e.at' sourceName span none
      lines hash limits sourceName rest (index + 1) (start + Text.size original) l

/-- The entries of a map in the order of their names. -/
def sortedByName {ν : Type} (m : AssocMap String ν) : List (String × ν) :=
  m.mergeSort fun a b => decide (a.1 ≤ b.1)

/-- The first pass. -/
def ofSource (isa : FixedIsa) (sourceName : String) (source : Text) (limits : AssemblyLimits) :
    Except AsmError Layout := do
  require (Text.size source ≤ 8 * 1024 * 1024)
    (failure "assembly input exceeds 8388608 bytes")
  require (limits.maxRelaxIterations ≠ 0) (failure "assembly pass budget must be nonzero")
  let l ← lines isa.hashComments limits sourceName (Text.lines source) 0 0 start
  (sortedByName l.globals).forM fun entry =>
    require ((AssocMap.get entry.1 l.symbols).isSome = true)
      ((error (.undefinedGlobal entry.1)).at' sourceName entry.2 none)
  return l

end Layout

/-! ## Emission -/

def dataReloc (width : Nat) : Except AsmError RelocKind :=
  if width = 4 then .ok .absolute32
  else if width = 8 then .ok .absolute64
  else .error (failure "symbol data requires .word or .quad")

def emitData (symbols : AssocMap String Symbol) (width : Nat) (s : AsmSection) (value : Text) :
    Except AsmError AsmSection := do
  match ← expression value with
  | .number n =>
      require (-2 ^ (width * 8 - 1) ≤ n ∧ n < 2 ^ (width * 8))
        (failure "data value does not fit its width")
      return { s with data := s.data ++ leBytes width (n % 2 ^ 64).toNat }
  | .symbol symbol addend =>
      require ((AssocMap.get symbol symbols).isSome = true) (error (.undefinedData symbol))
      let kind ← dataReloc width
      let relocation : Relocation :=
        { offset := s.data.length, symbol := symbol, kind := kind, addend := addend }
      return { s with relocs := s.relocs ++ [relocation], data := s.data ++ leBytes width 0 }

/-- The place of a record when its section is `s`. -/
def Record.context (r : Record) (isa : FixedIsa) (symbols : AssocMap String Symbol)
    (s : AsmSection) : Context where
  namespaceName := isa.id
  sectionIndex := r.sectionIndex
  offset := r.offset
  symbols := symbols
  relocations := s.relocs

def emitRecord (isa : FixedIsa) (symbols : AssocMap String Symbol) (r : Record)
    (s : AsmSection) : Except AsmError AsmSection :=
  match r.action with
  | .instruction inst => do
      let (word, cx) ← isa.encode inst (r.context isa symbols s)
      return { s with data := s.data ++ leBytes 4 word.toNat, relocs := cx.relocations }
  | .data width values => values.foldlM (emitData symbols width) s
  | .zero size => .ok { s with data := s.data ++ List.replicate size 0 }
  | .align alignment =>
      .ok { s with data := s.data ++ List.replicate (Layout.padding alignment r.offset) 0 }

/-- The second pass; every record has a section, and reserved sections have no bytes. -/
def emitRecords (isa : FixedIsa) (sourceName : String) (symbols : AssocMap String Symbol) :
    List Record → List AsmSection → Except AsmError (List AsmSection)
  | [], sections => .ok sections
  | r :: rs, sections =>
      match sections[r.sectionIndex]? with
      | none => emitRecords isa sourceName symbols rs sections
      | some s =>
          if s.kind = .bss then emitRecords isa sourceName symbols rs sections
          else do
            let s ← (emitRecord isa symbols r s).mapError fun e => e.at' sourceName r.span none
            emitRecords isa sourceName symbols rs (sections.set r.sectionIndex s)

def outputSymbol (globals : AssocMap String SourceSpan) (entry : String × Symbol) :
    AsmSymbol where
  isGlobal := (AssocMap.get entry.1 globals).isSome
  name := entry.1
  sectionIndex := entry.2.sectionIndex
  offset := entry.2.offset
  kind := .noType
  size := 0
  visibility := .default

/-- The sections before the second pass: the reserved ones have their size. -/
def Layout.reserve (l : Layout) : List AsmSection :=
  l.sections.mapIdx fun index s =>
    if s.kind = .bss then { s with zeroFill := l.sizes.getD index 0 } else s

def assemble (isa : FixedIsa) (sourceName : String) (source : Text) (limits : AssemblyLimits) :
    Except AsmError AssemblerOutput := do
  let l ← Layout.ofSource isa sourceName source limits
  let sections ← emitRecords isa sourceName l.symbols l.records l.reserve
  return { sections := sections
           symbols := (Layout.sortedByName l.symbols).map (outputSymbol l.globals) }

end Whale.Assembler
