import Mathlib.Data.Int.ModEq
import Whale.Lib.Region
import Whale.Lib.Text
import Whale.Object.Undeclared

set_option autoImplicit false

/-! # Reading COFF objects

What the bytes of an object mean by the PE/COFF rules, stated without the writer: a file
header of 20 bytes, section headers of 40, relocations of 10, symbol records of 18 with their
auxiliary records, and the string table behind the symbols. -/

namespace Whale.Coff

/-! ## What is read -/

structure ImageRelocation where
  offset : Nat
  /-- An index into the symbol records, auxiliary ones included. -/
  symbol : Nat
  type : Nat
  /-- The addend in the relocated field. -/
  addend : Int

structure ImageSection where
  name : List UInt8
  kind : SectionKind
  align : Nat
  size : Nat
  data : List UInt8
  relocations : List ImageRelocation

structure ImageSymbol where
  name : List UInt8
  /-- Counted from zero; undefined symbols have none. -/
  sectionIndex : Option Nat
  value : Nat
  /-- Of the external class. -/
  external : Bool
  function : Bool
  /-- The size in the auxiliary record of a function definition. -/
  functionSize : Option Nat
  deriving DecidableEq

/-- An object; a symbol comes with the index of its record. -/
structure Image where
  machine : Machine
  sections : List ImageSection
  symbols : List (Nat × ImageSymbol)

/-! ## Parts -/

/-- A section name; behind a slash stands the offset of a long one. -/
def readSectionName (table name : List UInt8) : Option (List UInt8) :=
  if name.head? = some 0x2f then stringAt table (decimalValue (untilZero name.tail))
  else some (untilZero name)

/-- A symbol name; behind four zero bytes stands the offset of a long one. -/
def readSymbolName (table name : List UInt8) : Option (List UInt8) :=
  if field name 0 4 = 0 then stringAt table (field name 4 4) else some (untilZero name)

def readMachine (code : Nat) : Option Machine :=
  if code = 0x8664 then some .x86_64 else if code = 0xaa64 then some .aArch64 else none

/-- Code, initialized data or uninitialized data; the first of these may be written to or not. -/
def readKind (flags : Nat) : Option SectionKind :=
  if flags.testBit 5 then some .text
  else if flags.testBit 6 then some (if flags.testBit 31 then .data else .readOnlyData)
  else if flags.testBit 7 then some .bss
  else none

/-- Bits 20 to 23 are one more than the logarithm of the alignment. -/
def readAlign (flags : Nat) : Nat := 2 ^ ((flags >>> 20) % 16 - 1)

/-- The addend in the relocated field at the start of `bs`. A 32-bit relative address counts
from the end of the field; instructions hold addends in bit fields, branches in words. -/
def readAddend (machine : Machine) (type : Nat) (bs : List UInt8) : Option Int :=
  let word := BitVec.ofNat 32 (leValue (slice bs 0 4))
  match machine, type with
  | .x86_64, 1 | .aArch64, 14 => some (BitVec.ofNat 64 (leValue (slice bs 0 8))).toInt
  | .x86_64, 2 | .aArch64, 1 => some word.toInt
  | .x86_64, 4 => some (word.toInt - 4)
  | .aArch64, 3 => some ((word.extractLsb' 0 26).toInt * 4)
  | .aArch64, 15 => some ((word.extractLsb' 5 19).toInt * 4)
  | .aArch64, 5 => some (word.extractLsb' 5 19 ++ word.extractLsb' 29 2).toInt
  | _, _ => none

def readRelocation (machine : Machine) (data record : List UInt8) : Option ImageRelocation := do
  let offset := field record 0 4
  let type := field record 8 2
  let addend ← readAddend machine type (data.drop offset)
  return { offset := offset, symbol := field record 4 4, type := type, addend := addend }

/-- The section of a header; it has data in the file unless the address of its data is zero. -/
def readSection (machine : Machine) (bs table header : List UInt8) : Option ImageSection := do
  let name ← readSectionName table (slice header 0 8)
  let kind ← readKind (field header 36 4)
  let size := field header 16 4
  let data := if field header 20 4 = 0 then [] else slice bs (field header 20 4) size
  let relocations ← (List.range (field header 32 2)).mapM fun n =>
    readRelocation machine data (slice bs (field header 24 4 + n * 10) 10)
  return {
    name := name
    kind := kind
    align := readAlign (field header 36 4)
    size := size
    data := data
    relocations := relocations }

/-- Whether a storage class is the external one; the other one is static. -/
def readClass (c : Nat) : Option Bool :=
  if c = 2 then some true else if c = 3 then some false else none

/-- Section numbers count from one; zero is undefined. -/
def readNumber (n : Nat) : Option Nat := if n = 0 then none else some (n - 1)

/-- A symbol record and the auxiliary records behind it. A static symbol with an auxiliary
record is the symbol of a section. -/
def readSymbol (table record aux : List UInt8) : Option (Option ImageSymbol) :=
  if field record 16 1 = 3 ∧ aux ≠ [] then some none
  else do
    let name ← readSymbolName table (slice record 0 8)
    let external ← readClass (field record 16 1)
    return some {
      name := name
      sectionIndex := readNumber (field record 12 2)
      value := field record 8 4
      external := external
      function := decide (field record 14 2 = 0x20)
      functionSize := if aux = [] then none else some (field aux 4 4) }

/-- The symbols from the record `index` on. -/
def readSymbols (table : List UInt8) (index : Nat) (bs : List UInt8) :
    Option (List (Nat × ImageSymbol)) :=
  if bs = [] then some []
  else if bs.length < 18 then none
  else do
    let count := field bs 17 1
    let symbol ← readSymbol table (slice bs 0 18) (slice bs 18 (18 * count))
    let rest ← readSymbols table (index + 1 + count) (bs.drop (18 * (1 + count)))
    return (symbol.toList.map fun s => (index, s)) ++ rest
  termination_by bs.length
  decreasing_by
    rw [List.length_drop]
    omega

def read (bs : List UInt8) : Option Image := do
  let machine ← readMachine (field bs 0 2)
  let symbols := field bs 8 4
  let count := field bs 12 4
  let headers := 20 + field bs 16 2
  let table := slice bs (symbols + 18 * count) (field bs (symbols + 18 * count) 4)
  let sections ← (List.range (field bs 2 2)).mapM fun i =>
    readSection machine bs table (slice bs (headers + 40 * i) 40)
  let symbols ← readSymbols table 0 (slice bs symbols (18 * count))
  return { machine := machine, sections := sections, symbols := symbols }

/-! ## The object that is meant -/

/-- A range of the data of section `index` that a relocation writes to. -/
def Relocated (o : ObjectFile) (index k : Nat) : Prop :=
  ∃ r ∈ o.relocations, r.sectionIndex = index ∧
    ∃ e, r.kind.coffEncoding o.target.machine = some e ∧ r.offset ≤ k ∧ k < r.offset + e.2

/-- The bits of the addend that the field of a relocation has room for. -/
def addendBits (machine : Machine) (type : Nat) : Nat :=
  match machine, type with
  | .x86_64, 1 | .aArch64, 14 => 64
  | .aArch64, 3 => 28
  | .aArch64, 15 | .aArch64, 5 => 21
  | _, _ => 32

/-- A symbol of the object as the format has it: only functions have a size. -/
def symbolImage (s : ObjectSymbol) : ImageSymbol where
  name := asBytes s.name
  sectionIndex := s.sectionIndex
  value := s.value.toNat
  external := decide (s.binding = .global)
  function := decide (s.kind = .function)
  functionSize := if s.kind = .function ∧ s.size ≠ 0 then some s.size.toNat else none

def undefinedImage (name : String) : ImageSymbol where
  name := asBytes name
  sectionIndex := none
  value := 0
  external := true
  function := false
  functionSize := none

/-- The read relocation is the one of the object. -/
structure RelocationMatches (o : ObjectFile) (symbols : List (Nat × ImageSymbol))
    (r : ObjectRelocation) (e : ImageRelocation) : Prop where
  offset : e.offset = r.offset
  type : ∃ width, r.kind.coffEncoding o.target.machine = some (e.type, width)
  /-- The record is that of the output symbol with the name. -/
  symbol : ∃ (k : Nat) (s : ImageSymbol),
    symbols[k]? = some (e.symbol, s) ∧ (outputNames o)[k]? = some r.symbol
  addend : e.addend ≡ r.addend.toInt [ZMOD 2 ^ addendBits o.target.machine e.type]

structure SectionMatches (o : ObjectFile) (symbols : List (Nat × ImageSymbol)) (index : Nat)
    (s : Section) (e : ImageSection) : Prop where
  name : e.name = asBytes s.name
  kind : e.kind = s.kind
  align : e.align = max s.align.toNat 1
  size : s.memorySize = some e.size
  length : e.data.length = s.fileSize
  data : s.kind ≠ .bss → ∀ k, ¬ Relocated o index k → e.data[k]? = s.data[k]?
  relocations : List.Forall₂ (RelocationMatches o symbols)
    (o.relocations.filter (·.sectionIndex = index)) e.relocations

/-- The image is what the format has of the object. -/
structure Represents (o : ObjectFile) (image : Image) : Prop where
  machine : image.machine = o.target.machine
  count : image.sections.length = o.sections.length
  sections : ∀ (index : Nat) (s : Section) (e : ImageSection), o.sections[index]? = some s →
    image.sections[index]? = some e → SectionMatches o image.symbols index s e
  symbols : image.symbols.map Prod.snd =
    o.symbols.map symbolImage ++ (undeclared o).map undefinedImage

end Whale.Coff
