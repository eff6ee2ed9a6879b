import Whale.Lib.Region
import Whale.Lib.Text
import Whale.Object.Object

set_option autoImplicit false

/-! # Reading Mach-O objects

What the bytes of an `MH_OBJECT` file mean, stated without the writer: a header of 32 bytes,
load commands that give their own sizes, section headers of 80 bytes behind the segment
command, relocations of 8 bytes, symbol records of 16, and the string table. -/

namespace Whale.MachO

/-! ## What is read -/

structure ImageRelocation where
  offset : Nat
  symbol : Nat
  type : Nat
  pcRelative : Bool
  /-- The logarithm of the width of the field. -/
  length : Nat
  /-- The addend in the relocated field. -/
  addend : Int

structure ImageSection where
  name : List UInt8
  segment : List UInt8
  kind : SectionKind
  address : Nat
  size : Nat
  /-- The logarithm of the alignment. -/
  align : Nat
  /-- Where the data starts in the file. -/
  offset : Nat
  data : List UInt8
  relocations : List ImageRelocation

structure ImageSymbol where
  name : List UInt8
  /-- Counted from zero; undefined symbols have none. -/
  sectionIndex : Option Nat
  value : Nat
  external : Bool
  deriving DecidableEq

/-- An object; a range of symbols is the index of the first one and their number. -/
structure Image where
  machine : Machine
  sections : List ImageSection
  symbols : List ImageSymbol
  localRange : Nat × Nat
  definedRange : Nat × Nat
  undefinedRange : Nat × Nat

/-! ## Parts -/

def readMachine (code : Nat) : Option Machine :=
  if code = 0x01000007 then some .x86_64
  else if code = 0x0100000c then some .aArch64
  else none

/-- The codes and the positions of the load commands from `at'` on. -/
def readCommands (bs : List UInt8) : Nat → Nat → Option (List (Nat × Nat))
  | 0, _ => some []
  | n + 1, at' =>
      if field bs (at' + 4) 4 < 8 then none
      else do
        let rest ← readCommands bs n (at' + field bs (at' + 4) 4)
        return (field bs at' 4, at') :: rest

def findCommand (code : Nat) (commands : List (Nat × Nat)) : Option Nat :=
  (commands.find? (·.1 = code)).map Prod.snd

/-- The kind of a section: zero-filled, code, or data of one of the two segments. -/
def readKind (segment : List UInt8) (flags : Nat) : Option SectionKind :=
  if flags % 256 = 1 then some .bss
  else if flags % 256 ≠ 0 then none
  else if flags.testBit 31 then some .text
  else if segment = asBytes "__TEXT" then some .readOnlyData
  else if segment = asBytes "__DATA" then some .data
  else none

/-- The addend in the relocated field at the start of `bs`. A 32-bit relative address counts
from the end of the field; a branch holds words. -/
def readAddend (machine : Machine) (type length : Nat) (pcRelative : Bool) (bs : List UInt8) :
    Option Int :=
  let word := BitVec.ofNat 32 (field bs 0 4)
  match machine, type, length, pcRelative with
  | .x86_64, 0, 3, false | .aArch64, 0, 3, false =>
      some (BitVec.ofNat 64 (field bs 0 8)).toInt
  | .x86_64, 1, 2, true | .x86_64, 2, 2, true => some (word.toInt - 4)
  | .aArch64, 2, 2, true => some ((word.extractLsb' 0 26).toInt * 4)
  | _, _, _, _ => none

/-- The relocation at `at'`: an address and a word with the symbol in 24 bits, the mode in one,
the length in two, the mark of symbols in one and the type in four. -/
def readRelocation (machine : Machine) (bs data : List UInt8) (at' : Nat) :
    Option ImageRelocation :=
  let offset := field bs at' 4
  let word := field bs (at' + 4) 4
  if offset.testBit 31 ∨ ¬ word.testBit 27 then none
  else do
    let type := word / 2 ^ 28 % 2 ^ 4
    let length := word / 2 ^ 25 % 2 ^ 2
    let pcRelative := word.testBit 24
    let addend ← readAddend machine type length pcRelative (data.drop offset)
    return {
      offset := offset
      symbol := word % 2 ^ 24
      type := type
      pcRelative := pcRelative
      length := length
      addend := addend }

/-- The section whose header is at `h`. Zero-filled sections have no data in the file. -/
def readSection (machine : Machine) (bs : List UInt8) (h : Nat) : Option ImageSection := do
  let segment := untilZero (slice bs (h + 16) 16)
  let kind ← readKind segment (field bs (h + 64) 4)
  let size := field bs (h + 40) 8
  let offset := field bs (h + 48) 4
  let data := if kind = .bss then [] else slice bs offset size
  let relocations ← (List.range (field bs (h + 60) 4)).mapM fun n =>
    readRelocation machine bs data (field bs (h + 56) 4 + 8 * n)
  return {
    name := untilZero (slice bs h 16)
    segment := segment
    kind := kind
    address := field bs (h + 32) 8
    size := size
    align := field bs (h + 52) 4
    offset := offset
    data := data
    relocations := relocations }

/-- The section of a symbol by its type: none, or the one with the number `n`, counted from
one. Debugging, private, absolute and indirect symbols are not read. -/
def readPlace (type n : Nat) : Option (Option Nat) :=
  if type / 2 % 128 = 0 then if n = 0 then some none else none
  else if type / 2 % 128 = 7 then if n = 0 then none else some (some (n - 1))
  else none

/-- The symbol whose record is at `at'`. -/
def readSymbol (bs table : List UInt8) (at' : Nat) : Option ImageSymbol := do
  let name ← stringAt table (field bs at' 4)
  let place ← readPlace (field bs (at' + 4) 1) (field bs (at' + 5) 1)
  return {
    name := name
    sectionIndex := place
    value := field bs (at' + 8) 8
    external := (field bs (at' + 4) 1).testBit 0 }

def read (bs : List UInt8) : Option Image :=
  if ¬ (field bs 0 4 = 0xfeedfacf ∧ field bs 12 4 = 1) then none
  else do
    let machine ← readMachine (field bs 4 4)
    let commands ← readCommands bs (field bs 16 4) 32
    let segment ← findCommand 0x19 commands
    let symtab ← findCommand 2 commands
    let dysymtab ← findCommand 0xb commands
    let sections ← (List.range (field bs (segment + 64) 4)).mapM fun i =>
      readSection machine bs (segment + 72 + 80 * i)
    let table := slice bs (field bs (symtab + 16) 4) (field bs (symtab + 20) 4)
    let symbols ← (List.range (field bs (symtab + 12) 4)).mapM fun i =>
      readSymbol bs table (field bs (symtab + 8) 4 + 16 * i)
    return {
      machine := machine
      sections := sections
      symbols := symbols
      localRange := (field bs (dysymtab + 8) 4, field bs (dysymtab + 12) 4)
      definedRange := (field bs (dysymtab + 16) 4, field bs (dysymtab + 20) 4)
      undefinedRange := (field bs (dysymtab + 24) 4, field bs (dysymtab + 28) 4) }

end Whale.MachO
