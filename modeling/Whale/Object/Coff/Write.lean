import Whale.Lib.AssocMap
import Whale.Lib.Text
import Whale.Object.Object
import Whale.Object.Overlap

set_option autoImplicit false

/-! # Writing COFF objects

Bounded standard objects, without PE images, BigObj or COMDAT semantics. The layout is planned
first and the bytes are patched in afterwards. -/

namespace Whale.Coff

/-! ## Errors and space -/

def invalid : ObjectError := .new "write" .invalidEncoding

def outputLimit : ObjectError := .limit "write" .outputBytes

/-- File offsets and counts have 32 bits. -/
def number (n : Nat) : Except ObjectError Nat := do
  require (n < 2 ^ 32) invalid
  return n

/-- The cursor after `bytes` more bytes; they start where the cursor was. -/
def grow (cursor bytes limit : Nat) : Except ObjectError Nat := do
  let stop ← orThrow ((checkedAdd cursor bytes).filter (· ≤ limit)) outputLimit
  number stop

def u16At (out : List UInt8) (at' value : Nat) : List UInt8 := patch out at' (leBytes 2 value)

def u32At (out : List UInt8) (at' value : Nat) : List UInt8 := patch out at' (leBytes 4 value)

/-- No optional PE header, no timestamp and no executable characteristics. -/
def fileHeader (out : List UInt8) (machine : Machine) (sections symbols count : Nat) :
    List UInt8 :=
  let out := u16At out 0 (if machine = .x86_64 then 0x8664 else 0xaa64)
  let out := u16At out 2 sections
  let out := u32At out 8 symbols
  u32At out 12 count

/-! ## Names -/

/-- The string table under construction; its first four bytes are its size. -/
structure Strings where
  bytes : List UInt8
  positions : AssocMap String Nat
  limit : Nat

namespace Strings

def new (limit : Nat) : Strings where
  bytes := List.replicate 4 0
  positions := []
  limit := limit

def checkName (name : String) : Except ObjectError Unit :=
  require (name ≠ "" ∧ '\x00' ∉ name.toList) (ObjectError.new "write" .invalidName)

def add (s : Strings) (name : String) : Except ObjectError (Nat × Strings) := do
  checkName name
  match s.positions.get name with
  | some position => return (position, s)
  | none => do
      let stop ← orThrow (checkedAdd s.bytes.length ((asBytes name).length + 1)) outputLimit
      require (stop ≤ s.limit ∧ stop < 2 ^ 32) outputLimit
      return (s.bytes.length,
        { s with
          bytes := s.bytes ++ asBytes name ++ [0]
          positions := s.positions.insert name s.bytes.length })

/-- The eight bytes of a name: the name, an offset, or for sections a slash and an offset. -/
def name (s : Strings) (name : String) (section' : Bool) :
    Except ObjectError (List UInt8 × Strings) := do
  checkName name
  if (asBytes name).length ≤ 8 ∧ ¬ (section' = true ∧ name.toList.head? = some '/') then
    return (patch (List.replicate 8 0) 0 (asBytes name), s)
  else do
    let added ← s.add name
    if section' then do
      let text := 0x2f :: decimal added.1
      require (text.length ≤ 8) (ObjectError.new "write" .unsupported)
      return (patch (List.replicate 8 0) 0 text, added.2)
    else return (patch (List.replicate 8 0) 4 (leBytes 4 added.1), added.2)

def finish (s : Strings) : List UInt8 := u32At s.bytes 0 s.bytes.length

end Strings

/-! ## Sections -/

structure SectionLayout where
  name : List UInt8
  symbolName : List UInt8
  data : Nat
  relocation : Nat
  size : Nat
  flags : Nat

/-- The trailing zeros of a power of two are its logarithm. -/
def characteristics (s : Section) : Except ObjectError Nat := do
  let align := max s.align.toNat 1
  require (align ≤ 8192 ∧ isPowerOfTwo align = true) invalid
  let flags := match s.kind with
    | .text => 0x60000020
    | .data => 0xc0000040
    | .readOnlyData => 0x40000040
    | .bss => 0xc0000080
  return flags ||| ((align.log2 + 1) <<< 20)

/-- A planned section, and the string table and the cursor after it. -/
structure SectionPlan where
  layout : SectionLayout
  strings : Strings
  cursor : Nat

/-- The data starts at a multiple of four, as the specification recommends. -/
def planData (s : Section) (cursor limit : Nat) : Except ObjectError (Nat × Nat) :=
  if s.kind = .bss ∨ s.data = [] then return (0, cursor)
  else do
    let start ← grow cursor ((4 - cursor % 4) % 4) limit
    let stop ← grow start s.data.length limit
    return (start, stop)

def planRelocations (count cursor limit : Nat) : Except ObjectError (Nat × Nat) :=
  if count = 0 then return (0, cursor)
  else do
    let stop ← grow cursor (count * 10) limit
    return (cursor, stop)

def plan (s : Section) (count : Nat) (strings : Strings) (cursor limit : Nat) :
    Except ObjectError SectionPlan := do
  require (count < 65535) invalid
  let data ← planData s cursor limit
  let name ← strings.name s.name true
  let symbolName ← name.2.name s.name false
  let relocation ← planRelocations count data.2 limit
  let size ← orThrow s.memorySize invalid
  require (size < 2 ^ 32) invalid
  let flags ← characteristics s
  return {
    layout :=
      { name := name.1, symbolName := symbolName.1, data := data.1, relocation := relocation.1
        size := size, flags := flags }
    strings := symbolName.2
    cursor := relocation.2 }

def emit (out : List UInt8) (index : Nat) (layout : SectionLayout) (s : Section) :
    Except ObjectError (List UInt8) := do
  let h := 20 + index * 40
  let out := patch out h layout.name
  let out := u32At out (h + 16) layout.size
  let data ← number layout.data
  let out := u32At out (h + 20) data
  let relocation ← number layout.relocation
  let out := u32At out (h + 24) relocation
  let out := u32At out (h + 36) layout.flags
  return if layout.data = 0 then out else patch out layout.data s.data

/-! ## Relocations -/

def branch (addend : Int) (bits : Nat) : Option (BitVec 32) :=
  if addend % 4 ≠ 0 ∨ ¬ (-(2 ^ (bits + 1)) ≤ addend ∧ addend < 2 ^ (bits + 1)) then none
  else some (BitVec.ofInt 32 (addend / 4) &&& BitVec.ofNat 32 (2 ^ bits - 1))

/-- The mask and the bits of the addend in an instruction. -/
def instructionAddend (code : UInt16) (word : BitVec 32) (addend : Int) :
    Option (BitVec 32 × BitVec 32) :=
  if code = 3 then
    if word &&& 0x7c000000 ≠ 0x14000000 then none
    else (branch addend 26).map fun value => (0x03ffffff#32, value)
  else if code = 15 then
    if ¬ (word &&& 0xff000010 = 0x54000000 ∨ word &&& 0x7e000000 = 0x34000000) then none
    else (branch addend 19).map fun value : BitVec 32 => (0x00ffffe0#32, value <<< 5)
  else if code = 5 then
    if word &&& 0x9f000000 ≠ 0x10000000 then none
    else if ¬ (-(2 ^ 20) ≤ addend ∧ addend < 2 ^ 20) then none
    else
      let bits := BitVec.ofInt 32 addend &&& 0x1fffff#32
      some (0x60ffffe0#32, ((bits &&& 3#32) <<< 29) ||| ((bits >>> 2) <<< 5))
  else none

/-- The bytes of the field with its addend; a relative field counts from its own end. -/
def applyAddend (bytes : List UInt8) (kind : RelocKind) (addend : Int64) : Option (List UInt8) :=
  match kind with
  | .coffSpecific _ code =>
      let word := BitVec.ofNat 32 (leValue bytes)
      (instructionAddend code word addend.toInt).map fun field =>
        leBytes 4 ((word &&& ~~~ field.1) ||| field.2).toNat
  | .absolute64 => some (leBytes 8 (BitVec.ofInt 64 addend.toInt).toNat)
  | .absolute32 =>
      if -(2 ^ 31) ≤ addend.toInt ∧ addend.toInt < 2 ^ 32 then
        some (leBytes 4 (BitVec.ofInt 32 addend.toInt).toNat)
      else none
  | .relative32 | .plt32 =>
      if -(2 ^ 31) ≤ addend.toInt + 4 ∧ addend.toInt + 4 < 2 ^ 31 then
        some (leBytes 4 (BitVec.ofInt 32 (addend.toInt + 4)).toNat)
      else none
  | _ => none

/-- The relocation is the one at `at'`. -/
def emitRelocation (out : List UInt8) (data at' : Nat) (machine : Machine)
    (indices : AssocMap String Nat) (r : ObjectRelocation) : Except ObjectError (List UInt8) := do
  let encoding ← orThrow (r.kind.coffEncoding machine) invalid
  let field ← orThrow
    (applyAddend (slice out (data + r.offset) encoding.2) r.kind r.addend) invalid
  let out := patch out (data + r.offset) field
  let offset ← number r.offset
  let out := u32At out at' offset
  let out := u32At out (at' + 4) ((indices.get r.symbol).getD 0)
  return u16At out (at' + 8) encoding.1

/-- The relocations of a section, which lie from `at'` on. -/
def emitEntries (data : Nat) (machine : Machine) (indices : AssocMap String Nat) :
    List UInt8 → Nat → List ObjectRelocation → Except ObjectError (List UInt8)
  | out, _, [] => .ok out
  | out, at', r :: records => do
      let out ← emitRelocation out data at' machine indices r
      emitEntries data machine indices out (at' + 10) records

def emitRelocations (out : List UInt8) (index : Nat) (layout : SectionLayout) (machine : Machine)
    (records : List ObjectRelocation) (indices : AssocMap String Nat) :
    Except ObjectError (List UInt8) :=
  let out := u16At out (20 + index * 40 + 32) records.length
  emitEntries layout.data machine indices out layout.relocation records

/-! ## Symbols -/

def record (symbol : ObjectSymbol) (name : List UInt8) : Except ObjectError (List UInt8) := do
  require (¬ (symbol.binding = .weak ∨ symbol.visibility ≠ .default)) invalid
  require (¬ (symbol.sectionIndex = none ∧
    (symbol.value ≠ 0 ∨ symbol.size ≠ 0 ∨ symbol.binding ≠ .global))) invalid
  let aux : Bool := decide (symbol.kind = .function ∧ symbol.size ≠ 0)
  require (¬ (aux = true ∧ symbol.binding ≠ .global)) invalid
  let out := patch (List.replicate (if aux then 36 else 18) 0) 0 name
  require (symbol.value.toNat < 2 ^ 32) invalid
  let out := u32At out 8 symbol.value.toNat
  let out := u16At out 12 (symbol.sectionIndex.elim 0 (· + 1))
  let out := u16At out 14 (if symbol.kind = .function then 0x20 else 0)
  let out := patch out 16 [if symbol.binding = .local then 3 else 2]
  let out := patch out 17 [if aux then 1 else 0]
  if aux then do
    require (symbol.size.toNat < 2 ^ 32) invalid
    return u32At out 22 symbol.size.toNat
  else return out

/-- The symbol of a section and its auxiliary record, at `at'`. -/
def sectionSymbol (out : List UInt8) (at' : Nat) (name : List UInt8)
    (index size relocations : Nat) : List UInt8 :=
  let out := patch out at' name
  let out := u16At out (at' + 12) (index + 1)
  let out := patch out (at' + 16) [3]
  let out := patch out (at' + 17) [1]
  let out := u32At out (at' + 18) size
  u16At out (at' + 22) relocations

/-- The symbol table under construction; `count` is the index of the next record. -/
structure SymbolTable where
  strings : Strings
  records : List (List UInt8)
  indices : AssocMap String Nat
  count : Nat

namespace SymbolTable

def push (t : SymbolTable) (symbol : ObjectSymbol) : Except ObjectError SymbolTable := do
  let name ← t.strings.name symbol.name false
  let bytes ← record symbol name.1
  let count ← number (t.count + bytes.length / 18)
  return {
    strings := name.2
    records := t.records ++ [bytes]
    indices := t.indices.insert symbol.name t.count
    count := count }

/-- The symbol a relocation needs and no object symbol is. -/
def undefinedSymbol (name : String) : ObjectSymbol where
  name := name
  sectionIndex := none
  value := 0
  size := 0
  kind := .noType
  binding := .global
  visibility := .default

def pushUndefined (t : SymbolTable) (r : ObjectRelocation) : Except ObjectError SymbolTable :=
  match t.indices.get r.symbol with
  | some _ => return t
  | none => do
      let count ← number (t.count + 1)
      let name ← t.strings.name r.symbol false
      let bytes ← record (undefinedSymbol r.symbol) name.1
      return {
        strings := name.2
        records := t.records ++ [bytes]
        indices := t.indices.insert r.symbol t.count
        count := count }

end SymbolTable

/-! ## The writer -/

/-- The sections with their relocations. -/
def grouped (o : ObjectFile) : List (Section × List ObjectRelocation) :=
  o.sections.zipIdx.map fun e => (e.1, o.relocations.filter (·.sectionIndex = e.2))

/-- The section and the range of a relocated field. -/
def occupiedField (machine : Machine) (r : ObjectRelocation) :
    Except ObjectError FieldRange := do
  let encoding ← orThrow (r.kind.coffEncoding machine) invalid
  return (r.sectionIndex, r.offset, r.offset + encoding.2)

/-- The planned sections, and the string table and the cursor after them. -/
structure SectionPlans where
  layouts : List SectionLayout
  strings : Strings
  cursor : Nat

def planSections (limit : Nat) :
    List (Section × List ObjectRelocation) → Strings → Nat → Except ObjectError SectionPlans
  | [], strings, cursor => .ok { layouts := [], strings := strings, cursor := cursor }
  | e :: sections, strings, cursor => do
      let p ← plan e.1 e.2.length strings cursor limit
      let rest ← planSections limit sections p.strings p.cursor
      return { rest with layouts := p.layout :: rest.layouts }

def planSymbols (o : ObjectFile) (strings : Strings) : Except ObjectError SymbolTable := do
  let count ← number (o.sections.length * 2)
  let t ← o.symbols.foldlM SymbolTable.push
    { strings := strings, records := [], indices := [], count := count }
  o.relocations.foldlM SymbolTable.pushUndefined t

/-- The sections from the one at `index` on, with their relocations and their symbols. -/
def emitSections (machine : Machine) (indices : AssocMap String Nat) (symbols : Nat) :
    List UInt8 → Nat → List ((Section × List ObjectRelocation) × SectionLayout) →
      Except ObjectError (List UInt8)
  | out, _, [] => .ok out
  | out, index, e :: sections => do
      let out ← emit out index e.2 e.1.1
      let out ← emitRelocations out index e.2 machine e.1.2 indices
      let out := sectionSymbol out (symbols + index * 36) e.2.symbolName index e.2.size
        e.1.2.length
      emitSections machine indices symbols out (index + 1) sections

def emitRecords : List UInt8 → Nat → List (List UInt8) → List UInt8
  | out, _, [] => out
  | out, at', r :: records => emitRecords (patch out at' r) (at' + r.length) records

def write (o : ObjectFile) (maxOutputSize : UInt64) : Except ObjectError (List UInt8) := do
  o.validate
  require (o.target.format = .coff) invalid
  let limit := min maxOutputSize.toNat (2 ^ 32 - 1)
  require (o.sections.length ≤ 32767) invalid
  -- Minimum header and string table length; metadata staging is also bounded.
  discard (grow 0 24 limit)
  require (o.symbols.length + o.relocations.length ≤ limit / 10) outputLimit
  let start ← grow 20 (o.sections.length * 40) limit
  let occupied ← o.relocations.mapM (occupiedField o.target.machine)
  require (neighboursDisjoint (occupied.insertionSort FieldLe) = true) invalid
  let plans ← planSections limit (grouped o) (.new limit) start
  let table ← planSymbols o plans.strings
  let stringAt ← grow plans.cursor (table.count * 18) limit
  let strings := table.strings.finish
  let stop ← grow stringAt strings.length limit
  let out := fileHeader (List.replicate stop 0) o.target.machine o.sections.length plans.cursor
    table.count
  let out ← emitSections o.target.machine table.indices plans.cursor out 0
    ((grouped o).zip plans.layouts)
  let out := emitRecords out (plans.cursor + o.sections.length * 36) table.records
  return patch out stringAt strings

end Whale.Coff
