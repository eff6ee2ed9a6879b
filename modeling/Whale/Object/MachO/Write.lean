import Whale.Lib.AssocMap
import Whale.Lib.Region
import Whale.Lib.Text
import Whale.Object.Object
import Whale.Object.Overlap

set_option autoImplicit false

/-! # Writing Mach-O objects

Bounded little-endian `MH_OBJECT` output with one segment. The layout is planned first and the
bytes are put in afterwards; `grow` moves the cursor of the file. -/

namespace Whale.MachO

def invalid : ObjectError := .new "write" .invalidEncoding

def outputLimit : ObjectError := .limit "write" .outputBytes

/-- The cursor after `bytes` more bytes; they start where the cursor was. -/
def grow (cursor bytes limit : Nat) : Except ObjectError Nat :=
  orThrow ((checkedAdd cursor bytes).filter (· ≤ limit)) outputLimit

/-! ## Headers -/

namespace Headers

structure FileLayout where
  machine : Machine
  sections : Nat
  data : Nat
  dataEnd : Nat
  memory : Nat
  symbols : Nat
  count : Nat
  strings : Nat
  stringSize : Nat
  /-- The numbers of local, defined external and undefined symbols. -/
  groups : Nat × Nat × Nat

/-- The header and the commands `LC_SEGMENT_64`, `LC_SYMTAB`, `LC_DYSYMTAB` and
`LC_BUILD_VERSION`; the section headers follow the first one. -/
def parts (l : FileLayout) : List (Nat × List UInt8) :=
  let symtab := 104 + l.sections * 80
  let dysymtab := symtab + 24
  let build := dysymtab + 80
  [(0, leBytes 4 0xfeedfacf),
   (4, leBytes 4 (if l.machine = .x86_64 then 0x01000007 else 0x0100000c)),
   (8, leBytes 4 (if l.machine = .x86_64 then 3 else 0)),
   (12, leBytes 4 1),
   (16, leBytes 4 4),
   (20, leBytes 4 (200 + l.sections * 80)),
   (32, leBytes 4 0x19),
   (36, leBytes 4 (72 + l.sections * 80)),
   (64, leBytes 8 l.memory),
   (72, leBytes 8 l.data),
   (80, leBytes 8 (l.dataEnd - l.data)),
   (88, leBytes 4 7),
   (92, leBytes 4 7),
   (96, leBytes 4 l.sections),
   (symtab, leBytes 4 2),
   (symtab + 4, leBytes 4 24),
   (symtab + 8, leBytes 4 l.symbols),
   (symtab + 12, leBytes 4 l.count),
   (symtab + 16, leBytes 4 l.strings),
   (symtab + 20, leBytes 4 l.stringSize),
   (dysymtab, leBytes 4 0xb),
   (dysymtab + 4, leBytes 4 80),
   (dysymtab + 12, leBytes 4 l.groups.1),
   (dysymtab + 16, leBytes 4 l.groups.1),
   (dysymtab + 20, leBytes 4 l.groups.2.1),
   (dysymtab + 24, leBytes 4 (l.groups.1 + l.groups.2.1)),
   (dysymtab + 28, leBytes 4 l.groups.2.2),
   (build, leBytes 4 0x32),
   (build + 4, leBytes 4 24),
   (build + 8, leBytes 4 1),
   (build + 12, leBytes 4 (11 <<< 16))]

def file (out : List UInt8) (l : FileLayout) : List UInt8 := writes out (parts l)

end Headers

/-! ## Sections -/

namespace Sections

structure Layout where
  name : String
  segment : String
  address : Nat
  size : Nat
  data : Nat
  relocs : Nat
  count : Nat
  alignment : Nat
  flags : Nat

/-- A section name as Mach-O has it. -/
def mappedName (name : String) : String :=
  if name = ".text" then "__text"
  else if name = ".data" then "__data"
  else if name = ".rodata" then "__const"
  else if name = ".bss" then "__bss"
  else if name.toList.take 2 = ['_', '_'] then name
  else
    "__" ++ String.ofList
      (if name.toList.head? = some '.' then name.toList.tail else name.toList)

def segment (kind : SectionKind) : String :=
  if kind = .text ∨ kind = .readOnlyData then "__TEXT" else "__DATA"

def flags : SectionKind → Nat
  | .text => 0x80000400
  | .bss => 1
  | _ => 0

/-- The data of a section: where it starts, zero without any, and the cursor after it. -/
def planData (s : Section) (align cursor limit : Nat) : Except ObjectError (Nat × Nat) :=
  if s.kind = .bss ∨ s.data = [] then return (0, cursor)
  else do
    let padding := (align - (cursor &&& (align - 1))) &&& (align - 1)
    let start ← grow cursor padding limit
    let stop ← grow start s.data.length limit
    return (start, stop)

/-- A planned section, and the memory and the cursor after it. -/
structure Plan where
  layout : Layout
  memory : Nat
  cursor : Nat

def plan (s : Section) (memory cursor limit : Nat) : Except ObjectError Plan := do
  require ((asBytes s.name).length ≤ 16) invalid
  let align := max s.align.toNat 1
  require (isPowerOfTwo align = true ∧ align ≤ 2 ^ 31) invalid
  let name := mappedName s.name
  require (¬ (16 < (asBytes name).length ∨ name = "" ∨ '\x00' ∈ name.toList)) invalid
  let aligned ← orThrow (checkedAdd memory (align - 1)) invalid
  let address := alignDown aligned align
  let size ← orThrow s.memorySize invalid
  let memory ← orThrow (checkedAdd address size) invalid
  let data ← planData s align cursor limit
  return {
    layout :=
      { name := name, segment := segment s.kind, address := address, size := size
        data := data.1, relocs := 0, count := 0
        alignment := align.log2
        flags := flags s.kind }
    memory := memory
    cursor := data.2 }

/-- The numbers of a section header. -/
def parts (ordinal : Nat) (l : Layout) : List (Nat × List UInt8) :=
  let h := 104 + ordinal * 80
  [(h + 32, leBytes 8 l.address),
   (h + 40, leBytes 8 l.size),
   (h + 48, leBytes 4 l.data),
   (h + 52, leBytes 4 l.alignment),
   (h + 56, leBytes 4 l.relocs),
   (h + 60, leBytes 4 l.count),
   (h + 64, leBytes 4 l.flags)]

def emit (out : List UInt8) (ordinal : Nat) (l : Layout) (s : Section) : List UInt8 :=
  let h := 104 + ordinal * 80
  let out := patch out h (asBytes l.name)
  let out := patch out (h + 16) (asBytes l.segment)
  let out := writes out (parts ordinal l)
  if l.data ≠ 0 then patch out l.data s.data else out

end Sections

/-! ## Symbols -/

namespace Symbols

structure Symbol where
  name : String
  sectionIndex : Option Nat
  value : UInt64
  global : Bool
  /-- The offset of the name in the string table. -/
  string : Nat

/-- Local, defined external and undefined symbols. -/
structure Groups where
  locals : List Symbol
  defined : List Symbol
  undefined : List Symbol

/-- The groups and the known names. -/
def classify (g : Groups × List String) (s : ObjectSymbol) :
    Except ObjectError (Groups × List String) := do
  require (¬ (s.binding = .weak ∨ s.visibility ≠ .default)) invalid
  require (¬ (s.sectionIndex = none ∧ s.binding ≠ .global)) invalid
  let symbol : Symbol :=
    { name := s.name, sectionIndex := s.sectionIndex, value := s.value
      global := decide (s.binding = .global), string := 0 }
  let groups :=
    if s.sectionIndex = none then { g.1 with undefined := g.1.undefined ++ [symbol] }
    else if s.binding = .global then { g.1 with defined := g.1.defined ++ [symbol] }
    else { g.1 with locals := g.1.locals ++ [symbol] }
  return (groups, s.name :: g.2)

/-- The symbol a relocation needs and no object symbol is. -/
def undefinedSymbol (name : String) : Symbol where
  name := name
  sectionIndex := none
  value := 0
  global := true
  string := 0

def addUndefined (g : Groups × List String) (r : ObjectRelocation) : Groups × List String :=
  if r.symbol ∈ g.2 then g
  else ({ g.1 with undefined := g.1.undefined ++ [undefinedSymbol r.symbol] }, r.symbol :: g.2)

/-- The entries with their indices and the string table. -/
structure Table where
  entries : List Symbol
  indices : AssocMap String Nat
  strings : List UInt8

def push (limit : Nat) (t : Table) (s : Symbol) : Except ObjectError Table := do
  discard (orThrow ((((checkedAdd t.strings.length (asBytes s.name).length).bind
    (checkedAdd · 1)).filter (· ≤ limit))) outputLimit)
  return {
    entries := t.entries ++ [{ s with string := t.strings.length }]
    indices := t.indices.insert s.name t.entries.length
    strings := t.strings ++ asBytes s.name ++ [0] }

/-- The table and the sizes of the groups. -/
def plan (o : ObjectFile) (limit : Nat) : Except ObjectError (Table × (Nat × Nat × Nat)) := do
  let g ← o.symbols.foldlM classify ({ locals := [], defined := [], undefined := [] }, [])
  let groups := (o.relocations.foldl addUndefined g).1
  let table ← (groups.locals ++ groups.defined ++ groups.undefined).foldlM (push limit)
    { entries := [], indices := [], strings := [0] }
  return (table, (groups.locals.length, groups.defined.length, groups.undefined.length))

/-- The value is an address. -/
def value (sections : List Sections.Layout) (s : Symbol) : Except ObjectError Nat :=
  match s.sectionIndex with
  | none => return 0
  | some n =>
      orThrow (checkedAdd ((sections[n]?.map Sections.Layout.address).getD 0) s.value.toNat) invalid

/-- The record of a symbol at `at'`, whose value is known. -/
def parts (at' : Nat) (s : Symbol) (value : Nat) : List (Nat × List UInt8) :=
  [(at', leBytes 4 s.string),
   (at' + 4, [(if s.sectionIndex = none then 0 else 0x0e) ||| (if s.global then 1 else 0)]),
   (at' + 5, [UInt8.ofNat (s.sectionIndex.elim 0 (· + 1))]),
   (at' + 8, leBytes 8 value)]

def emit (sections : List Sections.Layout) :
    List UInt8 → Nat → List Symbol → Except ObjectError (List UInt8)
  | out, _, [] => .ok out
  | out, at', s :: symbols => do
      let value ← value sections s
      emit sections (writes out (parts at' s value)) (at' + 16) symbols

end Symbols

/-! ## Relocations -/

namespace Relocations

/-- The instruction with an empty branch field. -/
def clearBranch (word : BitVec 32) : BitVec 32 := word &&& ~~~ 0x03ffffff#32

/-- The data with the addend in its field, and the code, the mode and the width. -/
def patch (data : List UInt8) (r : ObjectRelocation) (machine : Machine) :
    Except ObjectError (List UInt8 × (Nat × Bool × Nat)) := do
  let (code, width) ← orThrow (r.kind.machEncoding machine) invalid
  let pc := decide (code ≠ 0)
  let addend := r.addend.toInt
  if width = 8 then
    return (Whale.patch data r.offset (leBytes 8 (BitVec.ofInt 64 addend).toNat),
      (code, pc, width))
  else if machine = .aArch64 then do
    require (¬ (r.offset % 4 ≠ 0 ∨ addend ≠ 0)) invalid
    let word := BitVec.ofNat 32 (leValue (slice data r.offset 4))
    require (word &&& 0x7c000000 = 0x14000000) invalid
    return (Whale.patch data r.offset (leBytes 4 (clearBranch word).toNat), (code, pc, width))
  else do
    -- A relative field counts from its own end.
    require (addend + 4 < 2 ^ 63) invalid
    require (-(2 ^ 31) ≤ addend + 4 ∧ addend + 4 < 2 ^ 31) invalid
    return (Whale.patch data r.offset (leBytes 4 (BitVec.ofInt 32 (addend + 4)).toNat),
      (code, pc, width))

/-- The symbol, the mode, the length, the external flag and the type in one word. -/
def word (index code : Nat) (pc : Bool) (width : Nat) : Nat :=
  index ||| (pc.toNat <<< 24) ||| ((if width = 8 then 3 else 2) <<< 25) ||| (1 <<< 27) |||
    (code <<< 28)

/-- The relocations of the section whose data is at `data`; their records lie from `at'` on. -/
def emit (data length : Nat) (machine : Machine) (indices : AssocMap String Nat) :
    List UInt8 → Nat → List ObjectRelocation → Except ObjectError (List UInt8)
  | out, _, [] => .ok out
  | out, at', r :: records => do
      let (field, code, pc, width) ← patch (slice out data length) r machine
      let out := writes (Whale.patch out data field)
        [(at', leBytes 4 r.offset),
         (at' + 4, leBytes 4 (word ((indices.get r.symbol).getD 0) code pc width))]
      emit data length machine indices out (at' + 8) records

end Relocations

/-! ## The writer -/

/-- The relocations of the section, in descending order of their offsets. -/
def records (o : ObjectFile) (index : Nat) : List ObjectRelocation :=
  (o.relocations.filter (·.sectionIndex = index)).insertionSort fun a b => b.offset ≤ a.offset

/-- The planned sections, and the memory and the cursor after them. -/
structure SectionPlans where
  layouts : List Sections.Layout
  memory : Nat
  cursor : Nat

/-- No two sections share their mapped names. -/
def planSections (limit : Nat) :
    List Section → List (String × String) → Nat → Nat → Except ObjectError SectionPlans
  | [], _, memory, cursor => .ok { layouts := [], memory := memory, cursor := cursor }
  | s :: sections, names, memory, cursor => do
      let p ← Sections.plan s memory cursor limit
      let name := (p.layout.segment, p.layout.name)
      require (name ∉ names) invalid
      let rest ← planSections limit sections (name :: names) p.memory p.cursor
      return { rest with layouts := p.layout :: rest.layouts }

/-- The section and the range of a relocated field; addresses have 31 bits. -/
def occupiedField (machine : Machine) (r : ObjectRelocation) : Except ObjectError FieldRange := do
  let encoding ← orThrow (r.kind.machEncoding machine) invalid
  require (r.offset < 2 ^ 31) invalid
  return (r.sectionIndex, r.offset, r.offset + encoding.2)

/-- The cursor after the relocations of a section. -/
def place (count cursor limit : Nat) : Except ObjectError Nat :=
  if count = 0 then return cursor else grow cursor (count * 8) limit

/-- Room for the relocations of each section, and the cursor after them. -/
def planRelocations (o : ObjectFile) (limit : Nat) :
    List Sections.Layout → Nat → Nat → Except ObjectError (List Sections.Layout × Nat)
  | [], _, cursor => .ok ([], cursor)
  | l :: layouts, index, cursor => do
      let count := (records o index).length
      let stop ← place count cursor limit
      let rest ← planRelocations o limit layouts (index + 1) stop
      return (
        { l with count := count, relocs := if count = 0 then 0 else cursor } :: rest.1, rest.2)

/-- The sections from the one at `index` on, with their relocations. -/
def emitSections (o : ObjectFile) (indices : AssocMap String Nat) :
    List UInt8 → Nat → List (Section × Sections.Layout) → Except ObjectError (List UInt8)
  | out, _, [] => .ok out
  | out, index, (s, l) :: sections => do
      let out := Sections.emit out index l s
      let out ← Relocations.emit l.data s.data.length o.target.machine indices out l.relocs
        (records o index)
      emitSections o indices out (index + 1) sections

def write (o : ObjectFile) (maxOutputSize : UInt64) : Except ObjectError (List UInt8) := do
  o.validate
  require (o.target.format = .machO64) invalid
  require (o.sections.length ≤ 255) invalid
  let limit := min maxOutputSize.toNat (2 ^ 32 - 1)
  let start ← grow 0 (232 + o.sections.length * 80) limit
  require (o.symbols.length + o.relocations.length ≤ limit / 16) outputLimit
  let plans ← planSections limit o.sections [] 0 start
  let dataEnd := plans.cursor
  let data := (((plans.layouts.map Sections.Layout.data).filter (· ≠ 0)).min?).getD dataEnd
  let memory := max plans.memory (dataEnd - data)
  let occupied ← o.relocations.mapM (occupiedField o.target.machine)
  require (neighboursDisjoint (occupied.insertionSort FieldLe) = true) invalid
  let relocations ← grow dataEnd ((4 - dataEnd % 4) % 4) limit
  let (layouts, at') ← planRelocations o limit plans.layouts 0 relocations
  let (symbols, groups) ← Symbols.plan o limit
  require (symbols.entries.length ≤ 0x1000000) invalid
  let strings ← grow at' (symbols.entries.length * 16) limit
  let stop ← grow strings symbols.strings.length limit
  let out := Headers.file (List.replicate stop 0)
    { machine := o.target.machine, sections := o.sections.length, data := data, dataEnd := dataEnd
      memory := memory, symbols := at', count := symbols.entries.length, strings := strings
      stringSize := symbols.strings.length, groups := groups }
  let out ← emitSections o symbols.indices out 0 (o.sections.zip layouts)
  let out ← Symbols.emit layouts out at' symbols.entries
  return patch out strings symbols.strings

end Whale.MachO
