import Mathlib.Algebra.Order.Ring.Int
import Mathlib.Tactic.Common

set_option autoImplicit false

/-! # Assembler output to object rows

The whole-module conversion of assembler rows into object rows. Names are looked up in an
open-addressing table of four words for each slot: the kind of the source, its index, the
undefined flag and the hash. All work is charged to a budget before any output is written.

Rows borrow their text: a `Span` is an address together with the bytes that stand there. -/

namespace Whale.Asmobj

/-! ## Rows -/

structure Span where
  data : Nat
  bytes : List UInt8

def Span.length (s : Span) : Nat := s.bytes.length

structure Target where
  format : Nat
  machine : Nat
  addressBits : Nat
  endian : Nat

structure Section where
  name : Span
  kind : Nat
  alignment : Nat
  data : Span
  zeroFill : Nat

structure Symbol where
  name : Span
  kind : Nat
  sectionIndex : Nat
  offset : Nat
  size : Nat
  binding : Nat
  visibility : Nat

structure Relocation where
  sectionIndex : Nat
  offset : Nat
  name : Span
  kind : Nat
  namespaceName : Span
  code : Nat
  addend : Int

/-- The section of an undefined symbol, `u64::MAX`. -/
def noSection : Nat := 18446744073709551615

/-- An array: its address and its rows. -/
structure Rows (α : Type) where
  data : Nat
  rows : List α

/-! ## Checks -/

def spanValid (data count : Nat) : Bool :=
  (count = 0 || data ≠ 0) && count ≤ 9223372036854775807 &&
    count ≤ 18446744073709551615 - data

def arrayValid (data count width : Nat) : Bool :=
  count ≤ 9223372036854775807 / width && spanValid data (count * width)

def targetValid (target : Option Target) : Bool :=
  match target with
  | none => false
  | some target =>
      target.format ≤ 2 && target.machine ≤ 3 && target.addressBits = 64 && target.endian = 0 &&
        (target.format = 0 || target.machine ≤ 1)

def sectionValid (s : Section) : Bool :=
  s.kind ≤ 3 && spanValid s.name.data s.name.length && spanValid s.data.data s.data.length

def symbolValid (s : Symbol) : Bool :=
  s.kind ≤ 2 && s.binding ≤ 1 && s.visibility ≤ 1 && spanValid s.name.data s.name.length

def relocationValid (r : Relocation) (sectionCount : Nat) : Bool :=
  r.sectionIndex < sectionCount && r.kind ≤ 6 && r.code ≤ 4294967295 &&
    spanValid r.name.data r.name.length && spanValid r.namespaceName.data r.namespaceName.length

/-! ## State -/

structure State where
  symbols : List Symbol
  relocations : List Relocation
  scratch : List Nat
  slots : Nat
  work : Nat
  status : Nat

def State.word (s : State) (at' : Nat) : Nat := s.scratch.getD at' 0

def charge (s : State) (amount : Nat) : Bool × State :=
  if s.work < amount then (false, { s with status := 9 })
  else (true, { s with work := s.work - amount })

/-! ## Names -/

def hashStep (hash : Nat) (byte : UInt8) : Nat :=
  ((hash ^^^ byte.toNat) * 1099511628211) % 2 ^ 64

def hashBytes (bytes : List UInt8) : Nat := bytes.foldl hashStep 14695981039346656037

def nameHash (s : State) (name : Span) : Option Nat × State :=
  match charge s name.length with
  | (false, s) => (none, s)
  | (true, s) => (some (hashBytes name.bytes), s)

def namesEqual (s : State) (left right : Span) : Bool × State :=
  if left.length ≠ right.length then (false, s)
  else
    match charge s left.length with
    | (false, s) => (false, s)
    | (true, s) => (decide (left.bytes = right.bytes), s)

/-- The name of a slot: kind 1 borrows an input symbol, kind 2 the first relocation that needs
a symbol. -/
def sourceName (s : State) (source index : Nat) : Option Span :=
  if source = 1 then s.symbols[index]?.map Symbol.name
  else if source = 2 then s.relocations[index]?.map Relocation.name
  else none

/-- Whether the search ends at the slot: it is empty, and gets the hash, or it has the name. -/
def examine (name : Span) (hash : Nat) (s : State) (slot : Nat) : Option Bool × State :=
  let start := slot * 4
  let source := s.word start
  if source = 0 then (some true, { s with scratch := s.scratch.set (start + 3) hash })
  else if s.word (start + 3) = hash then
    match sourceName s source (s.word (start + 1)) with
    | none => (none, { s with status := 8 })
    | some other =>
        match namesEqual s name other with
        | (true, s) => (some true, s)
        | (false, s) => if s.status ≠ 0 then (none, s) else (some false, s)
  else (some false, s)

/-- The slots from `slot` on, at most as many as are given. -/
def probe (name : Span) (hash : Nat) : Nat → State → Nat → Option Nat × State
  | 0, s, _ => (none, { s with status := 7 })
  | probes + 1, s, slot =>
      match charge s 1 with
      | (false, s) => (none, s)
      | (true, s) =>
          match examine name hash s slot with
          | (none, s) => (none, s)
          | (some true, s) => (some (slot * 4), s)
          | (some false, s) => probe name hash probes s ((slot + 1) &&& (s.slots - 1))

/-- The first word of the slot of a name, or of the empty slot where it belongs. -/
def findName (s : State) (name : Span) : Option Nat × State :=
  match nameHash s name with
  | (none, s) => (none, s)
  | (some hash, s) => probe name hash s.slots s (hash &&& (s.slots - 1))

/-- Fill a slot, except for its hash. -/
def State.fill (s : State) (slot source index undefined : Nat) : State :=
  { s with
    scratch := ((s.scratch.set slot source).set (slot + 1) index).set (slot + 2) undefined }

/-- The last symbol of a name owns its slot. -/
def registerSymbol (s : State) (symbol : Symbol) (index : Nat) : Bool × State :=
  match findName s symbol.name with
  | (none, s) => (false, s)
  | (some slot, s) =>
      (true, s.fill slot 1 index (if symbol.sectionIndex = noSection then 1 else 0))

def emitUndefined (r : Relocation) : Symbol where
  name := r.name
  kind := 0
  sectionIndex := noSection
  offset := 0
  size := 0
  binding := 1
  visibility := 0

/-! ## Relocations -/

/-- A literal of the program; the comparison does not look at its address. -/
def literal (bytes : List UInt8) : Span := { data := 1, bytes := bytes }

def aarch64 : Span := literal [97, 97, 114, 99, 104, 54, 52]

def riscv64 : Span := literal [114, 105, 115, 99, 118, 54, 52]

def loongarch64 : Span := literal [108, 111, 111, 110, 103, 97, 114, 99, 104, 54, 52]

/-- The machine of a namespace. -/
def namespaceMachine (s : State) (namespaceName : Span) : Option Nat × State :=
  match namesEqual s namespaceName aarch64 with
  | (true, s) => (some 1, s)
  | (false, s) =>
      match namesEqual s namespaceName riscv64 with
      | (true, s) => (some 2, s)
      | (false, s) =>
          match namesEqual s namespaceName loongarch64 with
          | (true, s) => (some 3, s)
          | (false, s) => (none, s)

/-- The kind and the code of a relocation in the target, or the status of a failure. -/
def relocationKind (s : State) (target : Target) (r : Relocation) (undefined : Nat) :
    Except Nat (Nat × Nat) × State :=
  if r.kind = 4 then
    if target.format = 2 then (.ok (8, 2), s)
    else if undefined = 0 then (.ok (3, 0), s)
    else (.ok (4, 0), s)
  else if r.kind ≠ 6 then (.ok (r.kind, 0), s)
  else
    match namespaceMachine s r.namespaceName with
    | (machine, s) =>
        if s.status ≠ 0 then (.error s.status, s)
        else
          match machine with
          | none => (.error 3, s)
          | some machine =>
              if machine ≠ target.machine then (.error 4, s)
              else if target.format = 0 then (.ok (6, r.code), s)
              else if target.format = 2 ∧ machine = 1 ∧ (r.code = 282 ∨ r.code = 283) then
                (.ok (8, 2), s)
              else if target.format = 1 ∧ machine = 1 then
                if r.code = 274 then (.ok (7, 5), s)
                else if r.code = 280 then (.ok (7, 15), s)
                else if r.code = 282 ∨ r.code = 283 then (.ok (7, 3), s)
                else (.error 5, s)
              else (.error 6, s)

def emitRelocation (r : Relocation) (kind code : Nat) : Relocation :=
  { r with kind := kind, namespaceName := { data := 0, bytes := [] }, code := code }

/-! ## Sections -/

def sectionKind (kind : Nat) : Nat := if kind = 2 then 3 else if kind = 3 then 2 else kind

def emitSection (s : Section) : Section := { s with kind := sectionKind s.kind }

/-! ## The entry -/

/-- What the caller passes; capacities are the lengths of the output arrays. -/
structure Arguments where
  target : Option Target
  sections : Rows Section
  symbols : Rows Symbol
  relocations : Rows Relocation
  outputSections : Rows Section
  outputSymbols : Rows Symbol
  outputRelocations : Rows Relocation
  scratch : Rows Nat
  result : Nat

/-- A failure: the status, and the index in the result. -/
structure Failure where
  status : Nat
  index : Nat

/-- The output arrays and the number of output symbols. -/
structure Output where
  sections : List Section
  symbols : List Symbol
  relocations : List Relocation
  symbolCount : Nat

def check (condition : Bool) (status index : Nat) : Except Failure Unit :=
  if condition then .ok () else .error { status := status, index := index }

def checkSections : List Section → Nat → State → Except Failure State
  | [], _, s => .ok s
  | row :: rows, index, s =>
      match charge s 1 with
      | (false, _) => .error { status := 9, index := index }
      | (true, s) => do
          check (sectionValid row) 8 index
          checkSections rows (index + 1) s

def registerSymbols (sectionCount : Nat) : List Symbol → Nat → State → Except Failure State
  | [], _, s => .ok s
  | row :: rows, index, s =>
      match charge s 1 with
      | (false, _) => .error { status := 9, index := index }
      | (true, s) => do
          check (symbolValid row) 8 index
          check (row.sectionIndex = noSection || row.sectionIndex < sectionCount) 2 index
          match registerSymbol s row index with
          | (false, s) => .error { status := s.status, index := index }
          | (true, s) => registerSymbols sectionCount rows (index + 1) s

/-- Check the relocations and reserve a slot for each new name; the number of new names comes
with the state. -/
def reserveNames (target : Target) (sectionCount : Nat) :
    List Relocation → Nat → Nat → State → Except Failure (Nat × State)
  | [], _, missing, s => .ok (missing, s)
  | row :: rows, index, missing, s =>
      match charge s 1 with
      | (false, _) => .error { status := 9, index := index }
      | (true, s) => do
          check (relocationValid row sectionCount) 8 index
          match findName s row.name with
          | (none, s) => .error { status := s.status, index := index }
          | (some slot, s) =>
              let undefined := if s.word slot ≠ 0 then s.word (slot + 2) else 1
              match relocationKind s target row undefined with
              | (.error status, _) => .error { status := status, index := index }
              | (.ok _, s) =>
                  if s.word slot = 0 then
                    -- Emission will compare the complete name in this slot.
                    match charge s row.name.length with
                    | (false, _) => .error { status := 9, index := index }
                    | (true, s) =>
                        reserveNames target sectionCount rows (index + 1) (missing + 1)
                          (s.fill slot 2 index 1)
                  else reserveNames target sectionCount rows (index + 1) missing s

def emitSections : List Section → Nat → List Section → List Section
  | [], _, out => out
  | row :: rows, index, out => emitSections rows (index + 1) (out.set index (emitSection row))

def copySymbols : List Symbol → Nat → List Symbol → List Symbol
  | [], _, out => out
  | row :: rows, index, out => copySymbols rows (index + 1) (out.set index row)

/-- The output symbols and relocations. The lookups are those of the checks, and whether they
succeed is not looked at again. -/
def emitRelocations (target : Target) :
    List Relocation → Nat → Nat → State → List Symbol → List Relocation →
      List Symbol × List Relocation
  | [], _, _, _, symbols, relocations => (symbols, relocations)
  | row :: rows, index, next, s, symbols, relocations =>
      let found := findName s row.name
      let slot := found.1.getD 0
      let selected := relocationKind found.2 target row (found.2.word (slot + 2))
      let chosen := selected.1.toOption.getD (row.kind, 0)
      let s := selected.2
      let relocations := relocations.set index (emitRelocation row chosen.1 chosen.2)
      if s.word slot = 2 ∧ s.word (slot + 1) = index then
        emitRelocations target rows (index + 1) (next + 1) s
          (symbols.set next (emitUndefined row)) relocations
      else emitRelocations target rows (index + 1) next s symbols relocations

def workLimit : Nat := 67108864

/-- The index that the checks of the rows leave in the result. -/
def lastIndex (a : Arguments) : Nat :=
  if a.relocations.rows ≠ [] then a.relocations.rows.length - 1
  else if a.symbols.rows ≠ [] then a.symbols.rows.length - 1
  else a.sections.rows.length - 1

/-- `whale_asmobj`; a status other than zero is a failure. -/
def whaleAsmobj (a : Arguments) : Except Failure Output := do
  check (a.result ≠ 0) 8 0
  check (targetValid a.target) 1 0
  let sectionCount := a.sections.rows.length
  let symbolCount := a.symbols.rows.length
  let relocationCount := a.relocations.rows.length
  let scratchWords := a.scratch.rows.length
  check (arrayValid a.sections.data sectionCount 56 && arrayValid a.symbols.data symbolCount 64 &&
    arrayValid a.relocations.data relocationCount 72 &&
    arrayValid a.scratch.data scratchWords 8 &&
    symbolCount ≤ 18446744073709551615 - relocationCount) 8 0
  let total := symbolCount + relocationCount
  let slots := scratchWords / 4
  check (total = 0 || !(scratchWords % 4 ≠ 0 || slots = 0 || (slots &&& (slots - 1)) ≠ 0 ||
    slots / 2 < total)) 7 0
  check (sectionCount ≤ a.outputSections.rows.length &&
    symbolCount ≤ a.outputSymbols.rows.length &&
    relocationCount ≤ a.outputRelocations.rows.length) 7 0
  check (arrayValid a.outputSections.data sectionCount 56 &&
    arrayValid a.outputSymbols.data symbolCount 64 &&
    arrayValid a.outputRelocations.data relocationCount 72) 8 0
  check (scratchWords ≤ workLimit) 9 0
  let s : State :=
    { symbols := a.symbols.rows, relocations := a.relocations.rows
      scratch := a.scratch.rows.map fun _ => 0
      slots := slots, work := workLimit - scratchWords, status := 0 }
  let s ← checkSections a.sections.rows 0 s
  let s ← registerSymbols sectionCount a.symbols.rows 0 s
  match a.target with
  | none => .error { status := 1, index := 0 }
  | some target => do
      let (missing, s) ← reserveNames target sectionCount a.relocations.rows 0 0 s
      let needed := symbolCount + missing
      check (needed ≤ a.outputSymbols.rows.length) 7 (lastIndex a)
      check (arrayValid a.outputSymbols.data needed 64) 8 (lastIndex a)
      -- What was spent bounds what emission spends again.
      check (workLimit - s.work ≤ s.work) 9 (lastIndex a)
      let emitted := emitRelocations target a.relocations.rows 0 symbolCount s
        (copySymbols a.symbols.rows 0 a.outputSymbols.rows) a.outputRelocations.rows
      return {
        sections := emitSections a.sections.rows 0 a.outputSections.rows
        symbols := emitted.1
        relocations := emitted.2
        symbolCount := needed }

end Whale.Asmobj
