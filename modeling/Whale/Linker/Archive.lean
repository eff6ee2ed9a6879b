import Mathlib.Algebra.BigOperators.Group.List.Basic
import Whale.Lib.Except
import Whale.Lib.Scan
import Whale.Lib.Text

set_option autoImplicit false

/-! # Reading archives

A bounded reader of ordinary Unix archives. Thin archives are rejected. A part of the input is a
slice of it; a part that is taken without a check is a panic when it is not there, and so is
unchecked arithmetic that overflows. -/

namespace Whale.Linker

inductive ArchiveError where
  | notArchive
  | inputLimit
  | workBudget
  | nameBudget
  | headerOverflow
  | truncatedHeader
  | invalidTrailer
  | sizeOverflow
  | memberExceedsInput
  | nameEncoding
  | bsdNameExceedsMember
  | longNamesMissing
  | longNameOffset
  | unterminatedLongName
  | invalidName
  | memberLimit
  | missingPadding
  | invalidDecimal
  | decimalOverflow
  | panic
  deriving DecidableEq

structure ArchiveMember where
  name : String
  bytes : Slice
  deriving DecidableEq

namespace Archive

structure Limits where
  maxNames : Nat
  maxStrings : Nat
  maxWork : Nat
  deriving DecidableEq

def magic : List UInt8 := [0x21, 0x3c, 0x61, 0x72, 0x63, 0x68, 0x3e, 0x0a]

def maxInput : Nat := 256 * 1024 * 1024

def maxMembers : Nat := 4096

def chargeArchive (work amount limit : Nat) : Except ArchiveError Nat :=
  orThrow ((checkedAdd work amount).filter (· ≤ limit)) ArchiveError.workBudget

/-- An unchecked sum. -/
def plus (a b : Nat) : Except ArchiveError Nat := orThrow (checkedAdd a b) ArchiveError.panic

/-- A part that must be there. -/
def index (s : Slice) (lo hi : Nat) : Except ArchiveError Slice :=
  orThrow (s.get lo hi) ArchiveError.panic

/-- The number of a decimal field; white space around it does not count. -/
def decimal (t : Text) : Except ArchiveError Nat := do
  let value := t.trim
  require (value ≠ [] ∧ value.all Char.isDigit = true) ArchiveError.invalidDecimal
  let n := Nat.ofDigitChars 10 value 0
  require (n < wordBound) ArchiveError.decimalOverflow
  return n

def decimalField (bytes : List UInt8) : Except ArchiveError Nat := do
  let value ← orThrow (ofBytes bytes) ArchiveError.invalidDecimal
  decimal value.toList

def trimEnd (t : Text) : Text := t.rdropWhile Text.isWhite

/-- `str::trim_end_matches`. -/
def trimEndMatches (c : Char) (t : Text) : String := String.ofList (t.rdropWhile (· == c))

def bsdIndexNames : List String :=
  ["__.SYMDEF", "__.SYMDEF SORTED", "__.SYMDEF_64", "__.SYMDEF_64 SORTED"]

def isBsdIndex (name : String) : Bool := bsdIndexNames.contains name

/-! ## Names -/

/-- What the name field of a member says. -/
structure Decoded where
  /-- A table and an index have no name. -/
  name : Option String
  payload : Slice
  /-- The bytes of the name that were inspected elsewhere. -/
  inspected : Option Nat
  longNames : Option Slice
  work : Nat
  deriving DecidableEq

/-- A name at the start of the member, of `count` bytes. -/
def bsdName (input : List UInt8) (limits : Limits) (work : Nat) (longNames : Option Slice)
    (payload : Slice) (count : Text) : Except ArchiveError Decoded := do
  let length ← decimal count
  let work ← chargeArchive work length limits.maxWork
  let name ← orThrow (payload.get 0 length) ArchiveError.bsdNameExceedsMember
  let payload ← index payload length payload.length
  let name ← orThrow (ofBytes (name.bytes input)) ArchiveError.nameEncoding
  return {
    name := some (trimEndMatches '\x00' name.toList), payload := payload
    inspected := some length, longNames := longNames, work := work }

/-- A name of the table of long names, which ends at a line feed or a zero byte. -/
def longName (input : List UInt8) (limits : Limits) (work : Nat) (longNames : Option Slice)
    (payload : Slice) (offset : Text) : Except ArchiveError Decoded := do
  let offset ← decimal offset
  let table ← orThrow longNames ArchiveError.longNamesMissing
  let suffix ← orThrow (table.get offset table.length) ArchiveError.longNameOffset
  let remaining ← orThrow (checkedSub limits.maxWork work) ArchiveError.panic
  let search ← index suffix 0 (min suffix.length (min (remaining + 1) wordMax))
  match (search.bytes input).findIdx? fun b => b == 0x0a || b == 0 with
  | none =>
      if suffix.length > remaining then throw .workBudget else throw .unterminatedLongName
  | some length => do
      let inspected ← plus length 1
      let work ← chargeArchive work inspected limits.maxWork
      let name ← index suffix 0 length
      let name ← orThrow (ofBytes (name.bytes input)) ArchiveError.nameEncoding
      return {
        name := some (trimEndMatches '/' name.toList), payload := payload
        inspected := some inspected, longNames := longNames, work := work }

def decodeName (input : List UInt8) (limits : Limits) (work : Nat) (longNames : Option Slice)
    (payload : Slice) (raw : Text) : Except ArchiveError Decoded :=
  if raw = "//".toList then
    return {
      name := none, payload := payload, inspected := none, longNames := some payload
      work := work }
  else if raw = "/".toList ∨ raw = "/SYM64/".toList then
    return {
      name := none, payload := payload, inspected := none, longNames := longNames, work := work }
  else
    match Text.stripPrefix "#1/".toList raw with
    | some count => bsdName input limits work longNames payload count
    | none =>
        match Text.stripPrefix "/".toList raw with
        | some offset => longName input limits work longNames payload offset
        | none =>
            return {
              name := some (trimEndMatches '/' raw), payload := payload, inspected := none
              longNames := longNames, work := work }

/-! ## Members -/

/-- The variables of the loop over the members. -/
structure Parse where
  work : Nat
  cursor : Nat
  members : List ArchiveMember
  names : Nat
  strings : Nat
  longNames : Option Slice
  deriving DecidableEq

/-- Keep a member, unless it is an index. -/
def addMember (limits : Limits) (p : Parse) (d : Decoded) : Except ArchiveError Parse :=
  let p := { p with work := d.work, longNames := d.longNames }
  match d.name with
  | none => return p
  | some name =>
      if isBsdIndex name then return p
      else do
        let length := name.utf8ByteSize
        let names ← orThrow ((checkedAdd p.names length).filter (· ≤ limits.maxNames))
          ArchiveError.nameBudget
        -- What was inspected and what is copied.
        let strings ← orThrow (((checkedAdd p.strings (d.inspected.getD length)).bind
          (checkedAdd · length)).filter (· ≤ limits.maxStrings)) ArchiveError.nameBudget
        let work ← chargeArchive p.work (min (min (length * 2) wordMax + 1) wordMax) limits.maxWork
        require (name ≠ "" ∧ '\x00' ∉ name.toList) ArchiveError.invalidName
        require (p.members.length < maxMembers) ArchiveError.memberLimit
        return { p with
          names := names, strings := strings, work := work
          members := p.members ++ [{ name := name, bytes := d.payload }] }

/-- The padding behind a member of `size` bytes. -/
def skipPadding (input : List UInt8) (stop size : Nat) : Except ArchiveError Nat :=
  if size % 2 ≠ 0 then do
    require (input[stop]? = some 0x0a) ArchiveError.missingPadding
    plus stop 1
  else return stop

def readMember (input : List UInt8) (limits : Limits) (p : Parse) : Except ArchiveError Parse := do
  let work ← chargeArchive p.work 60 limits.maxWork
  let stop ← orThrow (checkedAdd p.cursor 60) ArchiveError.headerOverflow
  let header ← orThrow ((Slice.whole input).get p.cursor stop) ArchiveError.truncatedHeader
  let trailer ← index header 58 header.length
  require (trailer.bytes input = [0x60, 0x0a]) ArchiveError.invalidTrailer
  let field ← index header 48 58
  let size ← decimalField (field.bytes input)
  let start ← plus p.cursor 60
  let stop ← orThrow (checkedAdd start size) ArchiveError.sizeOverflow
  let payload ← orThrow ((Slice.whole input).get start stop) ArchiveError.memberExceedsInput
  let field ← index header 0 16
  let raw ← orThrow (ofBytes (field.bytes input)) ArchiveError.nameEncoding
  let decoded ← decodeName input limits work p.longNames payload (trimEnd raw.toList)
  let p ← addMember limits p decoded
  let cursor ← skipPadding input stop size
  return { p with cursor := cursor }

/-- Every member has a header, so that `fuel` is enough when the input is not longer. -/
def readMembers (input : List UInt8) (limits : Limits) : Nat → Parse → Except ArchiveError Parse
  | fuel, p =>
      if p.cursor < input.length then
        match fuel with
        | 0 => throw .panic
        | fuel + 1 => do
            let p ← readMember input limits p
            readMembers input limits fuel p
      else return p

/-- The members of an archive, the bytes of names and the work that were spent. -/
def parseArchive (input : List UInt8) (limits : Limits) :
    Except ArchiveError (List ArchiveMember × Nat × Nat) := do
  require (magic.isPrefixOf input = true) ArchiveError.notArchive
  require (input.length ≤ maxInput) ArchiveError.inputLimit
  let work ← chargeArchive 0 8 limits.maxWork
  let p ← readMembers input limits input.length
    { work := work, cursor := 8, members := [], names := 0, strings := 0, longNames := none }
  return (p.members, p.strings, p.work)

def readArchive (input : List UInt8) : Except ArchiveError (List ArchiveMember) := do
  let (members, _, _) ← parseArchive input
    { maxNames := 1024 * 1024, maxStrings := wordMax, maxWork := 512 * 1024 * 1024 }
  return members

end Archive

end Whale.Linker

/-! # The format of archives

How members, tables of long names and indexes are written, without a reader: the entries of an
archive, the bytes of each of them, and what they stand for. -/

namespace Whale.Linker.Archive

/-! ## Entries -/

/-- Where the name of a member is. -/
inductive NameForm where
  /-- In the header, maybe with a slash behind it. -/
  | short (slash : Bool)
  /-- At an offset of the table of long names, with slashes behind it. -/
  | long (offset slashes : Nat)
  /-- In front of the data, with zeros behind it. -/
  | bsd (zeros : Nat)
  deriving DecidableEq

inductive Item where
  | member (name : String) (form : NameForm) (data : List UInt8)
  /-- The table of long names. -/
  | longNames (table : List UInt8)
  /-- The index of symbols; the wide one has numbers of 64 bits. -/
  | index (wide : Bool) (data : List UInt8)
  deriving DecidableEq

structure Entry where
  item : Item
  /-- The date, the owner and the mode. -/
  fields : List UInt8
  deriving DecidableEq

/-! ## Bytes -/

def spaces (n : Nat) : Text := List.replicate n ' '

/-- A header field of `width` bytes. -/
def fieldBytes (width : Nat) (t : Text) : List UInt8 :=
  textBytes (t ++ spaces (width - (textBytes t).length))

/-- What the name field of an entry says. -/
def Item.nameText : Item → Text
  | .member name (.short slash) _ => name.toList ++ if slash then ['/'] else []
  | .member _ (.long offset _) _ => "/".toList ++ Nat.toDigits 10 offset
  | .member name (.bsd zeros) _ => "#1/".toList ++ Nat.toDigits 10 ((asBytes name).length + zeros)
  | .longNames _ => "//".toList
  | .index false _ => "/".toList
  | .index true _ => "/SYM64/".toList

/-- What stands in front of the data of an entry. -/
def Item.before : Item → List UInt8
  | .member name (.bsd zeros) _ => asBytes name ++ List.replicate zeros 0
  | _ => []

def Item.data : Item → List UInt8
  | .member _ _ data => data
  | .longNames table => table
  | .index _ data => data

def Item.payload (i : Item) : List UInt8 := i.before ++ i.data

def padding (size : Nat) : List UInt8 := if size % 2 ≠ 0 then [0x0a] else []

def Entry.header (e : Entry) : List UInt8 :=
  fieldBytes 16 e.item.nameText ++ (e.fields ++
    (fieldBytes 10 (Nat.toDigits 10 e.item.payload.length) ++ [0x60, 0x0a]))

def Entry.encode (e : Entry) : List UInt8 :=
  e.header ++ (e.item.payload ++ padding e.item.payload.length)

/-- The archive with these entries. -/
def encode (entries : List Entry) : List UInt8 := magic ++ entries.flatMap Entry.encode

/-! ## Well-formed entries -/

/-- A name that a member may have. -/
structure GoodName (name : String) : Prop where
  nonempty : name ≠ ""
  zero : '\x00' ∉ name.toList
  lineFeed : '\n' ∉ name.toList
  last : ∀ c, name.toList.getLast? = some c → c ≠ '/' ∧ Text.isWhite c = false

/-- The name is in a table of long names, where it ends at a line feed or a zero byte. -/
def LongNameAt (table : List UInt8) (name : String) (offset slashes : Nat) : Prop :=
  ∃ before rest terminator, table = before ++ (asBytes name ++ List.replicate slashes 0x2f ++
    terminator :: rest) ∧ before.length = offset ∧ (terminator = 0x0a ∨ terminator = 0)

/-- The name of a member can be found, with the table of long names before it. -/
def NameForm.Finds (table : Option (List UInt8)) (name : String) : NameForm → Prop
  | .short slash =>
      let text := name.toList ++ if slash then ['/'] else []
      ¬ "/".toList <+: text ∧ ¬ "#1/".toList <+: text
  | .long offset slashes => ∃ t, table = some t ∧ LongNameAt t name offset slashes
  | .bsd _ => True

def Item.WellFormed (table : Option (List UInt8)) : Item → Prop
  | .member name form _ => GoodName name ∧ form.Finds table name
  | _ => True

/-- The fields of the header have room for what they say. -/
structure Entry.Fits (e : Entry) : Prop where
  name : (textBytes e.item.nameText).length ≤ 16
  fields : e.fields.length = 32
  size : (Nat.toDigits 10 e.item.payload.length).length ≤ 10

/-- The table of long names behind an entry. -/
def Item.table (before : Option (List UInt8)) : Item → Option (List UInt8)
  | .longNames table => some table
  | _ => before

def WellFormed : Option (List UInt8) → List Entry → Prop
  | _, [] => True
  | table, e :: entries =>
      e.Fits ∧ e.item.WellFormed table ∧ WellFormed (e.item.table table) entries

/-! ## What they stand for -/

/-- The name and the data of an object member; a member with a reserved name is an index. -/
def Item.object : Item → Option (String × List UInt8)
  | .member name _ data => if isBsdIndex name then none else some (name, data)
  | _ => none

def objects (entries : List Entry) : List (String × List UInt8) :=
  entries.filterMap fun e => e.item.object

/-- The bytes of the name that are inspected outside the header. -/
def Item.inspected : Item → Option Nat
  | .member name (.long _ slashes) _ => some ((asBytes name).length + slashes + 1)
  | .member name (.bsd zeros) _ => some ((asBytes name).length + zeros)
  | _ => none

/-- The bytes of the names of objects. -/
def Item.names (i : Item) : Nat := (i.object.map fun o => (asBytes o.1).length).getD 0

/-- The bytes of names that are inspected and copied for objects. -/
def Item.strings (i : Item) : Nat :=
  (i.object.map fun o => i.inspected.getD (asBytes o.1).length + (asBytes o.1).length).getD 0

/-- The work for an entry. -/
def Item.work (i : Item) : Nat :=
  60 + i.inspected.getD 0 + (i.object.map fun o => (asBytes o.1).length * 2 + 1).getD 0

def totalNames (entries : List Entry) : Nat := (entries.map fun e => e.item.names).sum

def totalStrings (entries : List Entry) : Nat := (entries.map fun e => e.item.strings).sum

def totalWork (entries : List Entry) : Nat := 8 + (entries.map fun e => e.item.work).sum

/-- The archive is within all limits. -/
structure WithinLimits (limits : Limits) (entries : List Entry) : Prop where
  input : (encode entries).length ≤ maxInput
  members : (objects entries).length ≤ maxMembers
  names : totalNames entries ≤ limits.maxNames
  strings : totalStrings entries ≤ limits.maxStrings
  work : totalWork entries ≤ limits.maxWork

end Whale.Linker.Archive
