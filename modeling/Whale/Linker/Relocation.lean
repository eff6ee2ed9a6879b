import Whale.Linker.Layout
import Whale.Linker.Symbols

set_option autoImplicit false

/-! # Application of relocations

Checked, transactional application of the static AMD64 relocations: every patch is computed
and checked before any is applied. -/

namespace Whale.Linker

inductive RelocationErrorKind where
  | invalidInput
  | resolution (cause : ResolveError)
  | layout
  | unsupported
  | range
  | overlap
  | limit
  /-- An index or a key that is not there. -/
  | panic
  deriving DecidableEq

structure RelocationError where
  kind : RelocationErrorKind
  object : Option Nat
  sectionIndex : Option Nat
  offset : Option Nat
  deriving DecidableEq

def RelocationError.new (kind : RelocationErrorKind) : RelocationError where
  kind := kind
  object := none
  sectionIndex := none
  offset := none

/-- Object, section and offset of a patch; ordered lexicographically. -/
abbrev PatchKey := Nat × Nat × Nat

def PatchKey.lt (a b : PatchKey) : Bool :=
  a.1 < b.1 || (a.1 = b.1 && (a.2.1 < b.2.1 || (a.2.1 = b.2.1 && a.2.2 < b.2.2)))

/-- The ends of the patches so far, in the order of their keys. -/
abbrev Occupied := List (PatchKey × Nat)

def Occupied.insert (key : PatchKey) (stop : Nat) : Occupied → Occupied
  | [] => [(key, stop)]
  | e :: es =>
      if PatchKey.lt key e.1 then (key, stop) :: e :: es
      else if key = e.1 then (key, stop) :: es
      else e :: Occupied.insert key stop es

/-- Does the patch from `key` to `stop` touch the patch before or the patch after it? -/
def Occupied.overlaps (occupied : Occupied) (key : PatchKey) (stop : Nat) : Bool :=
  let before := (occupied.takeWhile fun e => !PatchKey.lt key e.1).getLast?
  let after := (occupied.dropWhile fun e => PatchKey.lt e.1 key).head?
  before.any (fun e => e.1.1 = key.1 && e.1.2.1 = key.2.1 && e.2 > key.2.2) ||
    after.any (fun e => e.1.1 = key.1 && e.1.2.1 = key.2.1 && e.1.2.2 < stop)

structure Patch where
  objectIndex : Nat
  sectionIndex : Nat
  offset : Nat
  bytes : List UInt8
  deriving DecidableEq

/-- The value a relocation stores and the width of its field, from the target address and
the address of the field. -/
def RelocKind.value (kind : RelocKind) (absolute : Int) (place : Nat) : Option (Int × Nat) :=
  match kind with
  | .absolute64 => some (absolute, 8)
  | .absolute32 | .signedAbsolute32 => some (absolute, 4)
  | .relative32 | .plt32 => some (absolute - place, 4)
  | .relative8 => some (absolute - place, 1)
  | _ => none

/-- Does the field hold the value? -/
def RelocKind.fits (kind : RelocKind) (value : Int) : Bool :=
  match kind with
  | .absolute64 => decide (0 ≤ value ∧ value < 2 ^ 64)
  | .absolute32 => decide (0 ≤ value ∧ value < 2 ^ 32)
  | .signedAbsolute32 | .relative32 | .plt32 => decide (-2 ^ 31 ≤ value ∧ value < 2 ^ 31)
  | .relative8 => decide (-2 ^ 7 ≤ value ∧ value < 2 ^ 7)
  | _ => false

/-- The address a reference resolves to. -/
def targetAddress (layout : Layout) (symbol : ResolvedSymbol) (reference : ResolvedReference) :
    Except RelocationError Nat :=
  match symbol.objectIndex, symbol.sectionIndex with
  | some owner, some sectionIndex =>
      orThrow (layout.address owner sectionIndex >>= fun base => checkedAdd base symbol.value.toNat)
        (RelocationError.new .layout)
  | none, none =>
      if reference.weakUndefined then .ok 0 else .error (.new .unsupported)
  | _, _ => .error (.new .unsupported)

/-- Check one relocation against the patches so far. -/
def patchOf (objects : List ObjectFile) (layout : Layout) (symbols : SymbolTable)
    (occupied : Occupied) (relocation : ObjectRelocation) (reference : ResolvedReference) :
    Except RelocationError (Patch × Occupied) := do
  let oi := reference.objectIndex
  let si := reference.sectionIndex
  let object ← orThrow objects[oi]? (RelocationError.new .panic)
  let symbol ← orThrow (symbols.symbols.get reference.target) (RelocationError.new .panic)
  let target ← targetAddress layout symbol reference
  let base ← orThrow (layout.address oi si) (RelocationError.new .panic)
  let place ← orThrow (checkedAdd base relocation.offset) (RelocationError.new .layout)
  let absolute : Int := target + relocation.addend.toInt
  let (value, width) ← orThrow (RelocKind.value relocation.kind absolute place)
    (RelocationError.new .unsupported)
  require (RelocKind.fits relocation.kind value = true) (RelocationError.new .range)
  let section' ← orThrow object.sections[si]? (RelocationError.new .panic)
  let stop ← orThrow
    ((checkedAdd relocation.offset width).filter (· ≤ section'.data.length))
    (RelocationError.new .range)
  let key := (oi, si, relocation.offset)
  require (occupied.overlaps key stop = false) (RelocationError.new .overlap)
  return (
    { objectIndex := oi, sectionIndex := si, offset := relocation.offset
      bytes := (leBytes 8 (value % 2 ^ 64).toNat).take width },
    occupied.insert key stop)

/-- The patches of all relocations. An error names the place of its relocation. -/
def patchesOf (objects : List ObjectFile) (layout : Layout) (symbols : SymbolTable) :
    List (ObjectRelocation × ResolvedReference) → Occupied → Except RelocationError (List Patch)
  | [], _ => .ok []
  | (relocation, reference) :: es, occupied =>
      match patchOf objects layout symbols occupied relocation reference with
      | .error e => .error { e with
          object := some reference.objectIndex, sectionIndex := some reference.sectionIndex
          offset := some reference.offset }
      | .ok (patch, occupied) => do
          let patches ← patchesOf objects layout symbols es occupied
          return patch :: patches

/-- The checks on one section and the payload bytes with it. -/
def checkPlacement (layout : Layout) (maxBytes : Nat) (total : Nat)
    (e : (Nat × Nat) × Section) : Except RelocationError Nat := do
  let address ← orThrow (layout.address e.1.1 e.1.2) (RelocationError.new .layout)
  let size ← orThrow e.2.memorySize (RelocationError.new .invalidInput)
  let _ ← orThrow (checkedAdd address size) (RelocationError.new .layout)
  orThrow ((checkedAdd total e.2.data.length).filter (· ≤ maxBytes)) (RelocationError.new .limit)

/-- All sections in input order, with their object and section indices. -/
def allSections (objects : List ObjectFile) : List ((Nat × Nat) × Section) :=
  objects.zipIdx.flatMap fun o => o.1.sections.zipIdx.map fun s => ((o.2, s.2), s.1)

/-- The payloads of all sections. -/
abbrev Payloads := List (List (List UInt8))

/-- The payload of a section. -/
def Payloads.at? (payloads : Payloads) (objectIndex sectionIndex : Nat) : Option (List UInt8) :=
  payloads[objectIndex]? >>= (·[sectionIndex]?)

def applyPatch (payloads : Payloads) (p : Patch) : Payloads :=
  payloads.modify p.objectIndex (·.modify p.sectionIndex (patch · p.offset p.bytes))

/-- Patched section payloads; no input is changed, and nothing is returned on any failure. -/
def applyRelocations (objects : List ObjectFile) (layout : Layout) (maxBytes : Nat) :
    Except RelocationError Payloads := do
  let symbols ← (resolve objects).mapError fun cause => RelocationError.new (.resolution cause)
  let _ ← (allSections objects).foldlM (checkPlacement layout maxBytes) 0
  let patches ← patchesOf objects layout symbols
    ((objects.flatMap ObjectFile.relocations).zip symbols.references) []
  return patches.foldl applyPatch (objects.map fun o => o.sections.map Section.data)

end Whale.Linker
