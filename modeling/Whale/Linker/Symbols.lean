import Whale.Lib.AssocMap
import Whale.Object.Object

set_option autoImplicit false

/-! # Symbol resolution and selection of inputs

`resolve` is the symbol table of a list of objects; `select` picks the objects of a link from
the inputs, extracting from each archive the members that are demanded. -/

namespace Whale.Linker

/-! ## The symbol table -/

/-- Local names belong to one input object; exported names share a link namespace. -/
inductive SymbolKey where
  | global (name : String)
  | local (objectIndex : Nat) (name : String)
  deriving DecidableEq

structure ResolvedSymbol where
  name : String
  /-- `none` for the defined zero value of an unresolved weak reference. -/
  objectIndex : Option Nat
  sectionIndex : Option Nat
  value : UInt64
  size : UInt64
  binding : SymbolBinding
  kind : SymbolKind
  visibility : SymbolVisibility

structure ResolvedReference where
  objectIndex : Nat
  sectionIndex : Nat
  offset : Nat
  target : SymbolKey
  weakUndefined : Bool
  deriving DecidableEq

structure SymbolTable where
  symbols : AssocMap SymbolKey ResolvedSymbol
  /-- One entry per relocation, in input object and relocation order. -/
  references : List ResolvedReference

inductive ResolveError where
  | invalidTarget (input : Nat)
  | invalidObject (input : Nat) (cause : ObjectError)
  | duplicateLocal (object : Nat) (name : String)
  | duplicateGlobal (name : String) (first second : Option Nat)
  | unresolved (name : String) (object sectionIndex offset : Nat)
  deriving DecidableEq

/-- The key under which an object's symbol is known. -/
def symbolKey (objIdx : Nat) (binding : SymbolBinding) (name : String) : SymbolKey :=
  if binding = .local then .local objIdx name else .global name

/-- Add one definition. Strong definitions win over weak ones in either order, the first of
several weak ones is taken. -/
def addDefinition (objIdx : Nat) (symbols : AssocMap SymbolKey ResolvedSymbol)
    (sym : ObjectSymbol) : Except ResolveError (AssocMap SymbolKey ResolvedSymbol) :=
  let key := symbolKey objIdx sym.binding sym.name
  let resolved : ResolvedSymbol :=
    { name := sym.name, objectIndex := some objIdx, sectionIndex := sym.sectionIndex
      value := sym.value, size := sym.size, binding := sym.binding, kind := sym.kind
      visibility := sym.visibility }
  match symbols.get key with
  | none => .ok (symbols.insert key resolved)
  | some existing =>
      if sym.binding = .local then .error (.duplicateLocal objIdx sym.name)
      else match existing.binding, sym.binding with
        | .global, .global =>
            .error (.duplicateGlobal sym.name existing.objectIndex (some objIdx))
        | .global, .weak | .weak, .weak => .ok symbols
        | _, _ => .ok (symbols.insert key resolved)

/-- The definitions of one object. -/
def addDefinitions (symbols : AssocMap SymbolKey ResolvedSymbol) (e : ObjectFile × Nat) :
    Except ResolveError (AssocMap SymbolKey ResolvedSymbol) :=
  (e.1.symbols.filter (·.sectionIndex.isSome)).foldlM (addDefinition e.2) symbols

/-- The references collected so far, and the weak ones among them without a definition. -/
structure Collected where
  references : List ResolvedReference
  weakUndefined : AssocMap SymbolKey ResolvedSymbol

/-- Resolve one relocation of the object at `objIdx`. -/
def addReference (symbols : AssocMap SymbolKey ResolvedSymbol) (obj : ObjectFile) (objIdx : Nat)
    (c : Collected) (reloc : ObjectRelocation) : Except ResolveError Collected := do
  let declarations := AssocMap.extend [] (obj.symbols.map fun s => (s.name, s))
  let declaration := AssocMap.get reloc.symbol declarations
  let key :=
    if declaration.any (·.binding = .local) then SymbolKey.local objIdx reloc.symbol
    else .global reloc.symbol
  let missing := (symbols.get key).isNone
  let weak := declaration.any (·.binding = .weak)
  require (¬ (missing = true ∧ weak = false))
    (ResolveError.unresolved reloc.symbol objIdx reloc.sectionIndex reloc.offset)
  let weakUndefined := match missing, declaration with
    | true, some declaration =>
        if (c.weakUndefined.get key).isSome then c.weakUndefined
        else c.weakUndefined.insert key
          { name := reloc.symbol, objectIndex := none, sectionIndex := none, value := 0
            size := 0, binding := .weak, kind := declaration.kind
            visibility := declaration.visibility }
    | _, _ => c.weakUndefined
  return {
    references := c.references ++
      [{ objectIndex := objIdx, sectionIndex := reloc.sectionIndex, offset := reloc.offset
         target := key, weakUndefined := missing }]
    weakUndefined := weakUndefined }

/-- The references of one object. -/
def addReferences (symbols : AssocMap SymbolKey ResolvedSymbol) (c : Collected)
    (e : ObjectFile × Nat) : Except ResolveError Collected :=
  e.1.relocations.foldlM (addReference symbols e.1 e.2) c

/-- The checks on the object at `index`. -/
def checkInput (e : ObjectFile × Nat) : Except ResolveError Unit :=
  match e.1.target.validateAmd64 with
  | .error _ => .error (.invalidTarget e.2)
  | .ok () =>
      match e.1.validate with
      | .error cause => .error (.invalidObject e.2 cause)
      | .ok () => .ok ()

/-- Only actual relocations require resolution; an unsatisfied weak reference resolves to
zero. -/
def resolve (objects : List ObjectFile) : Except ResolveError SymbolTable := do
  objects.zipIdx.forM checkInput
  let symbols ← objects.zipIdx.foldlM addDefinitions []
  let collected ← objects.zipIdx.foldlM (addReferences symbols)
    { references := [], weakUndefined := [] }
  return { symbols := symbols.extend collected.weakUndefined, references := collected.references }

/-! ## Selection -/

structure ArchiveObject where
  name : String
  object : ObjectFile

inductive LinkInput where
  | object (object : ObjectFile)
  | archive (members : List ArchiveObject)

inductive SelectionError where
  | objectLimit
  | workBudget
  | payloadLimit
  deriving DecidableEq

/-- The state of a selection: what is selected, the work left and the payload so far. -/
structure Selection where
  selected : List ObjectFile
  fuel : Nat
  payloadBytes : Nat

abbrev SelectM := EStateM SelectionError Selection

/-- A global or weak definition. -/
def exports (symbol : ObjectSymbol) : Bool :=
  symbol.sectionIndex.isSome && symbol.binding ≠ .local

def charge : SelectM Unit := do
  let s ← get
  let fuel ← orThrow (checkedSub s.fuel 1) SelectionError.workBudget
  set { s with fuel := fuel }

def checkPayload (object : ObjectFile) (maxBytes : Nat) : SelectM Unit :=
  object.sections.forM fun section' => do
    let s ← get
    let total ← orThrow ((checkedAdd s.payloadBytes section'.data.length).filter (· ≤ maxBytes))
      SelectionError.payloadLimit
    set { s with payloadBytes := total }

/-- The names of the exported definitions, one charge a symbol. -/
def definitions (objects : List ObjectFile) : SelectM (List String) := do
  let symbols := objects.flatMap ObjectFile.symbols
  symbols.forM fun _ => charge
  return (symbols.filter exports).map ObjectSymbol.name

/-- The names the relocations of one object still need. -/
def needs (definitions : List String) (object : ObjectFile) : SelectM (List String) := do
  let locals := (object.symbols.filter fun s =>
    s.binding = .local && s.sectionIndex.isSome).map ObjectSymbol.name
  let weak := (object.symbols.filter fun s =>
    s.binding = .weak && s.sectionIndex.isNone).map ObjectSymbol.name
  object.relocations.forM fun _ => charge
  return (object.relocations.map ObjectRelocation.symbol).filter fun name =>
    name ∉ definitions && name ∉ locals && name ∉ weak

/-- The names that no selected object defines and that the entry or a relocation needs. -/
def unresolved (entry : String) : SelectM (List String) := do
  let s ← get
  let definitions ← definitions s.selected
  let needed ← s.selected.mapM (needs definitions)
  return (if entry ∈ definitions then [] else [entry]) ++ needed.flatten

/-- Does the member define a demanded symbol? The search stops at the first. -/
def defines (demand : List String) : List ObjectSymbol → SelectM Bool
  | [] => pure false
  | symbol :: symbols => do
      charge
      if exports symbol && decide (symbol.name ∈ demand) then return true
      else defines demand symbols

/-- The first unused member that defines a demanded symbol. -/
def findMember (demand : List String) (used : List Nat) :
    List (ArchiveObject × Nat) → SelectM (Option (ArchiveObject × Nat))
  | [] => pure none
  | e :: members => do
      if e.2 ∈ used then findMember demand used members
      else if ← defines demand e.1.object.symbols then return some e
      else findMember demand used members

/-- Rescan an archive until no unused member is demanded. Every round but the last uses up
one more member. -/
def extract (entry : String) (maxBytes : Nat) (members : List ArchiveObject) :
    Nat → List Nat → SelectM Unit
  | 0, _ => pure ()
  | rounds + 1, used => do
      let demand ← unresolved entry
      match ← findMember demand used members.zipIdx with
      | none => pure ()
      | some (member, index) => do
          checkPayload member.object maxBytes
          modify fun s => { s with selected := s.selected ++ [member.object] }
          let s ← get
          require (s.selected.length ≤ 4096) SelectionError.objectLimit
          extract entry maxBytes members rounds (index :: used)

def selectInput (entry : String) (maxBytes : Nat) : LinkInput → SelectM Unit
  | .object object => do
      let s ← get
      require (s.selected.length < 4096) SelectionError.objectLimit
      checkPayload object maxBytes
      modify fun s => { s with selected := s.selected ++ [object] }
  | .archive members => extract entry maxBytes members (members.length + 1) []

/-- Unix left-to-right archive semantics; later inputs do not cause earlier archives to be
revisited. -/
def select (inputs : List LinkInput) (entry : String) (maxBytes : Nat) :
    Except SelectionError (List ObjectFile) :=
  let start : Selection := { selected := [], fuel := 10000000, payloadBytes := 0 }
  match inputs.forM (selectInput entry maxBytes) start with
  | .ok _ s => .ok s.selected
  | .error e _ => .error e

end Whale.Linker
