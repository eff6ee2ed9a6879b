import Whale.Assembler.Amd64.Directives
import Whale.Assembler.Amd64.Instructions

set_option autoImplicit false

/-! # The passes of the encoder

A pass goes over the nodes of a source and fills the sections. Jumps are encoded with the layout
of the pass before, and the passes are repeated until the layout stays the same. -/

namespace Whale.Assembler.Amd64

/-- Where everything is after a pass. Each pass defines the same labels in the same order. -/
structure EncodingLayout where
  labels : LabelLocations
  instructionLengths : List Nat
  instructionOffsets : List Nat
  deriving DecidableEq

structure EncodingPass where
  output : AssemblerOutput
  layout : EncodingLayout
  relocationSites : AssocMap (Nat × Nat) Nat

/-- The variables of a pass. -/
structure PassState where
  materialized : Nat
  sections : List AsmSection
  symbols : List AsmSymbol
  definedLabels : List String
  labelLocs : LabelLocations
  jumpKnownLocs : LabelLocations
  instructionLengths : List Nat
  instructionOffsets : List Nat
  externSymbols : List String
  globalSymbols : List String
  labelSites : AssocMap String Nat
  externSites : AssocMap String Nat
  globalSites : AssocMap String Nat
  relocationSites : AssocMap (Nat × Nat) Nat
  symbolMetadata : AssocMap String (SymbolKind × Nat × SymbolVisibility)
  metadataSites : AssocMap String Nat
  currentSection : Nat
  currentNonlocalLabel : Option String
  forcedNear : List Nat

/-- The section that is there from the start. -/
def textSection : AsmSection where
  kind := .text
  align := 16
  name := ".text"
  data := []
  zeroFill := 0
  relocs := []

/-- What does not change in a pass. -/
structure PassInput where
  ast : Ast
  hint : Option EncodingLayout
  consts : AssocMap String Int
  limits : AssemblyLimits

def symbolFailure (text : String) : AsmError := .symbolError (.plain text)

namespace PassState

def start (p : PassInput) (forcedNear : List Nat) : PassState where
  materialized := 0
  sections := [textSection]
  symbols := []
  definedLabels := []
  labelLocs := []
  jumpKnownLocs := (p.hint.map EncodingLayout.labels).getD []
  instructionLengths := List.replicate p.ast.items.length 0
  instructionOffsets := List.replicate p.ast.items.length 0
  externSymbols := []
  globalSymbols := []
  labelSites := []
  externSites := []
  globalSites := []
  relocationSites := []
  symbolMetadata := []
  metadataSites := []
  currentSection := 0
  currentNonlocalLabel := none
  forcedNear := forcedNear

def section' (s : PassState) : AsmSection := s.sections.getD s.currentSection textSection

def setSection (s : PassState) (sec : AsmSection) : PassState :=
  { s with sections := s.sections.set s.currentSection sec }

end PassState

/-! ## Sections and symbols -/

/-- The sections whose kind is fixed by their name. -/
def standardSections : List String := [".text", ".data", ".rodata", ".bss"]

def enterSection (s : PassState) (name : String) (explicit : Option AsmSectionKind) :
    Except AsmError PassState :=
  match s.sections.findIdx? fun sec => sec.name = name with
  | some idx => do
      let existing := s.sections.getD idx textSection
      require (explicit = none ∨ explicit = some existing.kind)
        (failure ("Incompatible section redeclaration '" ++ name ++ "'"))
      return { s with currentSection := idx }
  | none => do
      let default := AsmSectionKind.defaultForName name
      let kind := explicit.getD default
      require (name ∉ standardSections ∨ kind = default)
        (failure ("Standard section '" ++ name ++ "' has incompatible kind"))
      let sec : AsmSection := {
        kind := kind, align := kind.defaultAlignment, name := name, data := [], zeroFill := 0
        relocs := [] }
      return { s with sections := s.sections ++ [sec], currentSection := s.sections.length }

def declareGlobal (s : PassState) (name : String) (index : Nat) : Except AsmError PassState := do
  let resolved ← resolveSymbolName name s.currentNonlocalLabel
  return { s with
    globalSites := orInsert s.globalSites resolved index
    globalSymbols := resolved :: s.globalSymbols }

/-- A symbol before its metadata is known. -/
def newSymbol (name : String) (location : Option (Nat × Nat)) (isGlobal : Bool) : AsmSymbol where
  kind := .noType
  size := 0
  visibility := .default
  name := name
  sectionIndex := location.map Prod.fst
  offset := (location.map Prod.snd).getD 0
  isGlobal := isGlobal

def declareExtern (ast : Ast) (s : PassState) (name : String) (index : Nat) :
    Except AsmError PassState := do
  let resolved ← resolveSymbolName name s.currentNonlocalLabel
  require (resolved ∉ s.definedLabels)
    (ast.errorAt (symbolFailure ("Extern symbol '" ++ resolved ++
      "' was already defined in this file")) index (s.labelSites.get resolved))
  let s := { s with externSites := orInsert s.externSites resolved index }
  if resolved ∈ s.externSymbols then return s
  else return { s with
    externSymbols := resolved :: s.externSymbols
    symbols := s.symbols ++ [newSymbol resolved none true] }

def recordMetadata (p : PassInput) (s : PassState) (name : String) (kind : SymbolKind)
    (size : ExprValue) (visibility : SymbolVisibility) (index : Nat) :
    Except AsmError PassState := do
  let name ← resolveSymbolName name s.currentNonlocalLabel
  let size ← resolveExprSymbols size s.currentNonlocalLabel
  match ← evalExpr size p.consts with
  | .symbol .. => throw (symbolFailure ("symbol '" ++ name ++ "' size must be a constant"))
  | .number size => do
      require (0 ≤ size ∧ size < 2 ^ 64)
        (symbolFailure ("symbol '" ++ name ++ "' size must be a nonnegative u64"))
      require (s.symbolMetadata.get name = none)
        (p.ast.errorAt (symbolFailure ("Duplicate symbol metadata for '" ++ name ++ "'")) index
          (s.metadataSites.get name))
      return { s with
        symbolMetadata := s.symbolMetadata.insert name (kind, size.toNat, visibility)
        metadataSites := s.metadataSites.insert name index }

def defineLabel (p : PassInput) (s : PassState) (name : String) (index : Nat) :
    Except AsmError PassState := do
  let resolved ← resolveSymbolName name s.currentNonlocalLabel
  let s := { s with
    currentNonlocalLabel := Definitions.scopeAfter s.currentNonlocalLabel name resolved }
  require (resolved ∉ s.externSymbols)
    (p.ast.errorAt (symbolFailure ("Label '" ++ resolved ++
      "' conflicts with extern declaration")) index (s.externSites.get resolved))
  require (p.consts.get resolved = none)
    (symbolFailure ("Label '" ++ resolved ++ "' conflicts with constant definition"))
  require (resolved ∉ s.definedLabels)
    (p.ast.errorAt (symbolFailure ("Duplicate label definition '" ++ resolved ++ "'")) index
      (s.labelSites.get resolved))
  let offset ← orThrow (checkedAdd s.section'.data.length s.section'.zeroFill)
    (failure "section size overflow")
  return { s with
    definedLabels := resolved :: s.definedLabels
    labelSites := s.labelSites.insert resolved index
    labelLocs := s.labelLocs.insert resolved (s.currentSection, offset)
    jumpKnownLocs := s.jumpKnownLocs.insert resolved (s.currentSection, offset)
    symbols := s.symbols ++ [newSymbol resolved (some (s.currentSection, offset))
      (decide (resolved ∈ s.globalSymbols))] }

/-! ## Instructions and directives -/

/-- The bytes materialized so far with those that a section gets next, within the limit. -/
def reserveOutput (length extra materialized : Nat) (limits : AssemblyLimits) :
    Except AsmError Nat := do
  let total ← orThrow (checkedAdd materialized extra) (failure "Assembly output size overflow")
  let sectionSize ← orThrow (checkedAdd length extra) (failure "Section output size overflow")
  require (¬ (limits.maxOutputBytes < total ∨ 2 ^ 63 ≤ sectionSize))
    (AsmError.encodeError (.outputLimit limits.maxOutputBytes))
  return total

/-- A branch that may be short. -/
def isRelaxable (mnemonic : String) : Bool := mnemonic == "jmp" || (conditionCode mnemonic).isSome

def placeInstruction (p : PassInput) (s : PassState) (ins : Instruction) (index : Nat) :
    Except AsmError PassState := do
  let named ← resolveInstructionSymbols ins s.currentNonlocalLabel
  let inst ← resolveInstructionConsts named p.consts
  let sec := s.section'
  require (sec.kind ≠ .bss) (failure "instructions are not valid in BSS")
  let curOff := sec.data.length
  let previousLen := (p.hint.map fun layout => layout.instructionLengths.getD index 0).getD 0
  let code ← encodeInstruction inst Code.empty s.currentSection
    ((p.hint.map fun layout => layout.instructionOffsets.getD index 0).getD curOff)
    ((p.hint.map EncodingLayout.labels).getD s.jumpKnownLocs)
    { previousLen := previousLen, forceNear := decide (index ∈ s.forcedNear) }
  let length := code.bytes.length
  -- A short branch that must grow stays near, whatever alignment does to the distances later.
  let grows := decide (previousLen = 2 ∧ 2 < length) && isRelaxable inst.mnemonic
  let materialized ← reserveOutput curOff length s.materialized p.limits
  let relocs := code.relocs.map fun reloc => { reloc with offset := reloc.offset + curOff }
  let s := s.setSection { sec with data := sec.data ++ code.bytes, relocs := sec.relocs ++ relocs }
  return { s with
    forcedNear := if grows then index :: s.forcedNear else s.forcedNear
    instructionLengths := s.instructionLengths.set index length
    instructionOffsets := s.instructionOffsets.set index curOff
    materialized := materialized }

/-- The bytes up to the next multiple of a power of two. -/
def paddingTo (offset alignment : Nat) : Nat := wrappingNeg offset &&& (alignment - 1)

def placeAlignment (p : PassInput) (s : PassState) (dir : Directive) :
    Except AsmError PassState := do
  let alignment ← alignmentValue dir p.consts
  let sec := { s.section' with align := max s.section'.align alignment }
  let offset ← orThrow (checkedAdd sec.data.length sec.zeroFill) (failure "Section size overflow")
  let padding := paddingTo offset alignment
  let _ ← orThrow (checkedAdd offset padding) (failure "Alignment size overflow")
  if sec.kind = .bss then
    let zeroFill ← orThrow (checkedAdd sec.zeroFill padding) (failure "BSS alignment overflow")
    return s.setSection { sec with zeroFill := zeroFill }
  else
    let materialized ← reserveOutput sec.data.length padding s.materialized p.limits
    let fill : UInt8 := if sec.kind = .text then 0x90 else 0
    let s := s.setSection { sec with data := sec.data ++ List.replicate padding fill }
    return { s with materialized := materialized }

def placeDirective (p : PassInput) (s : PassState) (dir : Directive) :
    Except AsmError PassState := do
  let named ← resolveDirectiveSymbols dir s.currentNonlocalLabel
  let sec := s.section'
  if named.name = "align" then placeAlignment p s named
  else if sec.kind = .bss then
    let sec ← encodeBssDirective named sec p.consts
    return s.setSection sec
  else
    let extra ← directiveSize named p.consts
    let materialized ← reserveOutput sec.data.length extra s.materialized p.limits
    let code ← encodeDirective named ⟨sec.data, sec.relocs⟩ p.consts
    let s := s.setSection { sec with data := code.bytes, relocs := code.relocs }
    return { s with materialized := materialized }

/-! ## A pass -/

def encodeNode (p : PassInput) (s : PassState) (node : AstNode) (index : Nat) :
    Except AsmError PassState :=
  match node with
  | .section name => enterSection s name none
  | .sectionAttributes name kind => enterSection s name (some kind)
  | .global name => declareGlobal s name index
  | .external name => declareExtern p.ast s name index
  | .symbolMetadata name kind size visibility => recordMetadata p s name kind size visibility index
  | .const .. => return s
  | .label name => defineLabel p s name index
  | .instruction ins => placeInstruction p s ins index
  | .directive dir => placeDirective p s dir

/-- The node that each relocation of a section from `start` on comes from. -/
def recordSites (s : PassState) (original start index : Nat) : PassState :=
  let stop := (s.sections.getD original textSection).relocs.length
  let sites := ((List.range stop).drop start).foldl
    (fun sites relocation => AssocMap.insert (original, relocation) index sites) s.relocationSites
  { s with relocationSites := sites }

def passStep (p : PassInput) (s : PassState) (e : AstNode × Nat) : Except AsmError PassState := do
  let next ← (encodeNode p s e.1 e.2).mapError fun error => p.ast.errorAt error e.2 none
  return recordSites next s.currentSection s.section'.relocs.length e.2

/-- The smallest of the names. -/
def minName : List String → Option String
  | [] => none
  | name :: names =>
      match minName names with
      | none => some name
      | some least => some (if least < name then least else name)

/-- The symbol ends in its section. -/
def checkExtent (p : PassInput) (s : PassState) (sym : AsmSymbol) (size : Nat) :
    Except AsmError Unit :=
  match sym.sectionIndex with
  | none => return ()
  | some index => do
      let sec := s.sections.getD index textSection
      let extent ← orThrow (checkedAdd sec.data.length sec.zeroFill)
        (symbolFailure "symbol section size overflow")
      require (sym.offset + size ≤ extent)
        (p.ast.errorAt (symbolFailure ("Symbol '" ++ sym.name ++ "' size exceeds its section"))
          ((s.metadataSites.get sym.name).getD 0) none)

def applyMetadata (p : PassInput) (s : PassState) (sym : AsmSymbol) : Except AsmError AsmSymbol :=
  match s.symbolMetadata.get sym.name with
  | none => return sym
  | some (kind, size, visibility) => do
      checkExtent p s sym size
      return { sym with kind, size, visibility }

/-- A symbol with its metadata, and global if it was declared so anywhere. -/
def finishSymbol (p : PassInput) (s : PassState) (sym : AsmSymbol) : Except AsmError AsmSymbol := do
  let sym ← applyMetadata p s sym
  return { sym with isGlobal := sym.isGlobal || decide (sym.name ∈ s.globalSymbols) }

/-- A global name is defined here or declared. -/
def checkGlobals (p : PassInput) (s : PassState) : Except AsmError Unit :=
  let missing := s.globalSymbols.filter fun name =>
    decide (name ∉ s.definedLabels ∧ name ∉ s.externSymbols)
  match minName missing with
  | some name => throw (p.ast.errorAt (symbolFailure ("Global symbol '" ++ name ++
      "' has no definition or extern declaration")) ((s.globalSites.get name).getD 0) none)
  | none => return ()

/-- Which unknown name is reported depends on the order of a hash map. -/
def checkMetadata (p : PassInput) (s : PassState) : Except AsmError Unit :=
  s.symbolMetadata.forM fun e =>
    require (e.1 ∈ s.symbols.map AsmSymbol.name)
      (p.ast.errorAt (symbolFailure ("Metadata symbol '" ++ e.1 ++
        "' has no label or extern declaration")) ((s.metadataSites.get e.1).getD 0) none)

/-- The symbol of a relocation is defined here or declared. -/
def checkRelocation (p : PassInput) (s : PassState) (section' : Nat) (e : Relocation × Nat) :
    Except AsmError Unit :=
  require (e.1.symbol ∈ s.definedLabels ∨ e.1.symbol ∈ s.externSymbols)
    (p.ast.errorAt (symbolFailure ("Undefined symbol '" ++ e.1.symbol ++
      "' (define it, declare with extern, or define with equ)"))
      ((s.relocationSites.get (section', e.2)).getD 0) none)

def checkRelocations (p : PassInput) (s : PassState) : Except AsmError Unit :=
  s.sections.zipIdx.forM fun e => e.1.relocs.zipIdx.forM (checkRelocation p s e.2)

/-- The checks behind the last node. -/
def finishPass (p : PassInput) (s : PassState) : Except AsmError EncodingPass := do
  checkGlobals p s
  checkMetadata p s
  let symbols ← s.symbols.mapM (finishSymbol p s)
  checkRelocations p s
  return {
    output := { sections := s.sections, symbols := symbols }
    layout := {
      labels := s.labelLocs
      instructionLengths := s.instructionLengths
      instructionOffsets := s.instructionOffsets }
    relocationSites := s.relocationSites }

def runPass (p : PassInput) (forcedNear : List Nat) : Except AsmError PassState :=
  p.ast.items.zipIdx.foldlM (passStep p) (PassState.start p forcedNear)

/-- A pass, and the branches that stay near from then on. -/
def encodeOnce (p : PassInput) (forcedNear : List Nat) :
    Except AsmError (EncodingPass × List Nat) := do
  let s ← runPass p forcedNear
  let pass ← finishPass p s
  return (pass, s.forcedNear)

/-! ## Relaxation -/

/-- The bytes of a section and the relocations that are kept. -/
def resolveLoop (pass : EncodingPass) (ast : Ast) (section' : Nat)
    (state : List UInt8 × List Relocation) (e : Relocation × Nat) :
    Except AsmError (List UInt8 × List Relocation) :=
  match (pass.layout.labels.get e.1.symbol).filter fun target =>
    decide (e.1.kind = .relative8 ∧ target.1 = section') with
  | some (_, offset) => do
      let displacement : Int := offset - e.1.offset + e.1.addend
      require (inI8 displacement)
        (ast.errorAt (failure ("loop target '" ++ e.1.symbol ++ "' is out of 8-bit range"))
          ((pass.relocationSites.get (section', e.2)).getD 0) none)
      return (state.1.set e.1.offset (lowByte displacement), state.2)
  | none => return (state.1, state.2 ++ [e.1])

/-- A `loop` has a fixed length, so that its displacement can wait for the final layout. -/
def resolveLoops (ast : Ast) (pass : EncodingPass) : Except AsmError AssemblerOutput := do
  let sections ← pass.output.sections.zipIdx.mapM fun (sec, index) => do
    let (data, relocs) ← sec.relocs.zipIdx.foldlM (resolveLoop pass ast index) (sec.data, [])
    return { sec with data, relocs }
  return { pass.output with sections }

/-- The passes until the layout stays the same; nothing when there are not enough of them. -/
def relax (ast : Ast) (consts : AssocMap String Int) (limits : AssemblyLimits) :
    Nat → Option EncodingLayout → List Nat → Option (Except AsmError EncodingPass)
  | 0, _, _ => none
  | passes + 1, previous, forcedNear =>
      match encodeOnce { ast, hint := previous, consts, limits } forcedNear with
      | .error e => some (.error e)
      | .ok (pass, forcedNear) =>
          if previous = some pass.layout then some (.ok pass)
          else relax ast consts limits passes (some pass.layout) forcedNear

/-- The output, with the error when the layout does not settle. -/
def encodeWithin (ast : Ast) (limits : AssemblyLimits) (unsettled : AsmError) :
    Except AsmError AssemblerOutput := do
  let consts ← resolveConstants ast
  let pass ← (relax ast consts limits limits.maxRelaxIterations none []).getD (throw unsettled)
  resolveLoops ast pass

def encodeWithLimits (ast : Ast) (limits : AssemblyLimits) : Except AsmError AssemblerOutput :=
  encodeWithin ast limits (.encodeError (.notConverged limits.maxRelaxIterations))

end Whale.Assembler.Amd64
