import Whale.Assembler.Amd64.ConstantsSpec
import Whale.Assembler.Amd64.Encoder

set_option autoImplicit false

/-! # What a node does to a pass

For each kind of node, the state behind it when it is accepted, and what was checked. -/

namespace Whale.Assembler.Amd64

open Definitions (resolveSymbolName_ok_iff)

variable {p : PassInput} {s s' : PassState}

/-! ## Sections and symbols -/

/-- A section that a source opens. -/
def openedSection (name : String) (kind : AsmSectionKind) : AsmSection where
  kind := kind
  align := kind.defaultAlignment
  name := name
  data := []
  zeroFill := 0
  relocs := []

variable {name : String}

theorem enterSection_ok {explicit : Option AsmSectionKind}
    (h : enterSection s name explicit = .ok s') :
    (∃ idx, s.sections.findIdx? (fun sec => sec.name = name) = some idx ∧
      s' = { s with currentSection := idx }) ∨
    (s.sections.findIdx? (fun sec => sec.name = name) = none ∧
      s' = { s with
        sections := s.sections ++
          [openedSection name (explicit.getD (AsmSectionKind.defaultForName name))]
        currentSection := s.sections.length }) := by
  unfold enterSection at h
  cases hfind : s.sections.findIdx? fun sec => sec.name = name with
  | some idx =>
      rw [hfind] at h
      obtain ⟨-, h⟩ := require_then_ok_iff.mp h
      cases h
      exact .inl ⟨idx, rfl, rfl⟩
  | none =>
      rw [hfind] at h
      obtain ⟨-, h⟩ := require_then_ok_iff.mp h
      cases h
      exact .inr ⟨rfl, rfl⟩

variable {index : Nat}

theorem declareGlobal_ok (h : declareGlobal s name index = .ok s') :
    ∃ resolved, scopedName s.currentNonlocalLabel name = some resolved ∧
      s' = { s with
        globalSites := orInsert s.globalSites resolved index
        globalSymbols := resolved :: s.globalSymbols } := by
  obtain ⟨resolved, hresolved, h⟩ := bind_ok_iff.mp h
  cases h
  exact ⟨resolved, resolveSymbolName_ok_iff.mp hresolved, rfl⟩

theorem declareExtern_ok {ast : Ast} (h : declareExtern ast s name index = .ok s') :
    ∃ resolved, scopedName s.currentNonlocalLabel name = some resolved ∧
      resolved ∉ s.definedLabels ∧
      ((resolved ∈ s.externSymbols ∧
        s' = { s with externSites := orInsert s.externSites resolved index }) ∨
      (resolved ∉ s.externSymbols ∧
        s' = { s with
          externSites := orInsert s.externSites resolved index
          externSymbols := resolved :: s.externSymbols
          symbols := s.symbols ++ [newSymbol resolved none true] })) := by
  obtain ⟨resolved, hresolved, h⟩ := bind_ok_iff.mp h
  obtain ⟨hfree, h⟩ := require_then_ok_iff.mp h
  refine ⟨resolved, resolveSymbolName_ok_iff.mp hresolved, hfree, ?_⟩
  simp only at h
  split at h
  case isTrue hmem =>
    cases h
    exact .inl ⟨hmem, rfl⟩
  case isFalse hmem =>
    cases h
    exact .inr ⟨hmem, rfl⟩

theorem recordMetadata_ok {kind : SymbolKind} {size : ExprValue} {visibility : SymbolVisibility}
    (h : recordMetadata p s name kind size visibility index = .ok s') :
    ∃ resolved n, scopedName s.currentNonlocalLabel name = some resolved ∧
      s.symbolMetadata.get resolved = none ∧
      s' = { s with
        symbolMetadata := s.symbolMetadata.insert resolved (kind, n, visibility)
        metadataSites := s.metadataSites.insert resolved index } := by
  obtain ⟨resolved, hresolved, h⟩ := bind_ok_iff.mp h
  obtain ⟨expr, -, h⟩ := bind_ok_iff.mp h
  obtain ⟨value, -, h⟩ := bind_ok_iff.mp h
  cases value with
  | symbol => cases h
  | number n =>
      obtain ⟨-, h⟩ := require_then_ok_iff.mp h
      obtain ⟨hfresh, h⟩ := require_then_ok_iff.mp h
      cases h
      exact ⟨resolved, n.toNat, resolveSymbolName_ok_iff.mp hresolved, hfresh, rfl⟩

theorem defineLabel_ok (h : defineLabel p s name index = .ok s') :
    ∃ resolved, scopedName s.currentNonlocalLabel name = some resolved ∧
      resolved ∉ s.externSymbols ∧ resolved ∉ s.definedLabels ∧
      s.section'.data.length + s.section'.zeroFill < wordBound ∧
      s' = { s with
        currentNonlocalLabel := Definitions.scopeAfter s.currentNonlocalLabel name resolved
        definedLabels := resolved :: s.definedLabels
        labelSites := s.labelSites.insert resolved index
        labelLocs := s.labelLocs.insert resolved
          (s.currentSection, s.section'.data.length + s.section'.zeroFill)
        jumpKnownLocs := s.jumpKnownLocs.insert resolved
          (s.currentSection, s.section'.data.length + s.section'.zeroFill)
        symbols := s.symbols ++ [newSymbol resolved
          (some (s.currentSection, s.section'.data.length + s.section'.zeroFill))
          (decide (resolved ∈ s.globalSymbols))] } := by
  obtain ⟨resolved, hresolved, h⟩ := bind_ok_iff.mp h
  obtain ⟨hdeclared, h⟩ := require_then_ok_iff.mp h
  obtain ⟨-, h⟩ := require_then_ok_iff.mp h
  obtain ⟨hlabel, h⟩ := require_then_ok_iff.mp h
  obtain ⟨offset, hoffset, h⟩ := bind_ok_iff.mp h
  obtain ⟨rfl, hbound⟩ := checkedAdd_eq_some.mp (orThrow_ok_iff.mp hoffset)
  cases h
  exact ⟨resolved, resolveSymbolName_ok_iff.mp hresolved, hdeclared, hlabel, hbound, rfl⟩

/-! ## Instructions and directives -/

theorem reserveOutput_ok {length extra materialized total : Nat} {limits : AssemblyLimits}
    (h : reserveOutput length extra materialized limits = .ok total) :
    total = materialized + extra ∧ total ≤ limits.maxOutputBytes ∧ length + extra < 2 ^ 63 := by
  obtain ⟨sum, hsum, h⟩ := bind_ok_iff.mp h
  obtain ⟨size, hsize, h⟩ := bind_ok_iff.mp h
  obtain ⟨hlimit, h⟩ := require_then_ok_iff.mp h
  cases h
  obtain ⟨rfl, -⟩ := checkedAdd_eq_some.mp (orThrow_ok_iff.mp hsum)
  obtain ⟨rfl, -⟩ := checkedAdd_eq_some.mp (orThrow_ok_iff.mp hsize)
  omega

/-- The instruction that is encoded for a node. -/
def resolveInstruction (consts : AssocMap String Int) (scope : Option String) (ins : Instruction) :
    Except AsmError Instruction := do
  let named ← resolveInstructionSymbols ins scope
  resolveInstructionConsts named consts

/-- The length of the instruction at a node in the pass before, if there is one. -/
def PassInput.previousLength (p : PassInput) (index : Nat) : Nat :=
  (p.hint.map fun layout => layout.instructionLengths.getD index 0).getD 0

/-- The state behind an instruction. -/
def afterInstruction (p : PassInput) (s : PassState) (inst : Instruction) (code : Code)
    (index : Nat) : PassState :=
  { s with
    sections := s.sections.set s.currentSection { s.section' with
      data := s.section'.data ++ code.bytes
      relocs := s.section'.relocs ++ code.relocs.map fun reloc =>
        { reloc with offset := reloc.offset + s.section'.data.length } }
    forcedNear :=
      if decide (p.previousLength index = 2 ∧ 2 < code.bytes.length) && isRelaxable inst.mnemonic
      then index :: s.forcedNear else s.forcedNear
    instructionLengths := s.instructionLengths.set index code.bytes.length
    instructionOffsets := s.instructionOffsets.set index s.section'.data.length
    materialized := s.materialized + code.bytes.length }

theorem placeInstruction_ok {ins : Instruction} (h : placeInstruction p s ins index = .ok s') :
    ∃ inst code, resolveInstruction p.consts s.currentNonlocalLabel ins = .ok inst ∧
      s.section'.kind ≠ .bss ∧
      encodeInstruction inst Code.empty s.currentSection
        ((p.hint.map fun layout => layout.instructionOffsets.getD index 0).getD
          s.section'.data.length) ((p.hint.map EncodingLayout.labels).getD s.jumpKnownLocs)
        { previousLen := p.previousLength index, forceNear := decide (index ∈ s.forcedNear) } =
          .ok code ∧
      s.materialized + code.bytes.length ≤ p.limits.maxOutputBytes ∧
      s.section'.data.length + code.bytes.length < 2 ^ 63 ∧
      s' = afterInstruction p s inst code index := by
  obtain ⟨named, hnamed, h⟩ := bind_ok_iff.mp h
  obtain ⟨inst, hinst, h⟩ := bind_ok_iff.mp h
  obtain ⟨hkind, h⟩ := require_then_ok_iff.mp h
  obtain ⟨code, hcode, h⟩ := bind_ok_iff.mp h
  obtain ⟨total, htotal, h⟩ := bind_ok_iff.mp h
  obtain ⟨rfl, hlimit, hsize⟩ := reserveOutput_ok htotal
  cases h
  refine ⟨inst, code, ?_, hkind, hcode, hlimit, hsize, rfl⟩
  unfold resolveInstruction
  rw [hnamed, ok_bind, hinst]

variable {dir : Directive} {consts : AssocMap String Int}

theorem alignmentValue_ok {n : Nat} (h : alignmentValue dir consts = .ok n) :
    ∃ k, k ≤ 64 ∧ n = 2 ^ k := by
  unfold alignmentValue at h
  split at h
  · obtain ⟨value, -, h⟩ := bind_ok_iff.mp h
    cases value with
    | symbol => cases h
    | number z =>
        obtain ⟨⟨-, hbound, hpower⟩, h⟩ := require_then_ok_iff.mp h
        cases h
        obtain ⟨k, hk⟩ := isPowerOfTwo_iff.mp hpower
        refine ⟨k, ?_, hk⟩
        by_contra hlarge
        have hle : 2 ^ 64 ≤ 2 ^ k := Nat.pow_le_pow_right (by decide) (by omega)
        omega
  · cases h
  · cases h

/-- What an alignment adds to the current section. -/
def aligned (s : PassState) (alignment : Nat) : AsmSection :=
  let sec := s.section'
  let padding := paddingTo (sec.data.length + sec.zeroFill) alignment
  if sec.kind = .bss then
    { sec with align := max sec.align alignment, zeroFill := sec.zeroFill + padding }
  else
    { sec with
      align := max sec.align alignment
      data := sec.data ++ List.replicate padding (if sec.kind = .text then 0x90 else 0) }

theorem placeAlignment_ok (h : placeAlignment p s dir = .ok s') :
    ∃ alignment materialized, alignmentValue dir p.consts = .ok alignment ∧
      s' = { s with
        sections := s.sections.set s.currentSection (aligned s alignment)
        materialized := materialized } ∧
      ((s.section'.kind = .bss ∧ materialized = s.materialized) ∨
        (s.section'.kind ≠ .bss ∧
          materialized = s.materialized +
            paddingTo (s.section'.data.length + s.section'.zeroFill) alignment ∧
          materialized ≤ p.limits.maxOutputBytes)) ∧
      ∃ stop, checkedAlignUp (s.section'.data.length + s.section'.zeroFill) alignment =
        some stop := by
  obtain ⟨alignment, halignment, h⟩ := bind_ok_iff.mp h
  obtain ⟨offset, hoffset, h⟩ := bind_ok_iff.mp h
  obtain ⟨stop, hstop, h⟩ := bind_ok_iff.mp h
  obtain ⟨rfl, -⟩ := checkedAdd_eq_some.mp (orThrow_ok_iff.mp hoffset)
  rw [orThrow_ok_iff] at hstop
  simp only at h
  split at h
  case isTrue hkind =>
    obtain ⟨zeroFill, hzero, h⟩ := bind_ok_iff.mp h
    obtain ⟨rfl, -⟩ := checkedAdd_eq_some.mp (orThrow_ok_iff.mp hzero)
    cases h
    refine ⟨alignment, s.materialized, halignment, ?_, .inl ⟨hkind, rfl⟩, stop, hstop⟩
    unfold aligned
    rw [if_pos hkind]
    rfl
  case isFalse hkind =>
    obtain ⟨total, htotal, h⟩ := bind_ok_iff.mp h
    obtain ⟨rfl, hlimit, -⟩ := reserveOutput_ok htotal
    cases h
    refine ⟨alignment, _, halignment, ?_, .inr ⟨hkind, rfl, hlimit⟩, stop, hstop⟩
    unfold aligned
    rw [if_neg hkind]
    rfl

/-- An alignment, zeros of a section without bytes, or bytes of another section. -/
theorem placeDirective_ok (h : placeDirective p s dir = .ok s') :
    ∃ named, resolveDirectiveSymbols dir s.currentNonlocalLabel = .ok named ∧
      ((named.name = "align" ∧ placeAlignment p s named = .ok s') ∨
      (named.name ≠ "align" ∧ s.section'.kind = .bss ∧
        ∃ sec, encodeBssDirective named s.section' p.consts = .ok sec ∧
          s' = { s with sections := s.sections.set s.currentSection sec }) ∨
      (named.name ≠ "align" ∧ s.section'.kind ≠ .bss ∧
        ∃ size code, directiveSize named p.consts = .ok size ∧
          encodeDirective named ⟨s.section'.data, s.section'.relocs⟩ p.consts = .ok code ∧
          s.materialized + size ≤ p.limits.maxOutputBytes ∧
          s.section'.data.length + size < 2 ^ 63 ∧
          s' = { s with
            sections := s.sections.set s.currentSection
              { s.section' with data := code.bytes, relocs := code.relocs }
            materialized := s.materialized + size })) := by
  obtain ⟨named, hnamed, h⟩ := bind_ok_iff.mp h
  refine ⟨named, hnamed, ?_⟩
  simp only at h
  split at h
  case isTrue hname => exact .inl ⟨hname, h⟩
  case isFalse hname =>
    split at h
    case isTrue hkind =>
      obtain ⟨sec, hsec, h⟩ := bind_ok_iff.mp h
      cases h
      exact .inr (.inl ⟨hname, hkind, sec, hsec, rfl⟩)
    case isFalse hkind =>
      obtain ⟨size, hsize, h⟩ := bind_ok_iff.mp h
      obtain ⟨total, htotal, h⟩ := bind_ok_iff.mp h
      obtain ⟨rfl, hlimit, hroom⟩ := reserveOutput_ok htotal
      obtain ⟨code, hcode, h⟩ := bind_ok_iff.mp h
      cases h
      exact .inr (.inr ⟨hname, hkind, size, code, hsize, hcode, hlimit, hroom, rfl⟩)

/-! ## Directives have their sizes -/

theorem encodeDataExpr_length {width : Nat} {eval : EvaluatedExpr} {c c' : Code}
    (h : encodeDataExpr eval width c = .ok c') :
    c'.bytes.length = c.bytes.length + width := by
  cases eval with
  | number n =>
      obtain ⟨-, h⟩ := require_then_ok_iff.mp h
      cases h
      simp
  | symbol name addend =>
      unfold encodeDataExpr at h
      split at h
      · contradiction
      · split at h
        · cases h
          simp
        · cases h
          simp
        · cases h

theorem encodeValue_length {width n : Nat} {value : DirectiveValue} {c c' : Code}
    (hsize : valueSize dir width value = .ok n) (h : encodeValue dir width consts c value = .ok c')
    :
    c'.bytes.length = c.bytes.length + n := by
  cases value with
  | stringLiteral bytes =>
      obtain ⟨-, hsize⟩ := require_then_ok_iff.mp hsize
      obtain ⟨-, h⟩ := require_then_ok_iff.mp h
      cases hsize
      cases h
      simp
  | expr expr =>
      cases hsize
      obtain ⟨eval, -, h⟩ := bind_ok_iff.mp h
      exact encodeDataExpr_length h

/-- A directive contributes as many bytes as its size. -/
theorem encodeDirective_length {n : Nat} {c c' : Code} (hsize : directiveSize dir consts = .ok n)
    (h : encodeDirective dir c consts = .ok c') : c'.bytes.length = c.bytes.length + n := by
  unfold directiveSize at hsize
  unfold encodeDirective at h
  cases hunit : codeOf reservationUnits dir.name with
  | some unit =>
      rw [hunit] at hsize h
      obtain ⟨extra, hextra, h⟩ := bind_ok_iff.mp h
      obtain ⟨_, -, h⟩ := bind_ok_iff.mp h
      simp only at hsize
      rw [hsize] at hextra
      cases hextra
      cases h
      simp
  | none =>
      rw [hunit] at hsize h
      obtain ⟨width, hwidth, hsize⟩ := bind_ok_iff.mp hsize
      obtain ⟨width', hwidth', h⟩ := bind_ok_iff.mp h
      rw [orThrow_ok_iff] at hwidth hwidth'
      rw [hwidth] at hwidth'
      cases hwidth'
      rw [← List.map_id dir.values] at h
      refine foldlM_related (R := fun size code => code.bytes.length = c.bytes.length + size) ?_ rfl
        hsize h
      intro size code value size' code' hlength hvalue hcode
      obtain ⟨extra, hextra, hvalue⟩ := bind_ok_iff.mp hvalue
      obtain ⟨rfl, -⟩ := checkedAdd_eq_some.mp (orThrow_ok_iff.mp hvalue)
      rw [encodeValue_length hextra hcode, hlength]
      omega

/-- In a section without bytes the size is added to the zeros. -/
theorem encodeBssDirective_ok {sec sec' : AsmSection}
    (h : encodeBssDirective dir sec consts = .ok sec') :
    ∃ n, directiveSize dir consts = .ok n ∧ sec.zeroFill + n < wordBound ∧
      sec' = { sec with zeroFill := sec.zeroFill + n } := by
  obtain ⟨n, hn, h⟩ := bind_ok_iff.mp h
  obtain ⟨zeroFill, hzero, h⟩ := bind_ok_iff.mp h
  cases h
  obtain ⟨rfl, hbound⟩ := checkedAdd_eq_some.mp (orThrow_ok_iff.mp hzero)
  refine ⟨n, ?_, hbound, rfl⟩
  unfold bssSize at hn
  cases hunit : codeOf reservationUnits dir.name with
  | some unit =>
      rw [hunit] at hn
      unfold directiveSize
      rw [hunit]
      exact hn
  | none =>
      rw [hunit] at hn
      obtain ⟨size, hsize, hn⟩ := bind_ok_iff.mp hn
      obtain ⟨_, -, hn⟩ := bind_ok_iff.mp hn
      cases hn
      exact hsize

/-! ## A whole pass -/

theorem passStep_ok {e : AstNode × Nat} (h : passStep p s e = .ok s') :
    ∃ next sites, encodeNode p s e.1 e.2 = .ok next ∧
      s' = { next with relocationSites := sites } := by
  obtain ⟨next, hnext, h⟩ := bind_ok_iff.mp h
  cases h
  exact ⟨next, _, mapError_ok_iff.mp hnext, rfl⟩

theorem finishPass_ok {pass : EncodingPass} (h : finishPass p s = .ok pass) :
    ∃ symbols, s.symbols.mapM (finishSymbol p s) = .ok symbols ∧
      checkRelocations p s = .ok () ∧
      pass = {
        output := { sections := s.sections, symbols := symbols }
        layout := {
          labels := s.labelLocs
          instructionLengths := s.instructionLengths
          instructionOffsets := s.instructionOffsets }
        relocationSites := s.relocationSites } := by
  obtain ⟨_, -, h⟩ := bind_ok_iff.mp h
  obtain ⟨_, -, h⟩ := bind_ok_iff.mp h
  obtain ⟨symbols, hsymbols, h⟩ := bind_ok_iff.mp h
  obtain ⟨_, hrelocs, h⟩ := bind_ok_iff.mp h
  cases h
  exact ⟨symbols, hsymbols, hrelocs, rfl⟩

theorem encodeOnce_ok {forced forced' : List Nat} {pass : EncodingPass}
    (h : encodeOnce p forced = .ok (pass, forced')) :
    ∃ s, runPass p forced = .ok s ∧ finishPass p s = .ok pass ∧ forced' = s.forcedNear := by
  obtain ⟨s, hs, h⟩ := bind_ok_iff.mp h
  obtain ⟨pass', hpass, h⟩ := bind_ok_iff.mp h
  cases h
  exact ⟨s, hs, hpass, rfl⟩

end Whale.Assembler.Amd64
