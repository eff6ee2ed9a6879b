import Whale.Assembler.Amd64.Emission
import Whale.Assembler.Amd64.Relaxation
import Whale.Lib.Collect

set_option autoImplicit false

/-! # Outputs are well formed

What holds behind every node of a pass, and with it of the output that is made of the last one. -/

namespace Whale.Assembler

/-- The bytes and the zeros of a section. -/
def AsmSection.extent (sec : AsmSection) : Nat := sec.data.length + sec.zeroFill

/-- The field of a relocation lies inside the bytes. -/
def Relocation.Inside (reloc : Relocation) (bytes : List UInt8) : Prop :=
  ∃ size, Amd64.fieldSize reloc.kind = some size ∧ reloc.offset + size ≤ bytes.length

/-- A section of zeros has no bytes, another section no zeros, and the fields lie inside. -/
structure AsmSection.WellFormed (sec : AsmSection) : Prop where
  reserved : sec.kind = .bss → sec.data = []
  filled : sec.kind ≠ .bss → sec.zeroFill = 0
  fields : ∀ reloc ∈ sec.relocs, reloc.Inside sec.data

/-- The section of a symbol is there and goes at least to the end of the symbol. -/
def AsmSymbol.Inside (sym : AsmSymbol) (sections : List AsmSection) : Prop :=
  ∀ index, sym.sectionIndex = some index →
    ∃ sec, sections[index]? = some sec ∧ sym.offset + sym.size ≤ sec.extent

/-- The bytes of all sections. -/
def materializedBytes (sections : List AsmSection) : Nat :=
  (sections.map fun sec => sec.data.length).sum

structure AssemblerOutput.WellFormed (out : AssemblerOutput) : Prop where
  names : (out.symbols.map AsmSymbol.name).Nodup
  symbols : ∀ sym ∈ out.symbols, sym.Inside out.sections
  sections : ∀ sec ∈ out.sections, sec.WellFormed
  targets : ∀ sec ∈ out.sections, ∀ reloc ∈ sec.relocs,
    reloc.symbol ∈ out.symbols.map AsmSymbol.name

variable {reloc : Relocation}

theorem Relocation.Inside.mono {bytes more : List UInt8} (h : reloc.Inside bytes)
    (hle : bytes.length ≤ more.length) : reloc.Inside more := by
  obtain ⟨size, hsize, hinside⟩ := h
  exact ⟨size, hsize, hinside.trans hle⟩

namespace Amd64

variable {p : PassInput} {s s' : PassState} {limits : AssemblyLimits}

/-! ## The fields of a code -/

/-- The fields of all relocations lie inside the bytes. -/
def Code.Fields (c : Code) : Prop := ∀ reloc ∈ c.relocs, reloc.Inside c.bytes

variable {c : Code}

theorem Code.Fields.extend (h : c.Fields) (bytes : List UInt8) : (c.extend bytes).Fields := by
  intro reloc hreloc
  apply (h reloc hreloc).mono
  simp

theorem Code.Fields.relocate (h : c.Fields) {field : List UInt8}
    (hoffset : reloc.offset = c.bytes.length) (hsize : fieldSize reloc.kind = some field.length) :
    ((c.relocate reloc).extend field).Fields := by
  intro reloc' hreloc
  rw [Code.relocs_extend, Code.relocs_relocate, List.mem_append, List.mem_singleton] at hreloc
  rcases hreloc with hreloc | rfl
  · apply (h reloc' hreloc).mono
    simp
  · refine ⟨_, hsize, ?_⟩
    simp [hoffset]

/-- The code is put behind other bytes. -/
theorem Code.Fields.append (h : c.Fields) {before : Code} (hbefore : before.Fields) :
    Code.Fields ⟨before.bytes ++ c.bytes, before.relocs ++ c.relocs.map fun reloc =>
      { reloc with offset := reloc.offset + before.bytes.length }⟩ := by
  intro reloc hreloc
  rcases List.mem_append.mp hreloc with hreloc | hreloc
  · apply (hbefore reloc hreloc).mono
    simp
  · obtain ⟨old, hold, rfl⟩ := List.mem_map.mp hreloc
    obtain ⟨size, hsize, hinside⟩ := h old hold
    refine ⟨size, hsize, ?_⟩
    simp only [List.length_append]
    omega

theorem Emission.fields {ins : Instruction} (h : Emission ins c) : c.Fields := by
  intro reloc hreloc
  cases h with
  | plain _ hrelocs =>
      rw [hrelocs] at hreloc
      cases hreloc
  | field _ hoffset hsize =>
      cases List.mem_singleton.mp hreloc
      refine ⟨_, hsize, ?_⟩
      rw [hoffset, List.length_append]
  | memory _ _ hemit =>
      obtain ⟨addr, rex, haddr, -, -, hbytes, ⟨-, hrelocs⟩ | ⟨symbol, addend, hsymbol, -, hrelocs⟩⟩ :=
        emitMemoryOperation_ok hemit
      · rw [Code.relocs_extend, hrelocs] at hreloc
        cases hreloc
      · rw [Code.relocs_extend, hrelocs] at hreloc
        cases List.mem_singleton.mp hreloc
        have hlength : addr.dispBytes.length = 4 := by
          rw [(memoryAddress_symbol hsymbol haddr).2.2.1, length_leInt]
        refine ⟨4, ?_, ?_⟩
        · simp only
          split <;> rfl
        · rw [Code.bytes_extend, hbytes]
          simp only [List.length_append, hlength]
          omega

/-! ## What a directive adds -/

/-- Bytes were added, and relocations with their fields in the bytes. -/
structure Extends (c c' : Code) : Prop where
  bytes : c.bytes <+: c'.bytes
  fields : c.Fields → c'.Fields
  kept : c.relocs ⊆ c'.relocs
  later : ∀ reloc ∈ c'.relocs, reloc ∈ c.relocs ∨ c.bytes.length ≤ reloc.offset

theorem Extends.refl (c : Code) : Extends c c :=
  ⟨List.prefix_rfl, id, List.Subset.refl _, fun _ => .inl⟩

theorem Extends.trans {a b c : Code} (h : Extends a b) (h' : Extends b c) : Extends a c where
  bytes := h.bytes.trans h'.bytes
  fields hfields := h'.fields (h.fields hfields)
  kept := List.Subset.trans h.kept h'.kept
  later reloc hreloc := (h'.later reloc hreloc).elim (h.later reloc)
    fun hlater => .inr (h.bytes.length_le.trans hlater)

theorem extends_extend (c : Code) (bytes : List UInt8) : Extends c (c.extend bytes) :=
  ⟨List.prefix_append _ _, fun h => h.extend bytes, List.Subset.refl _, fun _ => .inl⟩

theorem extends_relocate (c : Code) {field : List UInt8} (hoffset : reloc.offset = c.bytes.length)
    (hsize : fieldSize reloc.kind = some field.length) :
    Extends c ((c.relocate reloc).extend field) :=
  ⟨List.prefix_append _ _, fun h => h.relocate hoffset hsize, List.subset_append_left _ _,
    fun _ h => (List.mem_append.mp h).imp_right fun hlast =>
      (List.mem_singleton.mp hlast ▸ hoffset).ge⟩

theorem encodeDataExpr_extends {eval : EvaluatedExpr} {width : Nat} {c c' : Code}
    (h : encodeDataExpr eval width c = .ok c') : Extends c c' := by
  cases eval with
  | number n =>
      obtain ⟨-, h⟩ := require_then_ok_iff.mp h
      cases h
      exact extends_extend c _
  | symbol name addend =>
      unfold encodeDataExpr at h
      split at h
      · contradiction
      · split at h
        · cases h
          exact extends_relocate c rfl (by rw [length_leInt]; rfl)
        · cases h
          exact extends_relocate c rfl (by rw [length_leInt]; rfl)
        · cases h

variable {dir : Directive}

theorem encodeValue_extends {width : Nat} {consts : AssocMap String Int} {value : DirectiveValue}
    {c c' : Code} (h : encodeValue dir width consts c value = .ok c') : Extends c c' := by
  cases value with
  | stringLiteral bytes =>
      obtain ⟨-, h⟩ := require_then_ok_iff.mp h
      cases h
      exact extends_extend c bytes
  | expr expr =>
      obtain ⟨eval, -, h⟩ := bind_ok_iff.mp h
      exact encodeDataExpr_extends h

theorem encodeDirective_extends {consts : AssocMap String Int} {c c' : Code}
    (h : encodeDirective dir c consts = .ok c') : Extends c c' := by
  unfold encodeDirective at h
  split at h
  · obtain ⟨extra, -, h⟩ := bind_ok_iff.mp h
    obtain ⟨_, -, h⟩ := bind_ok_iff.mp h
    cases h
    exact extends_extend c _
  · obtain ⟨width, -, h⟩ := bind_ok_iff.mp h
    refine foldlM_inv (P := Extends c) ?_ (.refl c) h
    intro c₁ value c₂ hc₁ hvalue
    exact hc₁.trans (encodeValue_extends hvalue)

/-! ## The state behind a node -/

/-- The invariant of a pass. -/
structure PassState.WellFormed (s : PassState) (limits : AssemblyLimits) : Prop where
  current : s.currentSection < s.sections.length
  names : (s.symbols.map AsmSymbol.name).Nodup
  declared : ∀ name, name ∈ s.symbols.map AsmSymbol.name ↔
    name ∈ s.definedLabels ∨ name ∈ s.externSymbols
  symbols : ∀ sym ∈ s.symbols, sym.Inside s.sections
  sections : ∀ sec ∈ s.sections, sec.WellFormed
  materialized : s.materialized = materializedBytes s.sections
  limit : s.materialized ≤ limits.maxOutputBytes

variable {sec : AsmSection}

namespace PassState

theorem wellFormed_start (forced : List Nat) : (start p forced).WellFormed p.limits where
  current := Nat.zero_lt_one
  names := .nil
  declared name := by simp [start]
  symbols := nofun
  sections := by
    intro sec hsec
    cases List.mem_singleton.mp hsec
    exact ⟨fun _ => rfl, fun _ => rfl, nofun⟩
  materialized := rfl
  limit := Nat.zero_le _

theorem WellFormed.getElem?_current (h : s.WellFormed limits) :
    s.sections[s.currentSection]? = some s.section' := by
  unfold section'
  rw [List.getD_eq_getElem?_getD, List.getElem?_eq_getElem h.current]
  rfl

theorem WellFormed.section' (h : s.WellFormed limits) : s.section'.WellFormed :=
  h.sections _ (List.mem_of_getElem? h.getElem?_current)

theorem WellFormed.code (h : s.WellFormed limits) :
    Code.Fields ⟨s.section'.data, s.section'.relocs⟩ := h.section'.fields

theorem WellFormed.grow (h : s.WellFormed limits) {m : Nat} (hsec : sec.WellFormed)
    (hextent : s.section'.extent ≤ sec.extent)
    (hm : m + s.section'.data.length = s.materialized + sec.data.length)
    (hlimit : m ≤ limits.maxOutputBytes) :
    { s with sections := s.sections.set s.currentSection sec, materialized := m }.WellFormed
      limits where
  current := by
    rw [List.length_set]
    exact h.current
  names := h.names
  declared := h.declared
  symbols := by
    intro sym hsym index hindex
    obtain ⟨old, hold, hinside⟩ := h.symbols sym hsym index hindex
    by_cases hcurrent : s.currentSection = index
    · subst hcurrent
      rw [h.getElem?_current] at hold
      cases hold
      exact ⟨sec, List.getElem?_set_self h.current, hinside.trans hextent⟩
    · exact ⟨old, (List.getElem?_set_ne hcurrent).trans hold, hinside⟩
  sections := by
    intro sec' hsec'
    rcases List.mem_or_eq_of_mem_set hsec' with hsec' | rfl
    · exact h.sections sec' hsec'
    · exact hsec
  materialized := by
    have hsum := sum_map_set (fun sec => sec.data.length) h.getElem?_current sec
    have hold := h.materialized
    unfold materializedBytes at *
    simp only at hsum ⊢
    omega
  limit := hlimit

/-- A section of zeros grows. -/
theorem WellFormed.reserve (h : s.WellFormed limits) (hsec : sec.WellFormed)
    (hdata : sec.data = s.section'.data) (hzero : s.section'.zeroFill ≤ sec.zeroFill) :
    { s with sections := s.sections.set s.currentSection sec }.WellFormed limits := by
  refine h.grow hsec ?_ ?_ h.limit
  · unfold AsmSection.extent
    rw [hdata]
    omega
  · rw [hdata]

/-- Bytes and relocations are put behind those of the current section. -/
theorem WellFormed.place (h : s.WellFormed limits) (hkind : s.section'.kind ≠ .bss) (align : Nat)
    {m : Nat} (hfields : c.Fields) (hlength : s.section'.data.length ≤ c.bytes.length)
    (hm : m + s.section'.data.length = s.materialized + c.bytes.length)
    (hlimit : m ≤ limits.maxOutputBytes) :
    { s with
      sections := s.sections.set s.currentSection
        { s.section' with align := align, data := c.bytes, relocs := c.relocs }
      materialized := m }.WellFormed limits := by
  refine h.grow ⟨fun hbss => absurd hbss hkind, h.section'.filled, hfields⟩ ?_ hm hlimit
  unfold AsmSection.extent
  exact Nat.add_le_add_right hlength _

theorem WellFormed.addSymbol (h : s.WellFormed limits) {sym : AsmSymbol}
    (hlabel : sym.name ∉ s.definedLabels) (houtside : sym.name ∉ s.externSymbols)
    (hinside : sym.Inside s.sections) (labels externs : List String)
    (hdeclared : ∀ name, name ∈ labels ∨ name ∈ externs ↔
      (name ∈ s.definedLabels ∨ name ∈ s.externSymbols) ∨ name = sym.name) :
    { s with
      symbols := s.symbols ++ [sym], definedLabels := labels
      externSymbols := externs }.WellFormed limits :=
  { h with
    names := by
      rw [List.map_append, List.map_singleton, List.nodup_append]
      refine ⟨h.names, List.nodup_singleton _, ?_⟩
      rintro name hname _ hsym rfl
      rw [List.mem_singleton.mp hsym] at hname
      exact ((h.declared _).mp hname).elim hlabel houtside
    declared := by
      intro name
      rw [List.map_append, List.map_singleton, List.mem_append, List.mem_singleton, h.declared,
        hdeclared]
    symbols := by
      intro sym' hsym
      rcases List.mem_append.mp hsym with hsym | hsym
      · exact h.symbols sym' hsym
      · rw [List.mem_singleton.mp hsym]
        exact hinside }

end PassState

theorem enterSection_wellFormed {name : String} {explicit : Option AsmSectionKind}
    (h : s.WellFormed limits) (hs : enterSection s name explicit = .ok s') :
    s'.WellFormed limits := by
  rcases enterSection_ok hs with ⟨idx, hfind, rfl⟩ | ⟨-, rfl⟩
  · exact { h with current := (List.findIdx?_eq_some_iff_findIdx_eq.mp hfind).1 }
  · exact { h with
      current := by simp
      symbols := by
        intro sym hsym index hindex
        obtain ⟨sec, hsec, hinside⟩ := h.symbols sym hsym index hindex
        have hlt := (List.getElem?_eq_some_iff.mp hsec).1
        exact ⟨sec, (List.getElem?_append_left hlt).trans hsec, hinside⟩
      sections := by
        intro sec hsec
        rcases List.mem_append.mp hsec with hsec | hsec
        · exact h.sections sec hsec
        · cases List.mem_singleton.mp hsec
          exact ⟨fun _ => rfl, fun _ => rfl, nofun⟩
      materialized := by
        rw [h.materialized]
        simp [materializedBytes, openedSection] }

variable {index : Nat}

theorem declareExtern_wellFormed {ast : Ast} {name : String} (h : s.WellFormed limits)
    (hs : declareExtern ast s name index = .ok s') : s'.WellFormed limits := by
  obtain ⟨resolved, -, hlabel, ⟨-, rfl⟩ | ⟨hnew, rfl⟩⟩ := declareExtern_ok hs
  · exact { h with }
  · have hinside : (newSymbol resolved none true).Inside s.sections := nofun
    have hadded := h.addSymbol hlabel hnew hinside s.definedLabels (resolved :: s.externSymbols)
      fun name => by
        rw [List.mem_cons]
        show _ ↔ _ ∨ name = resolved
        tauto
    exact { hadded with }

theorem defineLabel_wellFormed {name : String} (h : s.WellFormed limits)
    (hs : defineLabel p s name index = .ok s') : s'.WellFormed limits := by
  obtain ⟨resolved, -, hdeclared, hnew, -, rfl⟩ := defineLabel_ok hs
  have hinside : (newSymbol resolved (some (s.currentSection,
      s.section'.data.length + s.section'.zeroFill))
      (decide (resolved ∈ s.globalSymbols))).Inside s.sections := by
    rintro index ⟨⟩
    exact ⟨s.section', h.getElem?_current, le_rfl⟩
  have hadded := h.addSymbol hnew hdeclared hinside (resolved :: s.definedLabels)
    s.externSymbols fun name => by
      rw [List.mem_cons]
      show _ ↔ _ ∨ name = resolved
      tauto
  exact { hadded with }

theorem placeInstruction_wellFormed {ins : Instruction} (h : s.WellFormed p.limits)
    (hs : placeInstruction p s ins index = .ok s') : s'.WellFormed p.limits := by
  obtain ⟨inst, code, -, hkind, hcode, hlimit, -, rfl⟩ := placeInstruction_ok hs
  have hfields := (encodeInstruction_emission hcode).fields.append h.code
  have hplaced := h.place hkind s.section'.align hfields
    (by simp) (m := s.materialized + code.bytes.length)
    (by simp only [List.length_append]; omega) hlimit
  exact { hplaced with }

theorem placeAlignment_wellFormed (h : s.WellFormed p.limits) (hs : placeAlignment p s dir = .ok s') :
    s'.WellFormed p.limits := by
  obtain ⟨alignment, m, -, rfl, hm, -⟩ := placeAlignment_ok hs
  unfold aligned
  rcases hm with ⟨hkind, rfl⟩ | ⟨hkind, rfl, hlimit⟩
  · rw [if_pos hkind]
    refine h.reserve ?_ rfl (Nat.le_add_right _ _)
    exact ⟨h.section'.reserved, fun hne => absurd hkind hne, h.section'.fields⟩
  · rw [if_neg hkind]
    have hextends := extends_extend ⟨s.section'.data, s.section'.relocs⟩
      (List.replicate (paddingTo (s.section'.data.length + s.section'.zeroFill) alignment)
        (if s.section'.kind = .text then 0x90 else 0))
    exact h.place hkind _ (hextends.fields h.code) hextends.bytes.length_le
      (by simp; omega) hlimit

theorem placeDirective_wellFormed (h : s.WellFormed p.limits) (hs : placeDirective p s dir = .ok s') :
    s'.WellFormed p.limits := by
  obtain ⟨named, -, ⟨-, hs⟩ | ⟨-, hkind, sec, hsec, rfl⟩ |
    ⟨-, hkind, size, code, hsize, hcode, hlimit, -, rfl⟩⟩ := placeDirective_ok hs
  · exact placeAlignment_wellFormed h hs
  · obtain ⟨n, -, -, rfl⟩ := encodeBssDirective_ok hsec
    refine h.reserve ?_ rfl (Nat.le_add_right _ _)
    exact ⟨h.section'.reserved, fun hne => absurd hkind hne, h.section'.fields⟩
  · have hextends := encodeDirective_extends hcode
    have hlength := encodeDirective_length hsize hcode
    exact h.place hkind _ (hextends.fields h.code) hextends.bytes.length_le
      (by rw [hlength]; simp only; omega) hlimit

theorem encodeNode_wellFormed {node : AstNode} (h : s.WellFormed p.limits)
    (hs : encodeNode p s node index = .ok s') : s'.WellFormed p.limits := by
  cases node with
  | const =>
      cases hs
      exact h
  | «section» name | sectionAttributes name kind => exact enterSection_wellFormed h hs
  | «global» name =>
      obtain ⟨_, -, rfl⟩ := declareGlobal_ok hs
      exact { h with }
  | external name => exact declareExtern_wellFormed h hs
  | symbolMetadata name kind size visibility =>
      obtain ⟨_, _, -, -, rfl⟩ := recordMetadata_ok hs
      exact { h with }
  | label name => exact defineLabel_wellFormed h hs
  | instruction ins => exact placeInstruction_wellFormed h hs
  | directive dir => exact placeDirective_wellFormed h hs

/-- The states of a pass. -/
def PassState.Reached (p : PassInput) (forced : List Nat) (k : Nat) (s : PassState) : Prop :=
  (p.ast.items.zipIdx.take k).foldlM (passStep p) (PassState.start p forced) = .ok s

theorem run_wellFormed {nodes : List (AstNode × Nat)} (h : s.WellFormed p.limits)
    (hs : nodes.foldlM (passStep p) s = .ok s') : s'.WellFormed p.limits := by
  refine foldlM_inv (P := fun t => t.WellFormed p.limits) ?_ h hs
  intro t e t' ht hstep
  obtain ⟨next, sites, hnext, rfl⟩ := passStep_ok hstep
  exact { encodeNode_wellFormed ht hnext with }

/-! ## What a directive contributes -/

/-- The current section gets `n` bytes; a section of zeros only counts them. -/
structure Contributes (s s' : PassState) (n : Nat) : Prop where
  current : s'.currentSection = s.currentSection
  others : ∀ i, i ≠ s.currentSection → s'.sections[i]? = s.sections[i]?
  counted : s.section'.kind = .bss →
    s'.section'.data = s.section'.data ∧ s'.section'.zeroFill = s.section'.zeroFill + n
  placed : s.section'.kind ≠ .bss →
    s'.section'.zeroFill = s.section'.zeroFill ∧
      ∃ bytes, bytes.length = n ∧ s'.section'.data = s.section'.data ++ bytes

theorem section_set {t : PassState} (hcurrent : s.currentSection < s.sections.length)
    (hsections : t.sections = s.sections.set s.currentSection sec)
    (hsame : t.currentSection = s.currentSection) : t.section' = sec := by
  unfold PassState.section'
  rw [hsections, hsame, List.getD_eq_getElem?_getD, List.getElem?_set_self hcurrent]
  rfl

theorem Contributes.count {n : Nat} (h : s.WellFormed limits) (hkind : s.section'.kind = .bss)
    (hsections : s'.sections = s.sections.set s.currentSection sec)
    (hsame : s'.currentSection = s.currentSection) (hdata : sec.data = s.section'.data)
    (hzero : sec.zeroFill = s.section'.zeroFill + n) : Contributes s s' n := by
  have hsec := section_set h.current hsections hsame
  refine ⟨hsame, fun i hi => ?_, fun _ => ?_, fun hne => absurd hkind hne⟩
  · rw [hsections, List.getElem?_set_ne hi.symm]
  · rw [hsec]
    exact ⟨hdata, hzero⟩

theorem Contributes.place {n : Nat} (h : s.WellFormed limits) (hkind : s.section'.kind ≠ .bss)
    (hsections : s'.sections = s.sections.set s.currentSection sec)
    (hsame : s'.currentSection = s.currentSection) (hzero : sec.zeroFill = s.section'.zeroFill)
    (hdata : s.section'.data <+: sec.data) (hlength : sec.data.length = s.section'.data.length + n) :
    Contributes s s' n := by
  have hsec := section_set h.current hsections hsame
  refine ⟨hsame, fun i hi => ?_, fun hbss => absurd hbss hkind, fun _ => ?_⟩
  · rw [hsections, List.getElem?_set_ne hi.symm]
  · rw [hsec]
    obtain ⟨bytes, hbytes⟩ := hdata
    refine ⟨hzero, bytes, ?_, hbytes.symm⟩
    rw [← hbytes, List.length_append] at hlength
    omega

/-- An alignment fills up to the next multiple. -/
theorem placeAlignment_contributes (h : s.WellFormed limits) (hs : placeAlignment p s dir = .ok s')
    :
    ∃ alignment n, alignmentValue dir p.consts = .ok alignment ∧ n < alignment ∧
      alignment ∣ s.section'.extent + n ∧ Contributes s s' n := by
  obtain ⟨alignment, m, halignment, rfl, hm, stop, hstop⟩ := placeAlignment_ok hs
  obtain ⟨k, hk, rfl⟩ := alignmentValue_ok halignment
  obtain ⟨-, hlt, hdvd, -⟩ := checkedAlignUp_two_pow hk hstop
  obtain ⟨rfl, -⟩ := checkedAdd_eq_some.mp hstop
  refine ⟨2 ^ k, paddingTo s.section'.extent (2 ^ k), halignment, ?_, hdvd, ?_⟩
  · exact Nat.lt_of_add_lt_add_left hlt
  · unfold aligned
    rcases hm with ⟨hkind, -⟩ | ⟨hkind, -⟩
    · rw [if_pos hkind]
      exact .count h hkind rfl rfl rfl rfl
    · rw [if_neg hkind]
      exact .place h hkind rfl rfl rfl (List.prefix_append _ _) (by simp [AsmSection.extent])

/-- How many bytes a directive is for. -/
def DirectiveBytes (p : PassInput) (s : PassState) (dir : Directive) (n : Nat) : Prop :=
  (dir.name ≠ "align" → directiveSize dir p.consts = .ok n) ∧
  (dir.name = "align" → ∃ alignment, alignmentValue dir p.consts = .ok alignment ∧
    n < alignment ∧ alignment ∣ s.section'.extent + n)

theorem placeDirective_contributes (h : s.WellFormed limits) (hs : placeDirective p s dir = .ok s')
    :
    ∃ named n, resolveDirectiveSymbols dir s.currentNonlocalLabel = .ok named ∧
      DirectiveBytes p s named n ∧ Contributes s s' n := by
  obtain ⟨named, hnamed, ⟨hname, hs⟩ | ⟨hname, hkind, sec, hsec, rfl⟩ |
    ⟨hname, hkind, size, code, hsize, hcode, -, -, rfl⟩⟩ := placeDirective_ok hs
  · obtain ⟨alignment, n, halignment, hlt, hdvd, hbytes⟩ := placeAlignment_contributes h hs
    exact ⟨named, n, hnamed, ⟨fun hne => absurd hname hne,
      fun _ => ⟨alignment, halignment, hlt, hdvd⟩⟩, hbytes⟩
  · obtain ⟨n, hn, -, rfl⟩ := encodeBssDirective_ok hsec
    exact ⟨named, n, hnamed, ⟨fun _ => hn, fun halign => absurd halign hname⟩,
      .count h hkind rfl rfl rfl rfl⟩
  · exact ⟨named, size, hnamed, ⟨fun _ => hsize, fun halign => absurd halign hname⟩,
      .place h hkind rfl rfl rfl (encodeDirective_extends hcode).bytes
        (encodeDirective_length hsize hcode)⟩

/-! ## The end of a pass -/

/-- A symbol keeps its name, and with its size it stays in its section. -/
theorem finishSymbol_ok {sym sym' : AsmSymbol} (h : finishSymbol p s sym = .ok sym') :
    sym'.name = sym.name ∧ (sym.Inside s.sections → sym'.Inside s.sections) ∧
      sym'.sectionIndex = sym.sectionIndex ∧ sym'.offset = sym.offset := by
  obtain ⟨applied, happlied, h⟩ := bind_ok_iff.mp h
  cases h
  unfold applyMetadata at happlied
  split at happlied
  · cases happlied
    exact ⟨rfl, id, rfl, rfl⟩
  · rename_i kind size visibility hmetadata
    obtain ⟨_, hextent, happlied⟩ := bind_ok_iff.mp happlied
    cases happlied
    refine ⟨rfl, fun hinside index hindex => ?_, rfl, rfl⟩
    obtain ⟨sec, hsec, -⟩ := hinside index hindex
    unfold checkExtent at hextent
    rw [show sym.sectionIndex = some index from hindex] at hextent
    simp only [List.getD_eq_getElem?_getD, hsec, Option.getD_some] at hextent
    obtain ⟨extent, hsum, hextent⟩ := bind_ok_iff.mp hextent
    obtain ⟨rfl, -⟩ := checkedAdd_eq_some.mp (orThrow_ok_iff.mp hsum)
    exact ⟨sec, hsec, require_ok_iff.mp hextent⟩

theorem checkRelocations_ok (h : checkRelocations p s = .ok ()) (hsec : sec ∈ s.sections)
    (hreloc : reloc ∈ sec.relocs) :
    reloc.symbol ∈ s.definedLabels ∨ reloc.symbol ∈ s.externSymbols := by
  obtain ⟨i, hi⟩ := List.mem_iff_getElem?.mp hsec
  obtain ⟨j, hj⟩ := List.mem_iff_getElem?.mp hreloc
  have hsection := forM_ok h (List.mk_mem_zipIdx_iff_getElem?.mpr hi)
  exact require_ok_iff.mp (forM_ok hsection (List.mk_mem_zipIdx_iff_getElem?.mpr hj))

variable {pass : EncodingPass}

theorem finishPass_wellFormed (h : s.WellFormed limits) (hpass : finishPass p s = .ok pass) :
    pass.output.WellFormed ∧ materializedBytes pass.output.sections ≤ limits.maxOutputBytes := by
  obtain ⟨symbols, hsymbols, hrelocs, rfl⟩ := finishPass_ok hpass
  have hall := mapM_ok hsymbols
  have hnames : symbols.map AsmSymbol.name = s.symbols.map AsmSymbol.name := by
    refine eq_map_of_forall₂ (List.forall₂_map_right_iff.mpr ?_)
    exact hall.imp fun _ _ hfinish => (finishSymbol_ok hfinish).1
  refine ⟨⟨?_, fun sym' hsym => ?_, h.sections, fun sec hsec reloc hreloc => ?_⟩, ?_⟩
  · rw [hnames]
    exact h.names
  · obtain ⟨sym, hmem, hfinish⟩ := exists_of_forall₂ hall.flip hsym
    exact (finishSymbol_ok hfinish).2.1 (h.symbols sym hmem)
  · rw [hnames, h.declared]
    exact checkRelocations_ok hrelocs hsec hreloc
  · rw [← h.materialized]
    exact h.limit

/-! ## Loops -/

/-- The bytes stay as many, and there are no other relocations. -/
structure Trimmed (sec sec' : AsmSection) : Prop where
  kind : sec'.kind = sec.kind
  zeroFill : sec'.zeroFill = sec.zeroFill
  length : sec'.data.length = sec.data.length
  relocs : sec'.relocs ⊆ sec.relocs

theorem Trimmed.wellFormed {sec sec' : AsmSection} (h : Trimmed sec sec') (hsec : sec.WellFormed) :
    sec'.WellFormed where
  reserved hkind := by
    rw [h.kind] at hkind
    rw [← List.length_eq_zero_iff, h.length, hsec.reserved hkind]
    rfl
  filled hkind := by
    rw [h.kind] at hkind
    rw [h.zeroFill, hsec.filled hkind]
  fields reloc hreloc := (hsec.fields reloc (h.relocs hreloc)).mono h.length.ge

theorem resolveLoop_run {ast : Ast} {es : List (Relocation × Nat)}
    {state state' : List UInt8 × List Relocation}
    (h : es.foldlM (resolveLoop pass ast index) state = .ok state') :
    state'.1.length = state.1.length ∧ state'.2 ⊆ state.2 ++ es.map Prod.fst := by
  induction es generalizing state with
  | nil =>
      cases h
      simp
  | cons e es ih =>
      obtain ⟨next, hnext, h⟩ := foldlM_cons_ok.mp h
      obtain ⟨hlength, hrelocs⟩ := ih h
      unfold resolveLoop at hnext
      split at hnext
      · obtain ⟨-, hnext⟩ := require_then_ok_iff.mp hnext
        cases hnext
        rw [List.length_set] at hlength
        refine ⟨hlength, List.Subset.trans hrelocs ?_⟩
        simp
      · cases hnext
        refine ⟨hlength, List.Subset.trans hrelocs ?_⟩
        simp

theorem resolveLoops_ok {ast : Ast} {out : AssemblerOutput} (h : resolveLoops ast pass = .ok out) :
    out.symbols = pass.output.symbols ∧
      List.Forall₂ Trimmed pass.output.sections out.sections := by
  obtain ⟨sections, hsections, h⟩ := bind_ok_iff.mp h
  cases h
  refine ⟨rfl, ?_⟩
  have hall : List.Forall₂ (fun e sec' => Trimmed e.1 sec') pass.output.sections.zipIdx
      sections := by
    refine (mapM_ok hsections).imp fun e sec' hsec => ?_
    obtain ⟨state, hstate, hsec⟩ := bind_ok_iff.mp hsec
    cases hsec
    obtain ⟨hlength, hrelocs⟩ := resolveLoop_run hstate
    refine ⟨rfl, rfl, hlength, ?_⟩
    rw [List.nil_append, List.zipIdx_map_fst] at hrelocs
    exact hrelocs
  rw [← List.forall₂_map_left_iff, List.zipIdx_map_fst] at hall
  exact hall

/-- Sections that are only trimmed keep an output well formed. -/
theorem wellFormed_trim {out : AssemblerOutput} (h : out.WellFormed)
    {out' : AssemblerOutput} (hsymbols : out'.symbols = out.symbols)
    (hall : List.Forall₂ Trimmed out.sections out'.sections) : out'.WellFormed where
  names := by
    rw [hsymbols]
    exact h.names
  symbols := by
    rw [hsymbols]
    intro sym hsym index hindex
    obtain ⟨sec, hsec, hinside⟩ := h.symbols sym hsym index hindex
    obtain ⟨sec', hsec', htrimmed⟩ := forall₂_getElem? hall hsec
    refine ⟨sec', hsec', ?_⟩
    unfold AsmSection.extent
    rw [htrimmed.length, htrimmed.zeroFill]
    exact hinside
  sections sec' hsec' := by
    obtain ⟨sec, hsec, htrimmed⟩ := exists_of_forall₂ hall.flip hsec'
    exact htrimmed.wellFormed (h.sections sec hsec)
  targets sec' hsec' reloc hreloc := by
    obtain ⟨sec, hsec, htrimmed⟩ := exists_of_forall₂ hall.flip hsec'
    rw [hsymbols]
    exact h.targets sec hsec reloc (htrimmed.relocs hreloc)

theorem materializedBytes_trim {sections sections' : List AsmSection}
    (hall : List.Forall₂ Trimmed sections sections') :
    materializedBytes sections' = materializedBytes sections := by
  unfold materializedBytes
  induction hall with
  | nil => rfl
  | cons htrimmed _ ih =>
      rw [List.map_cons, List.map_cons, List.sum_cons, List.sum_cons, ih, htrimmed.length]

/-! ## The output -/

variable {ast : Ast} {out : AssemblerOutput}

theorem encodeOnce_wellFormed {forced marked : List Nat}
    (h : encodeOnce p forced = .ok (pass, marked)) :
    pass.output.WellFormed ∧
      materializedBytes pass.output.sections ≤ p.limits.maxOutputBytes := by
  obtain ⟨s, hs, hpass, -⟩ := encodeOnce_ok h
  exact finishPass_wellFormed (run_wellFormed (PassState.wellFormed_start forced) hs) hpass

/-- An accepted source has an output that is well formed and within the limit, as is every state
of every pass over the source; a directive contributes as many bytes as its size, and an alignment
those up to the next multiple. -/
theorem encodeWithLimits_wellFormed (h : encodeWithLimits ast limits = .ok out) :
    out.WellFormed ∧ materializedBytes out.sections ≤ limits.maxOutputBytes ∧
      ∀ p forced k s, p.ast = ast → p.limits = limits → PassState.Reached p forced k s →
        materializedBytes s.sections ≤ limits.maxOutputBytes ∧
        ∀ dir s', p.ast.items[k]? = some (.directive dir) →
          passStep p s (.directive dir, k) = .ok s' →
          ∃ named n, resolveDirectiveSymbols dir s.currentNonlocalLabel = .ok named ∧
            DirectiveBytes p s named n ∧ Contributes s s' n := by
  obtain ⟨consts, -, h⟩ := bind_ok_iff.mp h
  obtain ⟨pass, hpass, h⟩ := bind_ok_iff.mp h
  cases hrelax : relax ast consts limits limits.maxRelaxIterations none [] with
  | none =>
      rw [hrelax] at hpass
      cases hpass
  | some result =>
      rw [hrelax] at hpass
      obtain rfl : result = .ok pass := hpass
      obtain ⟨forced, marked, hlast⟩ := relax_fixpoint hrelax
      obtain ⟨hwellFormed, hbytes⟩ := encodeOnce_wellFormed hlast
      obtain ⟨hsymbols, hsections⟩ := resolveLoops_ok h
      refine ⟨wellFormed_trim hwellFormed hsymbols hsections, ?_, ?_⟩
      · rw [materializedBytes_trim hsections]
        exact hbytes
      · rintro p forced k s rfl rfl hreached
        have hs := run_wellFormed (PassState.wellFormed_start forced) hreached
        refine ⟨?_, fun dir s' _ hstep => ?_⟩
        · rw [← hs.materialized]
          exact hs.limit
        · obtain ⟨next, sites, hnext, rfl⟩ := passStep_ok hstep
          obtain ⟨named, n, hnamed, hbytes, hcontributes⟩ := placeDirective_contributes hs hnext
          exact ⟨named, n, hnamed, hbytes, { hcontributes with }⟩

/-- Data with an alignment, a pointer to it, and a buffer. -/
def alignedData : Ast where
  items := [.section ".data", .label "byte", .directive ⟨"db", [.expr (.number 1)]⟩,
    .directive ⟨"align", [.expr (.number 4)]⟩, .directive ⟨"dd", [.expr (.symbol "byte" 2)]⟩,
    .section ".bss", .label "buffer", .directive ⟨"resw", [.expr (.number 3)]⟩,
    .symbolMetadata "buffer" .object (.number 6) .hidden]
  spans := []
  sourceName := "data.asm"

def alignedDataOutput : AssemblerOutput where
  sections := [textSection,
    { kind := .data, align := 4, name := ".data", data := [1, 0, 0, 0, 0, 0, 0, 0], zeroFill := 0
      relocs := [⟨4, "byte", .absolute32, 2⟩] },
    { kind := .bss, align := 1, name := ".bss", data := [], zeroFill := 6, relocs := [] }]
  symbols := [
    { kind := .noType, size := 0, visibility := .default, name := "byte", sectionIndex := some 1
      offset := 0, isGlobal := false },
    { kind := .object, size := 6, visibility := .hidden, name := "buffer", sectionIndex := some 2
      offset := 0, isGlobal := false }]

theorem encodeWithLimits_wellFormed_alignedData :
    alignedDataOutput.WellFormed ∧ materializedBytes alignedDataOutput.sections ≤ 8 :=
  have h := encodeWithLimits_wellFormed
    (by decide +kernel : encodeWithLimits alignedData ⟨8, 2⟩ = .ok alignedDataOutput)
  ⟨h.1, h.2.1⟩

/-- An alignment contributes bytes, but `directiveSize` does not know it. -/
theorem align_has_no_size :
    ¬ ∀ (p : PassInput) (out : AssemblerOutput) (k : Nat) (s s' : PassState) (dir : Directive),
      encodeWithLimits p.ast p.limits = .ok out → PassState.Reached p [] k s →
      p.ast.items[k]? = some (.directive dir) → passStep p s (.directive dir, k) = .ok s' →
      ∃ named n, resolveDirectiveSymbols dir s.currentNonlocalLabel = .ok named ∧
        directiveSize named p.consts = .ok n ∧ Contributes s s' n := by
  intro h
  have hpass : ((alignedData.items.zipIdx.take 3).foldlM (passStep ⟨alignedData, none, [], ⟨8, 2⟩⟩)
      (PassState.start ⟨alignedData, none, [], ⟨8, 2⟩⟩ []) >>= fun s =>
        passStep ⟨alignedData, none, [], ⟨8, 2⟩⟩ s
          (.directive ⟨"align", [.expr (.number 4)]⟩, 3)).isOk = true := by decide +kernel
  obtain ⟨s', hs'⟩ := exists_of_isOk hpass
  obtain ⟨s, hs, hstep⟩ := bind_ok_iff.mp hs'
  obtain ⟨named, n, hnamed, hn, -⟩ := h ⟨alignedData, none, [], ⟨8, 2⟩⟩ alignedDataOutput 3 s s'
    ⟨"align", [.expr (.number 4)]⟩ (by decide +kernel) hs rfl hstep
  cases hnamed
  cases hn

end Amd64

end Whale.Assembler
