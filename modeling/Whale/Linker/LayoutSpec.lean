import Mathlib.Data.List.Nodup
import Whale.Lib.Span
import Whale.Linker.Layout

set_option autoImplicit false

/-! # Where the layout puts the sections

`executableLayout` places four runs of sections, one for each kind, in ascending order
(`executableLayout_spec`): text behind the headers, then read-only data, then data and behind
it BSS, each segment on a new page. -/

namespace Whale.Linker

/-- A section of the input objects. -/
def sectionAt (objects : List ObjectFile) (objectIndex sectionIndex : Nat) : Option Section :=
  objects[objectIndex]? >>= (·.sections[sectionIndex]?)

/-- The address in a table of addresses. -/
def addressAt (offsets : List (List Nat)) (key : Nat × Nat) : Option Nat :=
  offsets[key.1]? >>= (·[key.2]?)

variable {kind : SectionKind}

variable {e : (Nat × Nat) × Section}

theorem mem_sectionsOf {objects : List ObjectFile} :
    e ∈ sectionsOf objects kind ↔
      sectionAt objects e.1.1 e.1.2 = some e.2 ∧ e.2.kind = kind := by
  obtain ⟨⟨oi, si⟩, s⟩ := e
  unfold sectionsOf sectionAt
  simp only [List.mem_flatMap, List.mem_map, List.mem_filter, decide_eq_true_eq, Prod.exists,
    List.mem_zipIdx_iff_getElem?, Prod.mk.injEq, Option.bind_eq_bind, Option.bind_eq_some_iff]
  constructor
  · rintro ⟨o, i, ho, t, j, ⟨ht, hkind⟩, ⟨rfl, rfl⟩, rfl⟩
    exact ⟨⟨o, ho, ht⟩, hkind⟩
  · rintro ⟨⟨o, ho, hs⟩, hkind⟩
    exact ⟨o, oi, ho, s, si, ⟨hs, hkind⟩, ⟨rfl, rfl⟩, rfl⟩

theorem nodup_sectionsOf (objects : List ObjectFile) (kind : SectionKind) :
    ((sectionsOf objects kind).map Prod.fst).Nodup := by
  have hindex : ∀ {α : Type} (xs : List α), xs.zipIdx.Pairwise fun a b => a.2 ≠ b.2 := by
    intro α xs
    have hnodup : (xs.zipIdx.map Prod.snd).Nodup := by
      rw [List.zipIdx_map_snd]
      exact List.nodup_range'
    exact List.pairwise_map.mp hnodup
  unfold sectionsOf
  rw [List.map_flatMap, List.nodup_flatMap]
  constructor
  · intro o _
    rw [List.map_map]
    refine List.pairwise_map.mpr (((hindex o.1.sections).filter _).imp fun hne heq => hne ?_)
    exact (Prod.mk.inj heq).2
  · -- Two objects share no key.
    refine (hindex objects).imp fun {a b} hne => ?_
    intro key ha hb
    simp only [List.map_map, List.mem_map, Function.comp_apply] at ha hb
    obtain ⟨_, _, rfl⟩ := ha
    obtain ⟨_, _, heq⟩ := hb
    exact hne (Prod.mk.inj heq).1.symm

/-! ## One section -/

namespace SectionPlacement

def key (p : SectionPlacement) : Nat × Nat := (p.objectIndex, p.sectionIndex)

/-- The span in the file and, from the base on, in memory. -/
def span (p : SectionPlacement) : Nat × Nat := (p.fileOffset, p.memorySize)

end SectionPlacement

/-- `p` is a placement of the section `e`. -/
structure PlacementOf (kind : SectionKind) (e : (Nat × Nat) × Section) (p : SectionPlacement) :
    Prop where
  key : p.key = e.1
  kind : p.kind = kind
  align : p.align = max e.2.align.toNat 1
  size : e.2.memorySize = some p.memorySize
  address : p.memoryAddress = imageBase + p.fileOffset
  aligned : ∃ start, checkedAlignUp start p.align = some p.memoryAddress

/-- Enter the address of a placement into the table of addresses. -/
def setPlacement (offsets : List (List Nat)) (p : SectionPlacement) : List (List Nat) :=
  offsets.modify p.objectIndex (·.set p.sectionIndex p.memoryAddress)

theorem le_checkedAlignUp {a align r : Nat} (h : checkedAlignUp a align = some r) : a ≤ r := by
  have hsum := (checkedAdd_eq_some.mp h).1
  omega

theorem placeSection_spec {p q : Placing} (h : placeSection kind p e = .ok q) :
    ∃ pl, PlacementOf kind e pl ∧ q.offsets = setPlacement p.offsets pl ∧
      q.sections = p.sections ++ [pl] ∧ p.cursor ≤ pl.fileOffset ∧
      q.cursor = pl.fileOffset + pl.memorySize ∧
      q.fileEnd = if kind = .bss then p.fileEnd else q.cursor := by
  unfold placeSection at h
  obtain ⟨start, hstart, h⟩ := bind_ok_iff.mp h
  obtain ⟨va, hva, h⟩ := bind_ok_iff.mp h
  obtain ⟨size, hsize, h⟩ := bind_ok_iff.mp h
  obtain ⟨stop, hstop, h⟩ := bind_ok_iff.mp h
  cases h
  have hsum := (checkedAdd_eq_some.mp (orThrow_ok_iff.mp hstart)).1
  have hle := le_checkedAlignUp (orThrow_ok_iff.mp hva)
  have hend := (checkedAdd_eq_some.mp (orThrow_ok_iff.mp hstop)).1
  refine ⟨_, ?_, rfl, rfl, ?_, hend.symm, rfl⟩
  · exact
      { key := rfl, kind := rfl, align := rfl, size := orThrow_ok_iff.mp hsize
        address := by show va = imageBase + (va - imageBase); omega
        aligned := ⟨start, orThrow_ok_iff.mp hva⟩ }
  · show p.cursor ≤ va - imageBase
    omega

/-! ## A run of sections of one kind -/

/-- The run `pls` of placements of the sections `es`, from the state `p` to the state `q`. -/
structure PlacedRun (kind : SectionKind) (es : List ((Nat × Nat) × Section)) (p q : Placing)
    (pls : List SectionPlacement) : Prop where
  placements : List.Forall₂ (PlacementOf kind) es pls
  sections : q.sections = p.sections ++ pls
  offsets : q.offsets = pls.foldl setPlacement p.offsets
  ascending : Ascending p.cursor (pls.map SectionPlacement.span) q.cursor
  bssEnd : kind = .bss → q.fileEnd = p.fileEnd
  fileEnd : kind ≠ .bss → p.fileEnd = p.cursor → q.fileEnd = q.cursor

variable {es : List ((Nat × Nat) × Section)}

theorem placeRun_spec {p q : Placing} (h : es.foldlM (placeSection kind) p = .ok q) :
    ∃ pls, PlacedRun kind es p q pls := by
  induction es generalizing p with
  | nil =>
      cases h
      exact ⟨[],
        { placements := .nil, sections := (List.append_nil _).symm, offsets := rfl
          ascending := le_rfl, bssEnd := fun _ => rfl, fileEnd := fun _ h => h }⟩
  | cons e es ih =>
      obtain ⟨p', hstep, hrest⟩ := foldlM_cons_ok.mp h
      obtain ⟨pl, hpl, hoffsets, hsections, hcursor, hnext, hfile⟩ := placeSection_spec hstep
      obtain ⟨pls, hrun⟩ := ih hrest
      refine ⟨pl :: pls,
        { placements := .cons hpl hrun.placements, sections := ?_, offsets := ?_
          ascending := ⟨hcursor, ?_⟩, bssEnd := ?_, fileEnd := ?_ }⟩
      · rw [hrun.sections, hsections, List.append_assoc]
        rfl
      · rw [hrun.offsets, hoffsets]
        rfl
      · have hasc := hrun.ascending
        rw [hnext] at hasc
        exact hasc
      · intro hkind
        rw [hrun.bssEnd hkind, hfile, if_pos hkind]
      · intro hkind _
        refine hrun.fileEnd hkind ?_
        rw [hfile, if_neg hkind]

/-! ## Segments -/

variable {kinds : List SectionKind}

theorem placeSegment_spec {objects : List ObjectFile} {maxBytes headerSize flags : Nat}
    {layout layout' : Layout} {segments segments' : List Segment}
    (hrun : flags = 5 ∨ hasKind objects kinds = true)
    (h : placeSegment objects maxBytes headerSize (layout, segments) (kinds, flags) =
      .ok (layout', segments')) :
    ∃ start placed,
      segmentStart flags layout.fileSize = .ok start ∧
      kinds.foldlM (placeKind objects)
        { offsets := layout.sectionOffsets, sections := layout.sections
          cursor := if flags = 5 then headerSize else start
          fileEnd := if flags = 5 then headerSize else start } = .ok placed ∧
      placed.fileEnd ≤ maxBytes ∧ imageBase + placed.cursor ≤ userEnd ∧
      layout' = { layout with
        sectionOffsets := placed.offsets, sections := placed.sections
        fileSize := placed.fileEnd, memorySize := placed.cursor } ∧
      segments' = segments ++
        [{ flags := flags, offset := start, address := imageBase + start
           fileSize := placed.fileEnd - start, memorySize := placed.cursor - start }] := by
  unfold placeSegment at h
  dsimp only at h
  rw [if_pos hrun] at h
  obtain ⟨start, hstart, h⟩ := bind_ok_iff.mp h
  obtain ⟨placed, hplaced, h⟩ := bind_ok_iff.mp h
  obtain ⟨_, hlimit, h⟩ := bind_ok_iff.mp h
  obtain ⟨memoryEnd, hmemory, h⟩ := bind_ok_iff.mp h
  obtain ⟨_, hspace, h⟩ := bind_ok_iff.mp h
  cases h
  refine ⟨start, placed, hstart, hplaced, require_ok_iff.mp hlimit, ?_, rfl, rfl⟩
  · have hsum := (checkedAdd_eq_some.mp (orThrow_ok_iff.mp hmemory)).1
    have hspace := require_ok_iff.mp hspace
    omega

theorem placeSegment_skip {objects : List ObjectFile} {maxBytes headerSize flags : Nat}
    {state state' : Layout × List Segment} (hrun : ¬ (flags = 5 ∨ hasKind objects kinds = true))
    (h : placeSegment objects maxBytes headerSize state (kinds, flags) = .ok state') :
    state' = state := by
  unfold placeSegment at h
  dsimp only at h
  rw [if_neg hrun] at h
  cases h
  rfl

/-- A segment that lacks its kinds of sections holds none. -/
theorem sectionsOf_eq_nil {objects : List ObjectFile} (h : ¬ hasKind objects kinds = true)
    (hkind : kind ∈ kinds) : sectionsOf objects kind = [] := by
  refine List.eq_nil_iff_forall_not_mem.mpr fun e he => h ?_
  obtain ⟨hat, hk⟩ := mem_sectionsOf.mp he
  obtain ⟨o, ho, hs⟩ := Option.bind_eq_some_iff.mp hat
  unfold hasKind
  refine List.any_eq_true.mpr ⟨o, List.mem_of_getElem? ho, ?_⟩
  refine List.any_eq_true.mpr ⟨e.2, List.mem_of_getElem? hs, ?_⟩
  rw [decide_eq_true_eq, hk]
  exact hkind

/-! ## The four runs -/

/-- The placements of each kind and where their runs start and end. -/
structure Runs where
  text : List SectionPlacement
  constants : List SectionPlacement
  data : List SectionPlacement
  bss : List SectionPlacement
  textEnd : Nat
  constantsStart : Nat
  constantsEnd : Nat
  dataStart : Nat
  dataEnd : Nat
  bssEnd : Nat

namespace Runs

def textSegment (r : Runs) : Segment where
  flags := 5
  offset := 0
  address := imageBase + 0
  fileSize := r.textEnd - 0
  memorySize := r.textEnd - 0

def constantsSegment (r : Runs) : Segment where
  flags := 4
  offset := r.constantsStart
  address := imageBase + r.constantsStart
  fileSize := r.constantsEnd - r.constantsStart
  memorySize := r.constantsEnd - r.constantsStart

def dataSegment (r : Runs) : Segment where
  flags := 6
  offset := r.dataStart
  address := imageBase + r.dataStart
  fileSize := r.dataEnd - r.dataStart
  memorySize := r.bssEnd - r.dataStart

/-- The segments the objects have sections for; the text segment is always there. -/
def segments (r : Runs) (objects : List ObjectFile) : List Segment :=
  r.textSegment ::
    ((if hasKind objects [.readOnlyData] then [r.constantsSegment] else []) ++
      if hasKind objects [.data, .bss] then [r.dataSegment] else [])

/-- What the runs say about a layout. -/
structure Describes (r : Runs) (objects : List ObjectFile) (maxBytes : Nat) (layout : Layout) :
    Prop where
  text : List.Forall₂ (PlacementOf .text) (sectionsOf objects .text) r.text
  constants : List.Forall₂ (PlacementOf .readOnlyData) (sectionsOf objects .readOnlyData)
    r.constants
  data : List.Forall₂ (PlacementOf .data) (sectionsOf objects .data) r.data
  bss : List.Forall₂ (PlacementOf .bss) (sectionsOf objects .bss) r.bss
  sections : layout.sections = r.text ++ r.constants ++ r.data ++ r.bss
  offsets : layout.sectionOffsets =
    layout.sections.foldl setPlacement (objects.map fun o => o.sections.map fun _ => 0)
  textAscending : Ascending (headerSize objects) (r.text.map SectionPlacement.span) r.textEnd
  constantsPage : pageSize ∣ r.constantsStart ∨ ¬ hasKind objects [.readOnlyData] = true
  constantsBehind : r.textEnd ≤ r.constantsStart
  constantsAscending :
    Ascending r.constantsStart (r.constants.map SectionPlacement.span) r.constantsEnd
  dataPage : pageSize ∣ r.dataStart ∨ ¬ hasKind objects [.data, .bss] = true
  dataBehind : r.constantsEnd ≤ r.dataStart
  dataAscending : Ascending r.dataStart (r.data.map SectionPlacement.span) r.dataEnd
  bssAscending : Ascending r.dataEnd (r.bss.map SectionPlacement.span) r.bssEnd
  fileSize : layout.fileSize = r.dataEnd
  fileLimit : r.dataEnd ≤ maxBytes
  space : imageBase + r.bssEnd ≤ userEnd

end Runs

theorem pageSize_eq : pageSize = 2 ^ 12 := rfl

theorem placeKinds_one {objects : List ObjectFile} {p q : Placing}
    (h : [kind].foldlM (placeKind objects) p = .ok q) :
    ∃ pls, PlacedRun kind (sectionsOf objects kind) p q pls := by
  obtain ⟨q', hkind, hnil⟩ := foldlM_cons_ok.mp h
  cases hnil
  exact placeRun_spec hkind

theorem segmentStart_page {flags fileSize start : Nat} (hflags : flags ≠ 5)
    (h : segmentStart flags fileSize = .ok start) : fileSize ≤ start ∧ pageSize ∣ start := by
  unfold segmentStart at h
  rw [if_neg hflags] at h
  have halign := orThrow_ok_iff.mp h
  rw [pageSize_eq] at halign ⊢
  obtain ⟨hle, -, hdvd, -⟩ := checkedAlignUp_two_pow (by decide) halign
  exact ⟨hle, hdvd⟩

/-- What a segment without BSS adds to a layout: a run of placements from `start` on. -/
theorem fileSegment_spec {objects : List ObjectFile} {maxBytes headerSize flags : Nat}
    {layout layout' : Layout} {segments segments' : List Segment} (hflags : flags ≠ 5)
    (hkind : kind ≠ .bss) (hlimit : layout.fileSize ≤ maxBytes)
    (hspace : imageBase + layout.fileSize ≤ userEnd)
    (h : placeSegment objects maxBytes headerSize (layout, segments) ([kind], flags) =
      .ok (layout', segments')) :
    ∃ pls start,
      List.Forall₂ (PlacementOf kind) (sectionsOf objects kind) pls ∧
      layout'.sections = layout.sections ++ pls ∧
      layout'.sectionOffsets = pls.foldl setPlacement layout.sectionOffsets ∧
      (pageSize ∣ start ∨ ¬ hasKind objects [kind] = true) ∧ layout.fileSize ≤ start ∧
      Ascending start (pls.map SectionPlacement.span) layout'.fileSize ∧
      layout'.fileSize ≤ maxBytes ∧ imageBase + layout'.fileSize ≤ userEnd ∧
      segments' = segments ++ if hasKind objects [kind] then
        [{ flags := flags, offset := start, address := imageBase + start
           fileSize := layout'.fileSize - start, memorySize := layout'.fileSize - start }]
        else [] := by
  by_cases hhas : hasKind objects [kind] = true
  · obtain ⟨start, placed, hstart, hplaced, hlimit', hspace', rfl, rfl⟩ :=
      placeSegment_spec (Or.inr hhas) h
    obtain ⟨hle, hpage⟩ := segmentStart_page hflags hstart
    simp only [if_neg hflags] at hplaced
    obtain ⟨pls, hrun⟩ := placeKinds_one hplaced
    have hend : placed.fileEnd = placed.cursor := hrun.fileEnd hkind rfl
    refine ⟨pls, start, hrun.placements, hrun.sections, hrun.offsets, Or.inl hpage, hle, ?_,
      hlimit', ?_, ?_⟩
    · show Ascending start _ placed.fileEnd
      rw [hend]
      exact hrun.ascending
    · show imageBase + placed.fileEnd ≤ userEnd
      rw [hend]
      exact hspace'
    · rw [if_pos hhas, hend]
  · have hstate := placeSegment_skip (by rintro (h5 | h'); exacts [hflags h5, hhas h']) h
    cases hstate
    have hnone : sectionsOf objects kind = [] :=
      sectionsOf_eq_nil hhas (List.mem_singleton_self kind)
    refine ⟨[], layout.fileSize, ?_, (List.append_nil _).symm, rfl, Or.inr hhas, le_rfl, le_rfl,
      hlimit, hspace, ?_⟩
    · rw [hnone]
      exact .nil
    · rw [if_neg hhas, List.append_nil]

/-- What the writable segment adds: a run of data and a run of BSS behind it. -/
theorem writableSegment_spec {objects : List ObjectFile} {maxBytes headerSize flags : Nat}
    {layout layout' : Layout} {segments segments' : List Segment}
    (hflags : flags ≠ 5) (hlimit : layout.fileSize ≤ maxBytes)
    (hspace : imageBase + layout.fileSize ≤ userEnd)
    (h : placeSegment objects maxBytes headerSize (layout, segments) ([.data, .bss], flags) =
      .ok (layout', segments')) :
    ∃ data bss start stop,
      List.Forall₂ (PlacementOf .data) (sectionsOf objects .data) data ∧
      List.Forall₂ (PlacementOf .bss) (sectionsOf objects .bss) bss ∧
      layout'.sections = layout.sections ++ data ++ bss ∧
      layout'.sectionOffsets = (data ++ bss).foldl setPlacement layout.sectionOffsets ∧
      (pageSize ∣ start ∨ ¬ hasKind objects [.data, .bss] = true) ∧ layout.fileSize ≤ start ∧
      Ascending start (data.map SectionPlacement.span) layout'.fileSize ∧
      Ascending layout'.fileSize (bss.map SectionPlacement.span) stop ∧
      layout'.fileSize ≤ maxBytes ∧ imageBase + stop ≤ userEnd ∧
      segments' = segments ++ if hasKind objects [.data, .bss] then
        [{ flags := flags, offset := start, address := imageBase + start
           fileSize := layout'.fileSize - start, memorySize := stop - start }]
        else [] := by
  -- Without data and bss the segment is skipped, and the layout stays as it was.
  by_cases hhas : hasKind objects [.data, .bss] = true
  · obtain ⟨start, placed, hstart, hplaced, hlimit', hspace', rfl, rfl⟩ :=
      placeSegment_spec (Or.inr hhas) h
    obtain ⟨hle, hpage⟩ := segmentStart_page hflags hstart
    simp only [if_neg hflags] at hplaced
    obtain ⟨p, hdata, hplaced⟩ := foldlM_cons_ok.mp hplaced
    obtain ⟨data, hdataRun⟩ := placeRun_spec hdata
    obtain ⟨bss, hbssRun⟩ := placeKinds_one hplaced
    have hend : placed.fileEnd = p.cursor := by
      rw [hbssRun.bssEnd rfl]
      exact hdataRun.fileEnd (by decide) rfl
    refine ⟨data, bss, start, placed.cursor, hdataRun.placements, hbssRun.placements, ?_, ?_,
      Or.inl hpage, hle, ?_, ?_, hlimit', hspace', ?_⟩
    · rw [hbssRun.sections, hdataRun.sections]
    · rw [hbssRun.offsets, hdataRun.offsets, List.foldl_append]
    · show Ascending start _ placed.fileEnd
      rw [hend]
      exact hdataRun.ascending
    · show Ascending placed.fileEnd _ _
      rw [hend]
      exact hbssRun.ascending
    · rw [if_pos hhas]
  · have hstate := placeSegment_skip (by rintro (h5 | h'); exacts [hflags h5, hhas h']) h
    cases hstate
    refine ⟨[], [], layout.fileSize, layout.fileSize, ?_, ?_, ?_, rfl, Or.inr hhas, le_rfl, le_rfl,
      le_rfl, hlimit, hspace, ?_⟩
    · rw [sectionsOf_eq_nil hhas (by decide)]
      exact .nil
    · rw [sectionsOf_eq_nil hhas (by decide)]
      exact .nil
    · rw [List.append_nil, List.append_nil]
    · rw [if_neg hhas, List.append_nil]

/-- The layout is described by its four runs. -/
theorem executableLayout_spec {objects : List ObjectFile} {maxBytes : Nat} {layout : Layout}
    {segments : List Segment} (h : executableLayout objects maxBytes = .ok (layout, segments)) :
    ∃ r : Runs, r.Describes objects maxBytes layout ∧ segments = r.segments objects := by
  unfold executableLayout at h
  obtain ⟨_, -, h⟩ := bind_ok_iff.mp h
  obtain ⟨⟨layout₃, segments₃⟩, hgroups, h⟩ := bind_ok_iff.mp h
  obtain ⟨sizes, -, h⟩ := bind_ok_iff.mp h
  cases h
  -- The three groups in turn: text, read-only data, and data with bss.
  obtain ⟨⟨layout₁, segments₁⟩, htext, hgroups⟩ := foldlM_cons_ok.mp hgroups
  obtain ⟨⟨layout₂, segments₂⟩, hconstants, hgroups⟩ := foldlM_cons_ok.mp hgroups
  obtain ⟨⟨layout₃', segments₃'⟩, hdata, hgroups⟩ := foldlM_cons_ok.mp hgroups
  cases hgroups
  obtain ⟨start, placed, hstart, hplaced, hlimit, hspace, rfl, rfl⟩ :=
    placeSegment_spec (Or.inl rfl) htext
  cases hstart
  obtain ⟨text, htextRun⟩ := placeKinds_one hplaced
  have hfile : placed.fileEnd = placed.cursor := htextRun.fileEnd (by decide) rfl
  obtain ⟨constants, constantsStart, hplacements₂, hsections₂, hoffsets₂, hpage₂, hbehind₂,
    hascending₂, hlimit₂, hspace₂, rfl⟩ :=
    fileSegment_spec (by decide) (by decide) hlimit (hfile ▸ hspace) hconstants
  obtain ⟨data, bss, dataStart, bssEnd, hplacements₃, hplacements₄, hsections₃, hoffsets₃, hpage₃,
    hbehind₃, hascending₃, hascending₄, hlimit₃, hspace₃, rfl⟩ :=
    writableSegment_spec (by decide) hlimit₂ hspace₂ hdata
  have hsections : layout₃.sections = text ++ constants ++ data ++ bss := by
    rw [hsections₃, hsections₂]
    exact congrArg (fun l => l ++ constants ++ data ++ bss) htextRun.sections
  refine ⟨
    { text := text, constants := constants, data := data, bss := bss, textEnd := placed.cursor
      constantsStart := constantsStart, constantsEnd := layout₂.fileSize, dataStart := dataStart
      dataEnd := layout₃.fileSize, bssEnd := bssEnd },
    { text := htextRun.placements, constants := hplacements₂, data := hplacements₃
      bss := hplacements₄, sections := ?_, offsets := ?_, textAscending := htextRun.ascending
      constantsPage := hpage₂, constantsBehind := hfile ▸ hbehind₂
      constantsAscending := hascending₂, dataPage := hpage₃, dataBehind := hbehind₃
      dataAscending := hascending₃, bssAscending := hascending₄, fileSize := rfl
      fileLimit := hlimit₃, space := hspace₃ }, ?_⟩
  · exact hsections
  · show layout₃.sectionOffsets = layout₃.sections.foldl setPlacement _
    rw [hsections, hoffsets₃, hoffsets₂]
    simp only [List.foldl_append]
    exact congrArg (fun o => bss.foldl setPlacement (data.foldl setPlacement
      (constants.foldl setPlacement o))) htextRun.offsets
  · rw [hfile]
    simp only [List.nil_append, List.append_assoc]
    rfl

/-! ## The table of addresses -/

variable {p : SectionPlacement} {offsets : List (List Nat)}

theorem addressAt_setPlacement_self (h : (addressAt offsets p.key).isSome = true) :
    addressAt (setPlacement offsets p) p.key = some p.memoryAddress := by
  obtain ⟨a, ha⟩ := Option.isSome_iff_exists.mp h
  obtain ⟨row, hrow, hcell⟩ := Option.bind_eq_some_iff.mp ha
  have hlt : p.sectionIndex < row.length := (List.getElem?_eq_some_iff.mp hcell).1
  unfold addressAt setPlacement
  rw [show p.key.1 = p.objectIndex from rfl, List.getElem?_modify_eq]
  rw [show p.key.1 = p.objectIndex from rfl] at hrow
  rw [hrow]
  show (row.set p.sectionIndex p.memoryAddress)[p.sectionIndex]? = _
  rw [List.getElem?_set_self hlt]

theorem addressAt_setPlacement_ne {key : Nat × Nat} (h : p.key ≠ key) :
    addressAt (setPlacement offsets p) key = addressAt offsets key := by
  unfold addressAt setPlacement
  by_cases hobject : p.objectIndex = key.1
  · have hsection : p.sectionIndex ≠ key.2 := fun heq => h (Prod.ext hobject heq)
    rw [hobject, List.getElem?_modify_eq]
    cases offsets[key.1]? with
    | none => rfl
    | some row =>
        show (row.set p.sectionIndex p.memoryAddress)[key.2]? = row[key.2]?
        rw [List.getElem?_set_ne hsection]
  · rw [List.getElem?_modify_ne _ _ hobject]

variable {pls : List SectionPlacement}

theorem addressAt_placed_ne {key : Nat × Nat} (h : key ∉ pls.map SectionPlacement.key) :
    addressAt (pls.foldl setPlacement offsets) key = addressAt offsets key := by
  induction pls generalizing offsets with
  | nil => rfl
  | cons p pls ih =>
      rw [List.map_cons, List.mem_cons, not_or] at h
      rw [List.foldl_cons, ih h.2, addressAt_setPlacement_ne (Ne.symm h.1)]

/-- Placements with distinct keys are all found in the table. -/
theorem addressAt_placed (hnodup : (pls.map SectionPlacement.key).Nodup)
    (hrange : ∀ p ∈ pls, (addressAt offsets p.key).isSome = true) (hp : p ∈ pls) :
    addressAt (pls.foldl setPlacement offsets) p.key = some p.memoryAddress := by
  induction pls generalizing offsets with
  | nil => cases hp
  | cons q pls ih =>
      rw [List.map_cons, List.nodup_cons] at hnodup
      obtain ⟨hfresh, hnodup⟩ := hnodup
      rw [List.foldl_cons]
      rcases List.mem_cons.mp hp with rfl | hp'
      · rw [addressAt_placed_ne hfresh]
        exact addressAt_setPlacement_self (hrange p List.mem_cons_self)
      · refine ih hnodup (fun p' hp'' => ?_) hp'
        have hne : q.key ≠ p'.key := fun heq =>
          hfresh (heq ▸ List.mem_map_of_mem hp'')
        rw [addressAt_setPlacement_ne hne]
        exact hrange p' (List.mem_cons_of_mem q hp'')

theorem keys_of_placements (h : List.Forall₂ (PlacementOf kind) es pls) :
    pls.map SectionPlacement.key = es.map Prod.fst := by
  induction h with
  | nil => rfl
  | cons hp _ ih => rw [List.map_cons, List.map_cons, hp.key, ih]

theorem placement_of_section (h : List.Forall₂ (PlacementOf kind) es pls) (he : e ∈ es) :
    ∃ p ∈ pls, PlacementOf kind e p := by
  induction h with
  | nil => cases he
  | @cons e' p es pls hp _ ih =>
      rcases List.mem_cons.mp he with rfl | he
      · exact ⟨p, List.mem_cons_self, hp⟩
      · obtain ⟨q, hq, hof⟩ := ih he
        exact ⟨q, List.mem_cons_of_mem p hq, hof⟩

theorem section_of_placement (h : List.Forall₂ (PlacementOf kind) es pls) (hp : p ∈ pls) :
    ∃ e ∈ es, PlacementOf kind e p := by
  induction h with
  | nil => cases hp
  | @cons e q es pls hq _ ih =>
      rcases List.mem_cons.mp hp with rfl | hp
      · exact ⟨e, List.mem_cons_self, hq⟩
      · obtain ⟨e', he', hof⟩ := ih hp
        exact ⟨e', List.mem_cons_of_mem e he', hof⟩

namespace Runs.Describes

variable {r : Runs} {objects : List ObjectFile} {maxBytes : Nat} {layout : Layout}

theorem keys (h : r.Describes objects maxBytes layout) :
    layout.sections.map SectionPlacement.key =
      ([.text, .readOnlyData, .data, .bss].flatMap (sectionsOf objects)).map Prod.fst := by
  rw [h.sections]
  simp only [List.map_append, List.flatMap_cons, List.flatMap_nil, List.append_nil,
    keys_of_placements h.text, keys_of_placements h.constants, keys_of_placements h.data,
    keys_of_placements h.bss, List.append_assoc]

theorem nodup_keys (h : r.Describes objects maxBytes layout) :
    (layout.sections.map SectionPlacement.key).Nodup := by
  rw [h.keys, List.map_flatMap, List.nodup_flatMap]
  refine ⟨fun kind _ => nodup_sectionsOf objects kind, ?_⟩
  have hkinds : [SectionKind.text, .readOnlyData, .data, .bss].Pairwise (· ≠ ·) := by decide
  refine hkinds.imp fun {a b} hne => ?_
  -- The section with a key has one kind only.
  intro key ha hb
  obtain ⟨e, he, rfl⟩ := List.mem_map.mp ha
  obtain ⟨e', he', hkey⟩ := List.mem_map.mp hb
  obtain ⟨hat, hkind⟩ := mem_sectionsOf.mp he
  obtain ⟨hat', hkind'⟩ := mem_sectionsOf.mp he'
  rw [hkey, hat, Option.some.injEq] at hat'
  exact hne (by rw [← hkind, ← hkind', hat'])

theorem placement (h : r.Describes objects maxBytes layout) {oi si : Nat} {s : Section}
    (hs : sectionAt objects oi si = some s) :
    ∃ p ∈ layout.sections, PlacementOf s.kind ((oi, si), s) p := by
  have he : ((oi, si), s) ∈ sectionsOf objects s.kind := mem_sectionsOf.mpr ⟨hs, rfl⟩
  rw [h.sections]
  have hrun : ∃ pls : List SectionPlacement, (∃ p ∈ pls, PlacementOf s.kind ((oi, si), s) p) ∧
      ∀ p ∈ pls, p ∈ r.text ++ r.constants ++ r.data ++ r.bss := by
    cases hkind : s.kind with
    | text =>
        rw [hkind] at he
        exact ⟨r.text, placement_of_section h.text he, fun p hp => by simp [hp]⟩
    | readOnlyData =>
        rw [hkind] at he
        exact ⟨r.constants, placement_of_section h.constants he, fun p hp => by simp [hp]⟩
    | data =>
        rw [hkind] at he
        exact ⟨r.data, placement_of_section h.data he, fun p hp => by simp [hp]⟩
    | bss =>
        rw [hkind] at he
        exact ⟨r.bss, placement_of_section h.bss he, fun p hp => by simp [hp]⟩
  obtain ⟨pls, ⟨p, hp, hof⟩, hmem⟩ := hrun
  exact ⟨p, hmem p hp, hof⟩

theorem of_placement (h : r.Describes objects maxBytes layout) (hp : p ∈ layout.sections) :
    ∃ s, sectionAt objects p.objectIndex p.sectionIndex = some s ∧
      PlacementOf s.kind (p.key, s) p := by
  have hrun : ∃ kind, ∃ pls : List SectionPlacement,
      p ∈ pls ∧ List.Forall₂ (PlacementOf kind) (sectionsOf objects kind) pls := by
    rw [h.sections] at hp
    rcases List.mem_append.mp hp with hp | hp
    · rcases List.mem_append.mp hp with hp | hp
      · rcases List.mem_append.mp hp with hp | hp
        · exact ⟨_, _, hp, h.text⟩
        · exact ⟨_, _, hp, h.constants⟩
      · exact ⟨_, _, hp, h.data⟩
    · exact ⟨_, _, hp, h.bss⟩
  obtain ⟨kind, pls, hp, hall⟩ := hrun
  obtain ⟨e, he, hof⟩ := section_of_placement hall hp
  obtain ⟨hat, hkind⟩ := mem_sectionsOf.mp he
  refine ⟨e.2, ?_, ?_⟩
  · have hkey := hof.key
    rw [← hkey] at hat
    exact hat
  · rw [hof.key, hkind]
    exact hof

/-- The table holds the address of every placement. -/
theorem address (h : r.Describes objects maxBytes layout) (hp : p ∈ layout.sections) :
    layout.address p.objectIndex p.sectionIndex = some p.memoryAddress := by
  show addressAt layout.sectionOffsets p.key = some p.memoryAddress
  rw [h.offsets]
  refine addressAt_placed h.nodup_keys (fun q hq => ?_) hp
  obtain ⟨s, hs, -⟩ := h.of_placement hq
  obtain ⟨o, ho, hs⟩ := Option.bind_eq_some_iff.mp hs
  unfold addressAt SectionPlacement.key
  rw [List.getElem?_map, ho]
  show ((o.sections.map fun _ => 0)[q.sectionIndex]?).isSome = true
  rw [List.getElem?_map, hs]
  rfl

theorem ascending (h : r.Describes objects maxBytes layout) :
    Ascending (headerSize objects) (layout.sections.map SectionPlacement.span) r.bssEnd := by
  rw [h.sections]
  simp only [List.map_append]
  have hconstants := h.textAscending.append (h.constantsAscending.mono h.constantsBehind le_rfl)
  have hdata := hconstants.append (h.dataAscending.mono h.dataBehind le_rfl)
  exact hdata.append h.bssAscending

/-- Behind the BSS no file bytes are left, and in front of it is all of the file. -/
theorem file_sections (h : r.Describes objects maxBytes layout) :
    layout.sections.filter (·.kind ≠ .bss) = r.text ++ r.constants ++ r.data := by
  have hkind : ∀ {kind : SectionKind} {pls : List SectionPlacement},
      List.Forall₂ (PlacementOf kind) (sectionsOf objects kind) pls → ∀ p ∈ pls, p.kind = kind := by
    intro kind pls hall p hp
    obtain ⟨e, -, hof⟩ := section_of_placement hall hp
    exact hof.kind
  have hkeep : ∀ {kind : SectionKind} {pls : List SectionPlacement}, kind ≠ .bss →
      List.Forall₂ (PlacementOf kind) (sectionsOf objects kind) pls →
        pls.filter (·.kind ≠ .bss) = pls := by
    intro kind pls hne hall
    refine List.filter_eq_self.mpr fun p hp => ?_
    rw [hkind hall p hp]
    exact decide_eq_true hne
  have hdrop : r.bss.filter (·.kind ≠ .bss) = [] := by
    refine List.filter_eq_nil_iff.mpr fun p hp => ?_
    rw [hkind h.bss p hp]
    decide
  rw [h.sections]
  simp only [List.filter_append]
  rw [hkeep (by decide) h.text, hkeep (by decide) h.constants, hkeep (by decide) h.data, hdrop,
    List.append_nil]

theorem file_ascending (h : r.Describes objects maxBytes layout) :
    Ascending (headerSize objects)
      ((layout.sections.filter (·.kind ≠ .bss)).map SectionPlacement.span) layout.fileSize := by
  rw [h.file_sections, h.fileSize]
  simp only [List.map_append]
  have hconstants := h.textAscending.append (h.constantsAscending.mono h.constantsBehind le_rfl)
  exact hconstants.append (h.dataAscending.mono h.dataBehind le_rfl)

/-! ## The segments -/

theorem segments_ascending (h : r.Describes objects maxBytes layout) :
    Ascending 0 ((r.segments objects).map fun s => (s.offset, s.memorySize)) r.bssEnd := by
  have htext := h.textAscending.le
  have hconstants := h.constantsAscending.le
  have hdata := h.dataAscending.le
  have hbss := h.bssAscending.le
  have hbehind := h.constantsBehind
  have hbehind' := h.dataBehind
  unfold Runs.segments
  by_cases hro : hasKind objects [.readOnlyData] = true <;>
  by_cases hrw : hasKind objects [.data, .bss] = true <;>
  · simp only [hro, hrw, Bool.false_eq_true, if_true, if_false, List.append_nil, List.nil_append,
      List.cons_append, List.map_cons, List.map_nil, Ascending, Runs.textSegment,
      Runs.constantsSegment, Runs.dataSegment]
    omega

theorem loadable (h : r.Describes objects maxBytes layout) {s : Segment}
    (hs : s ∈ r.segments objects) :
    s.address = imageBase + s.offset ∧ pageSize ∣ s.offset ∧ s.fileSize ≤ s.memorySize ∧
      s.offset + s.fileSize ≤ layout.fileSize ∧ s.address + s.memorySize ≤ userEnd ∧
      s.flags < 8 := by
  have htext := h.textAscending.le
  have hconstants := h.constantsAscending.le
  have hdata := h.dataAscending.le
  have hbss := h.bssAscending.le
  have hbehind := h.constantsBehind
  have hbehind' := h.dataBehind
  have hspace := h.space
  rw [h.fileSize]
  unfold Runs.segments at hs
  rcases List.mem_cons.mp hs with rfl | hs
  · simp only [Runs.textSegment]
    exact ⟨trivial, ⟨0, rfl⟩, by omega, by omega, by omega, by omega⟩
  rcases List.mem_append.mp hs with hs | hs
  · by_cases hro : hasKind objects [.readOnlyData] = true
    · rw [if_pos hro, List.mem_singleton] at hs
      subst hs
      have hpage := h.constantsPage.resolve_right (not_not_intro hro)
      simp only [Runs.constantsSegment]
      exact ⟨trivial, hpage, by omega, by omega, by omega, by omega⟩
    · rw [if_neg hro] at hs
      cases hs
  · by_cases hrw : hasKind objects [.data, .bss] = true
    · rw [if_pos hrw, List.mem_singleton] at hs
      subst hs
      have hpage := h.dataPage.resolve_right (not_not_intro hrw)
      simp only [Runs.dataSegment]
      exact ⟨trivial, hpage, by omega, by omega, by omega, by omega⟩
    · rw [if_neg hrw] at hs
      cases hs

end Runs.Describes

/-- The permissions of the memory of a section: 4 to read, 2 to write, 1 to execute. -/
def permission : SectionKind → Nat
  | .text => 5
  | .readOnlyData => 4
  | .data | .bss => 6

theorem hasKind_of_placement {objects : List ObjectFile} (hkind : kind ∈ kinds)
    (h : List.Forall₂ (PlacementOf kind) (sectionsOf objects kind) pls) (hp : p ∈ pls) :
    hasKind objects kinds = true := by
  by_contra hnone
  rw [sectionsOf_eq_nil hnone hkind] at h
  cases h
  cases hp

/-- Every placement lies in a segment with the permissions of its kind: in the file-backed
part, or, for BSS, behind it. -/
theorem Runs.Describes.segment_of {r : Runs} {objects : List ObjectFile} {maxBytes : Nat}
    {layout : Layout} (h : r.Describes objects maxBytes layout) (hp : p ∈ layout.sections) :
    ∃ s ∈ r.segments objects, s.flags = permission p.kind ∧ s.offset ≤ p.fileOffset ∧
      p.fileOffset + p.memorySize ≤ s.offset + s.memorySize ∧
      (p.kind ≠ .bss → p.fileOffset + p.memorySize ≤ s.offset + s.fileSize) ∧
      (p.kind = .bss → s.offset + s.fileSize ≤ p.fileOffset) := by
  have hbss := h.bssAscending.le
  have hdata := h.dataAscending.le
  have hconstants := h.constantsAscending.le
  have hkind : ∀ {kind : SectionKind} {pls : List SectionPlacement},
      List.Forall₂ (PlacementOf kind) (sectionsOf objects kind) pls → p ∈ pls → p.kind = kind := by
    intro kind pls hall hp
    obtain ⟨e, -, hof⟩ := section_of_placement hall hp
    exact hof.kind
  have hspan : ∀ {pls : List SectionPlacement} {lo hi : Nat},
      Ascending lo (pls.map SectionPlacement.span) hi → p ∈ pls →
        lo ≤ p.fileOffset ∧ p.fileOffset + p.memorySize ≤ hi :=
    fun hasc hp => hasc.mem (List.mem_map_of_mem hp)
  unfold Runs.segments
  rw [h.sections] at hp
  -- The four runs in the order of the file; only bss has no bytes in it.
  rcases List.mem_append.mp hp with hp | hp
  · rcases List.mem_append.mp hp with hp | hp
    · rcases List.mem_append.mp hp with hp | hp
      · obtain ⟨hlo, hhi⟩ := hspan h.textAscending hp
        rw [hkind h.text hp]
        refine ⟨r.textSegment, List.mem_cons_self, rfl, Nat.zero_le _, ?_, fun _ => ?_, nofun⟩
        · show _ ≤ 0 + (r.textEnd - 0)
          omega
        · show _ ≤ 0 + (r.textEnd - 0)
          omega
      · obtain ⟨hlo, hhi⟩ := hspan h.constantsAscending hp
        have hro : hasKind objects [.readOnlyData] = true :=
          hasKind_of_placement (by decide) h.constants hp
        rw [hkind h.constants hp]
        refine ⟨r.constantsSegment, ?_, rfl, hlo, ?_, fun _ => ?_, nofun⟩
        · rw [if_pos hro]
          simp
        · show _ ≤ r.constantsStart + (r.constantsEnd - r.constantsStart)
          omega
        · show _ ≤ r.constantsStart + (r.constantsEnd - r.constantsStart)
          omega
    · obtain ⟨hlo, hhi⟩ := hspan h.dataAscending hp
      have hrw : hasKind objects [.data, .bss] = true :=
        hasKind_of_placement (by decide) h.data hp
      rw [hkind h.data hp]
      refine ⟨r.dataSegment, ?_, rfl, hlo, ?_, fun _ => ?_, nofun⟩
      · rw [if_pos hrw]
        simp
      · show _ ≤ r.dataStart + (r.bssEnd - r.dataStart)
        omega
      · show _ ≤ r.dataStart + (r.dataEnd - r.dataStart)
        omega
  · obtain ⟨hlo, hhi⟩ := hspan h.bssAscending hp
    have hrw : hasKind objects [.data, .bss] = true := hasKind_of_placement (by decide) h.bss hp
    rw [hkind h.bss hp]
    refine ⟨r.dataSegment, ?_, rfl, ?_, ?_, fun hne => absurd rfl hne, fun _ => ?_⟩
    · rw [if_pos hrw]
      simp
    · exact hdata.trans hlo
    · show _ ≤ r.dataStart + (r.bssEnd - r.dataStart)
      omega
    · show r.dataStart + (r.dataEnd - r.dataStart) ≤ _
      omega

/-- The program headers, one for each segment and one for the stack, fill the header. -/
theorem headerSize_eq (objects : List ObjectFile) (r : Runs) :
    headerSize objects = 64 + 56 * ((r.segments objects).length + 1) := by
  unfold headerSize Runs.segments
  by_cases hro : hasKind objects [.readOnlyData] = true <;>
  by_cases hrw : hasKind objects [.data, .bss] = true <;>
  simp [hro, hrw]

end Whale.Linker
