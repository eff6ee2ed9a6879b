import Whale.Reverse.Executable

set_option autoImplicit false

/-! # Inspection is total and consistent

The inspector walks the section table of an object a second time, after the reader. Both count the
same sections, so that the regions are the text sections the reader found, and symbols and
annotations have the regions of their sections (`relocatable_declines`). With executables, this
is everything the inspector accepts (`elf_consistent`). -/

namespace Whale.Reverse

open Elf

/-! ## Regions -/

/-- The region of a text section of the object. -/
structure TextRegion (bytes : List UInt8) (e : Section × Nat) (r : CodeRegion) : Prop where
  sectionIndex : r.section = some e.2
  name : r.name = e.1.name
  address : r.address = 0
  data : r.bytes = e.1.data
  inside : r.fileOffset + r.bytes.length ≤ bytes.length
  file : r.bytes = slice bytes r.fileOffset r.bytes.length

/-- The text sections, with their indices. -/
def textSections (sections : List (Section × Nat)) : List (Section × Nat) :=
  sections.filter fun e => e.1.kind = .text

/-- Region `id` is that of section `i`. -/
def RegionOf (regions : List CodeRegion) (i id : Nat) : Prop :=
  ∃ r : CodeRegion, regions[id]? = some r ∧ r.section = some i

theorem regionOf_push {regions : List CodeRegion} {r : CodeRegion} {i id : Nat} :
    RegionOf (regions ++ [r]) i id ↔
      RegionOf regions i id ∨ id = regions.length ∧ r.section = some i := by
  unfold RegionOf
  constructor
  · rintro ⟨t, ht, hi⟩
    rcases Nat.lt_trichotomy id regions.length with hlt | rfl | hlt
    · rw [List.getElem?_append_left hlt] at ht
      exact Or.inl ⟨t, ht, hi⟩
    · rw [List.getElem?_concat_length, Option.some.injEq] at ht
      rw [ht]
      exact Or.inr ⟨rfl, hi⟩
    · rw [List.getElem?_eq_none (by simp; omega)] at ht
      cases ht
  · rintro (⟨t, ht, hi⟩ | ⟨rfl, hi⟩)
    · refine ⟨t, ?_, hi⟩
      rw [List.getElem?_append_left (List.getElem?_eq_some_iff.mp ht).1]
      exact ht
    · exact ⟨r, List.getElem?_concat_length, hi⟩

/-- The section headers at these indices. -/
def entriesAt (view : ElfView) (indices : List Nat) : List (ElfSectionHeader × Nat) :=
  indices.map fun i => (headerAt view.bytes view.header.sectionOffset i, i)

theorem payloads_headersOf (view : ElfView) :
    payloads (headersOf view) =
      payloadsOf (entriesAt view (List.range' 1 (view.header.sectionCount - 1))) := by
  unfold payloads payloadsOf entriesAt headersOf
  rw [zipIdx_map_range, ← List.map_drop, List.range_eq_range', List.drop_range']

/-- The loop over the section table has the headers at `done` behind it. -/
structure Projecting (view : ElfView) (sections : List Section) (done : List Nat) (r : Regions) :
    Prop where
  count : r.objectIndex = (payloadsOf (entriesAt view done)).length
  regions : List.Forall₂ (TextRegion view.bytes)
    (textSections (sections.zipIdx.take r.objectIndex)) r.regions
  ids : Numbered r.regions
  size : r.map.length = sections.length
  map : ∀ i id, r.map[i]? = some (some id) ↔ RegionOf r.regions i id

/-- Regions are found for sections that the loop has behind it only. -/
theorem Projecting.region_lt {view : ElfView} {sections : List Section} {done : List Nat}
    {r : Regions} (h : Projecting view sections done r) {i id : Nat}
    (hi : RegionOf r.regions i id) : i < r.objectIndex := by
  obtain ⟨t, ht, hsection⟩ := hi
  obtain ⟨e, he, hregion⟩ := exists_of_forall₂ h.regions.flip (List.mem_of_getElem? ht)
  rw [hregion.sectionIndex, Option.some.injEq] at hsection
  obtain ⟨j, hj⟩ := List.mem_iff_getElem?.mp (List.mem_of_mem_filter he)
  rw [List.getElem?_take] at hj
  split at hj
  · rename_i hlt
    rw [List.getElem?_zipIdx, Option.map_eq_some_iff] at hj
    obtain ⟨s, -, rfl⟩ := hj
    simp only at hsection
    omega
  · cases hj

section

variable {view : ElfView} (htables : Tables view) {sections : List Section}
  {names : ElfSectionHeader}
  (hsections : List.Forall₂ (fun e s => SectionFrom view.bytes names e.1 s)
    (payloads (headersOf view)) sections)

include htables hsections

theorem addSection_declines {done rest : List Nat} {index : Nat}
    (hsplit : List.range' 1 (view.header.sectionCount - 1) = done ++ index :: rest) {r : Regions}
    (h : Projecting view sections done r) (work : Nat) :
    Concludes (fun r' _ => Projecting view sections (done ++ [index]) r') Declined
      (addSection view sections r index) work := by
  have hindex : index < view.header.sectionCount := by
    have hmem : index ∈ List.range' 1 (view.header.sectionCount - 1) := by
      rw [hsplit]
      exact List.mem_append_right _ List.mem_cons_self
    have hbounds := List.mem_range'_1.mp hmem
    omega
  have hentries : entriesAt view (done ++ [index]) = entriesAt view done ++
      [(headerAt view.bytes view.header.sectionOffset index, index)] := List.map_append
  unfold addSection
  refine (charge_declines 1 work).bind fun _ t _ => ?_
  refine (section_declines htables index t).bind fun s u hs => ?_
  obtain ⟨-, hs⟩ := hs
  rw [getElem?_headersOf hindex, Option.some.injEq] at hs
  rw [hs] at hentries
  -- Only a payload is a section of the object, and only text becomes a region.
  by_cases hpayload : s.kind = 1 ∨ s.kind = 8
  · rw [if_pos hpayload]
    have hpush : payloadsOf (entriesAt view (done ++ [index])) =
        payloadsOf (entriesAt view done) ++ [(s, index)] := by
      have hkept : isPayload s := hpayload
      simp [hentries, payloadsOf, hkept]
    have hat : (payloads (headersOf view))[r.objectIndex]? = some (s, index) := by
      rw [payloads_headersOf, hsplit, List.append_cons]
      unfold entriesAt payloadsOf at hpush ⊢
      rw [List.map_append, List.filter_append, hpush, h.count, List.append_assoc]
      unfold entriesAt payloadsOf
      rw [List.getElem?_append_right (Nat.le_refl _), Nat.sub_self]
      rfl
    obtain ⟨source, hsource, hfrom⟩ := forall₂_getElem? hsections hat
    have htake : sections.zipIdx.take (r.objectIndex + 1) =
        sections.zipIdx.take r.objectIndex ++ [(source, r.objectIndex)] := by
      rw [List.take_add_one, List.getElem?_zipIdx, hsource]
      simp
    have hcount : r.objectIndex + 1 = (payloadsOf (entriesAt view (done ++ [index]))).length := by
      rw [hpush, List.length_append, List.length_singleton, h.count]
    rw [hsource]
    by_cases htext : source.kind = .text
    · -- Text has bytes in the file, which the reader has copied.
      have hkind : s.kind ≠ 8 := by
        intro hzero
        have hpayloadKind := hfrom.kind
        rw [htext, hzero] at hpayloadKind
        unfold payloadKind at hpayloadKind
        split at hpayloadKind <;> simp_all
      obtain ⟨hinside, hdata, -⟩ := hfrom.data hkind
      show Concludes _ _ (if source.kind = .text then _ else _) u
      rw [if_pos htext]
      refine (range_declines _ _ u).bind fun bytes w hbytes => ?_
      obtain ⟨hle, rfl⟩ := hbytes
      refine Concludes.pure ?_
      have hnew : textSections [(source, r.objectIndex)] = [(source, r.objectIndex)] := by
        simp [textSections, htext]
      refine ⟨hcount, ?_, h.ids.push rfl, ?_, ?_⟩
      · show List.Forall₂ _ (textSections (sections.zipIdx.take (r.objectIndex + 1))) _
        rw [htake]
        unfold textSections at hnew ⊢
        rw [List.filter_append, hnew]
        refine List.rel_append h.regions (.cons ?_ .nil)
        refine ⟨rfl, rfl, rfl, hdata.symm, ?_, ?_⟩
        · simp only [length_slice hle]
          exact hle
        · simp only [length_slice hle]
      · show (r.map.set _ _).length = _
        rw [List.length_set, h.size]
      · intro i id
        show (r.map.set _ _)[i]? = _ ↔ RegionOf (r.regions ++ _) i id
        have hlt : r.objectIndex < r.map.length := by
          rw [h.size]
          exact (List.getElem?_eq_some_iff.mp hsource).1
        rw [regionOf_push, List.getElem?_set]
        by_cases hi : r.objectIndex = i
        · subst hi
          have hfresh : ¬ RegionOf r.regions r.objectIndex id := fun hregion =>
            absurd (h.region_lt hregion) (Nat.lt_irrefl _)
          simp [hlt, hfresh, eq_comm]
        · have hother : ¬ some r.objectIndex = some i := fun heq => hi (Option.some.inj heq)
          simp only [if_neg hi, hother, and_false, or_false]
          exact h.map i id
    · show Concludes _ _ (if source.kind = .text then _ else _) u
      rw [if_neg htext]
      have hnew : textSections [(source, r.objectIndex)] = [] := by
        simp [textSections, htext]
      refine Concludes.pure ⟨hcount, ?_, h.ids, h.size, h.map⟩
      show List.Forall₂ _ (textSections (sections.zipIdx.take (r.objectIndex + 1))) _
      rw [htake]
      unfold textSections at hnew ⊢
      rw [List.filter_append, hnew, List.append_nil]
      exact h.regions
  · rw [if_neg hpayload]
    have hskip : payloadsOf (entriesAt view (done ++ [index])) =
        payloadsOf (entriesAt view done) := by
      have hdropped : ¬ isPayload s := hpayload
      simp [hentries, payloadsOf, hdropped]
    refine Concludes.pure ⟨?_, h.regions, h.ids, h.size, h.map⟩
    rw [hskip]
    exact h.count

theorem addSections_declines (work : Nat) :
    Concludes (fun r _ => List.Forall₂ (TextRegion view.bytes) (textSections sections.zipIdx)
        r.regions ∧ Numbered r.regions ∧ r.map.length = sections.length ∧
        ∀ i id, r.map[i]? = some (some id) ↔ RegionOf r.regions i id) Declined
      ((List.range' 1 (view.header.sectionCount - 1)).foldlM (addSection view sections)
        ⟨[], List.replicate sections.length none, 0⟩) work := by
  have hloop : Concludes (fun r _ => Projecting view sections
      (List.range' 1 (view.header.sectionCount - 1)) r) Declined
      ((List.range' 1 (view.header.sectionCount - 1)).foldlM (addSection view sections)
        ⟨[], List.replicate sections.length none, 0⟩) work := by
    refine Concludes.foldlM (I := fun done r _ => Projecting view sections done r) ?_ ?_
    · refine ⟨rfl, .nil, rfl, List.length_replicate, fun i id => ?_⟩
      simp [RegionOf, List.getElem?_replicate]
    · intro done index rest r t hsplit h
      exact addSection_declines htables hsections hsplit h t
  refine hloop.mono fun r _ h => ?_
  have hall : r.objectIndex = sections.length := by
    rw [h.count, ← payloads_headersOf, hsections.length_eq]
  have hregions := h.regions
  rw [List.take_of_length_le (by rw [List.length_zipIdx, hall])] at hregions
  exact ⟨hregions, h.ids, h.size, h.map⟩

end

/-! ## Symbols and annotations -/

/-- The symbol in the image. -/
structure SymbolOf (regions : List CodeRegion) (s : ObjectSymbol) (t : ImageSymbol) : Prop where
  name : t.name = s.name
  offset : t.offset = s.value.toNat
  address : t.address = none
  /-- Its region is that of the section the reader gave it. -/
  region : ∀ id, t.region = some id ↔ ∃ i, s.sectionIndex = some i ∧ RegionOf regions i id

/-- The annotation of a relocation. -/
structure AnnotationOf (regions : List CodeRegion) (r : ObjectRelocation) (a : Annotation) :
    Prop where
  region : RegionOf regions r.sectionIndex a.region
  offset : a.offset = r.offset
  symbol : a.symbol = r.symbol
  addend : a.addend = r.addend
  kind : a.kind = r.kind
  width : a.width = relocWidth r.kind

/-- The relocations of sections with a region. -/
def annotated (regions : List CodeRegion) (relocations : List ObjectRelocation) :
    List ObjectRelocation :=
  relocations.filter fun r => ∃ t ∈ regions, t.section = some r.sectionIndex

theorem exists_regionOf_iff {regions : List CodeRegion} {i : Nat} :
    (∃ id, RegionOf regions i id) ↔ ∃ t ∈ regions, t.section = some i := by
  constructor
  · rintro ⟨id, t, ht, hi⟩
    exact ⟨t, List.mem_of_getElem? ht, hi⟩
  · rintro ⟨t, ht, hi⟩
    obtain ⟨id, hid⟩ := List.mem_iff_getElem?.mp ht
    exact ⟨id, t, hid, hi⟩

section

variable {regions : List CodeRegion} {map : List (Option Nat)}
  (hmap : ∀ i id, map[i]? = some (some id) ↔ RegionOf regions i id)

include hmap

theorem addSymbol_declines {symbol : ObjectSymbol}
    (hsymbol : ∀ i, symbol.sectionIndex = some i → i < map.length) (work : Nat) :
    Concludes (fun t _ => SymbolOf regions symbol t) Declined (addSymbol map symbol) work := by
  unfold addSymbol
  refine (charge_declines 1 work).bind fun _ t _ => ?_
  cases hsection : symbol.sectionIndex with
  | none =>
      refine Concludes.pure ⟨rfl, rfl, rfl, fun id => ?_⟩
      rw [hsection]
      exact iff_of_false nofun nofun
  | some index =>
      have hget := List.getElem?_eq_getElem (hsymbol index hsection)
      show Concludes _ _ (orThrow map[index]? ImageIssue.panic >>= _) t
      rw [hget]
      refine Concludes.pure ⟨rfl, rfl, rfl, fun id => ?_⟩
      rw [hsection]
      have hid := hmap index id
      rw [hget, Option.some.injEq] at hid
      constructor
      · exact fun h => ⟨index, rfl, hid.mp h⟩
      · rintro ⟨i, hi, hregion⟩
        cases hi
        exact hid.mpr hregion

theorem addSymbols_declines {symbols : List ObjectSymbol}
    (hsymbols : ∀ s ∈ symbols, ∀ i, s.sectionIndex = some i → i < map.length) (work : Nat) :
    Concludes (fun ts _ => List.Forall₂ (SymbolOf regions) symbols ts) Declined
      (symbols.mapM (addSymbol map)) work := by
  refine Concludes.mapM (I := fun done ts _ => List.Forall₂ (SymbolOf regions) done ts) .nil ?_
  intro done s rest ts t hsplit h
  have hs : s ∈ symbols := by
    rw [hsplit]
    exact List.mem_append_right _ List.mem_cons_self
  exact (addSymbol_declines hmap (hsymbols s hs) t).mono fun _ _ hnew =>
    List.rel_append h (.cons hnew .nil)

theorem addRelocation_declines {done : List ObjectRelocation} {as : List Annotation}
    (h : List.Forall₂ (AnnotationOf regions) (annotated regions done) as)
    {relocation : ObjectRelocation} (hindex : relocation.sectionIndex < map.length) (work : Nat) :
    Concludes (fun as' _ =>
        List.Forall₂ (AnnotationOf regions) (annotated regions (done ++ [relocation])) as')
      Declined (addRelocation map as relocation) work := by
  have hsplit : annotated regions (done ++ [relocation]) =
      annotated regions done ++ annotated regions [relocation] := List.filter_append ..
  unfold addRelocation
  refine (charge_declines 1 work).bind fun _ t _ => ?_
  have hregion := hmap relocation.sectionIndex
  rw [List.getElem?_eq_getElem hindex] at hregion ⊢
  simp only [Option.some.injEq] at hregion
  simp only [orThrow]
  cases hfound : map[relocation.sectionIndex] with
  | none =>
      have hnone : annotated regions [relocation] = [] := by
        have hno : ¬ ∃ t ∈ regions, t.section = some relocation.sectionIndex := by
          rw [← exists_regionOf_iff]
          rintro ⟨id, hid⟩
          rw [← hregion id, hfound] at hid
          cases hid
        simp only [annotated, List.filter_cons, List.filter_nil, hno]
        rfl
      refine Concludes.pure ?_
      rw [hsplit, hnone, List.append_nil]
      exact h
  | some id =>
      have hid : RegionOf regions relocation.sectionIndex id := (hregion id).mp hfound
      have hone : annotated regions [relocation] = [relocation] := by
        have hyes := exists_regionOf_iff.mp ⟨id, hid⟩
        simp only [annotated, List.filter_cons, List.filter_nil, hyes]
        rfl
      refine Concludes.pure ?_
      rw [hsplit, hone]
      exact List.rel_append h (.cons ⟨hid, rfl, rfl, rfl, rfl, rfl⟩ .nil)

theorem addRelocations_declines {relocations : List ObjectRelocation}
    (hrelocations : ∀ r ∈ relocations, r.sectionIndex < map.length) (work : Nat) :
    Concludes (fun as _ => List.Forall₂ (AnnotationOf regions) (annotated regions relocations) as)
      Declined (relocations.foldlM (addRelocation map) []) work := by
  refine Concludes.foldlM (I := fun done as _ =>
    List.Forall₂ (AnnotationOf regions) (annotated regions done) as) .nil ?_
  intro done r rest as t hsplit h
  refine addRelocation_declines hmap h (hrelocations r ?_) t
  rw [hsplit]
  exact List.mem_append_right _ List.mem_cons_self

end

/-! ## The image -/

/-- What a relocatable image is. -/
structure RelocatableImage (bytes : List UInt8) (object : ObjectFile) (image : Image) : Prop where
  kind : image.kind = "elf64-amd64-relocatable"
  entry : image.entry = none
  /-- The code regions are the text sections of the object, in order, with their bytes. -/
  regions : List.Forall₂ (TextRegion bytes) (textSections object.sections.zipIdx) image.regions
  ids : Numbered image.regions
  symbols : List.Forall₂ (SymbolOf image.regions) object.symbols image.symbols
  /-- The annotations are the relocations of these sections, by region and offset. -/
  relocations : ∃ as, List.Forall₂ (AnnotationOf image.regions)
    (annotated image.regions object.relocations) as ∧ image.relocations.Perm as
  sorted : image.relocations.Pairwise fun a b => Annotation.le a b = true

theorem annotation_le_iff {a b : Annotation} :
    Annotation.le a b = true ↔
      a.region < b.region ∨ a.region = b.region ∧ a.offset ≤ b.offset := by
  simp [ Annotation.le]

theorem annotations_sorted (as : List Annotation) :
    (as.mergeSort Annotation.le).Pairwise fun a b => Annotation.le a b = true := by
  apply List.pairwise_mergeSort
  · intro a b c hab hbc
    rw [annotation_le_iff] at hab hbc ⊢
    omega
  · intro a b
    rw [Bool.or_eq_true, annotation_le_iff, annotation_le_iff]
    omega

/-- What an inspection concludes, of its result. -/
theorem result_of_concludes {x : Inspect Image} {work : Nat} {P : Image → Prop}
    (h : Concludes (fun image _ => P image) Declined x work) {r : Except ImageIssue Image}
    (hr : r = match x work with
      | .ok image _ => .ok image
      | .error e _ => .error e) :
    r ≠ .error .panic ∧ ∀ image, r = .ok image → P image := by
  subst hr
  cases hrun : x work with
  | ok image t =>
      refine ⟨nofun, fun image' heq => ?_⟩
      cases heq
      exact h.of_ok hrun
  | error e t =>
      refine ⟨fun heq => ?_, nofun⟩
      cases heq
      exact h.of_error hrun rfl

theorem relocatable_declines {view : ElfView} (htables : Tables view) {limits : ObjectReadLimits}
    (hparse : ElfView.parse view.bytes limits = .ok view) :
    relocatable view limits ≠ .error .panic ∧
      ∀ image, relocatable view limits = .ok image →
        ∃ object usage, readElfWithUsage view.bytes limits = .ok (object, usage) ∧
          RelocatableImage view.bytes object image := by
  unfold relocatable
  cases hread : readElfWithUsage view.bytes limits with
  | error e =>
      cases e with
      | error e => exact ⟨nofun, nofun⟩
      | panic => exact absurd hread (readElfWithUsage_bounded view.bytes limits htables.length).1
  | ok result =>
      obtain ⟨object, usage⟩ := result
      obtain ⟨hvalidate, p, hheaders, hparts⟩ :=
        readElfWithUsage_parts htables.length hparse hread
      have hvalid := ObjectFile.validate_valid hvalidate
      have hsections := hparts.sections
      rw [hheaders] at hsections
      simp only [Except.mapError, ok_bind]
      cases hwork : checkedSub limits.maxWork usage.work with
      | none => exact ⟨nofun, nofun⟩
      | some work =>
          simp only [orThrow_some, ok_bind]
          refine result_of_concludes (P := fun image => ∃ object' usage',
            Except.ok (object, usage) = Except.ok (object', usage') ∧
              RelocatableImage view.bytes object' image) ?_ rfl
          refine (charge_declines _ work).bind fun _ t _ => ?_
          refine (addSections_declines htables hsections t).bind fun r u hr => ?_
          obtain ⟨hregions, hids, hsize, hmap⟩ := hr
          have hsymbols : ∀ s ∈ object.symbols, ∀ i, s.sectionIndex = some i → i < r.map.length :=
            fun s hs i hi => hsize ▸ hvalid.symbols s hs i hi
          have hrelocations : ∀ rel ∈ object.relocations, rel.sectionIndex < r.map.length := by
            intro rel hrel
            obtain ⟨-, s, hs, -⟩ := hvalid.relocations rel hrel
            rw [hsize]
            exact (List.getElem?_eq_some_iff.mp hs).1
          refine (addSymbols_declines hmap hsymbols u).bind fun symbols w hs => ?_
          refine (addRelocations_declines hmap hrelocations w).bind fun as t has => ?_
          refine (charge_declines _ t).bind fun _ u _ => ?_
          exact Concludes.pure ⟨object, usage, rfl, rfl, rfl, hregions, hids, hs,
            ⟨as, has, List.mergeSort_perm as _⟩, annotations_sorted as⟩

/-- Inspection ends without a panic, and every image it returns is that of an executable or of the
object that the reader reads. -/
theorem elf_consistent (bytes : List UInt8) (limits : ObjectReadLimits)
    (hlength : bytes.length < wordBound) :
    Image.elf bytes limits ≠ .error .panic ∧
      ∀ image, Image.elf bytes limits = .ok image →
        ∃ view, ElfView.parse bytes limits = .ok view ∧ view.bytes = bytes ∧
          (view.header.kind = 2 ∧ ExecutableImage view image ∨
            view.header.kind = 1 ∧ ∃ object usage,
              readElfWithUsage bytes limits = .ok (object, usage) ∧
                RelocatableImage bytes object image) := by
  unfold Image.elf
  cases hparse : ElfView.parse bytes limits with
  | error e =>
      cases e with
      | error e => exact ⟨nofun, nofun⟩
      | panic => exact absurd rfl (parse_safe bytes limits _ hparse)
  | ok view =>
      have htables := Tables.of_parse hlength hparse
      obtain rfl := (parse_spec hparse).bytes
      show (if view.header.kind = 1 then relocatable view limits else _) ≠ _ ∧
        ∀ image, (if view.header.kind = 1 then relocatable view limits else _) = _ → _
      by_cases hobject : view.header.kind = 1
      · rw [if_pos hobject]
        obtain ⟨hpanic, himage⟩ := relocatable_declines htables hparse
        exact ⟨hpanic, fun image h => ⟨view, rfl, rfl, Or.inr ⟨hobject, himage image h⟩⟩⟩
      rw [if_neg hobject]
      by_cases hexecutable : view.header.kind = 2
      · rw [if_pos hexecutable]
        obtain ⟨hpanic, himage⟩ :=
          result_of_concludes (executable_declines htables limits limits.maxWork) rfl
        exact ⟨hpanic, fun image h => ⟨view, rfl, rfl, Or.inl ⟨hexecutable, himage image h⟩⟩⟩
      · rw [if_neg hexecutable]
        exact ⟨nofun, nofun⟩

/-- An executable with one load segment, which holds the headers and a `hlt` behind them. -/
def haltFile : List UInt8 :=
  ElfView.magic ++ [2, 1, 1] ++ List.replicate 9 0 ++ leBytes 2 2 ++ leBytes 2 62 ++ leBytes 4 1 ++
    leBytes 8 0x400078 ++ leBytes 8 64 ++ leBytes 8 0 ++ leBytes 4 0 ++ leBytes 2 64 ++
    leBytes 2 56 ++ leBytes 2 1 ++ leBytes 2 0 ++ leBytes 2 0 ++ leBytes 2 0 ++
    leBytes 4 1 ++ leBytes 4 5 ++ leBytes 8 0 ++ leBytes 8 0x400000 ++ leBytes 8 0x400000 ++
    leBytes 8 121 ++ leBytes 8 121 ++ leBytes 8 0x1000 ++ [0xf4]

theorem elf_haltFile : (Image.elf haltFile .default).toOption.map Image.entry =
    some (some 0x400078) := by
  decide +kernel

theorem elf_loopFile : (Image.elf loopFile .default).toOption.map Image.entry = some none := by
  decide +kernel

theorem elf_consistent_files :
    (∃ image object usage, Image.elf loopFile .default = .ok image ∧
      readElfWithUsage loopFile .default = .ok (object, usage) ∧
      RelocatableImage loopFile object image) ∧
    ∃ image view, Image.elf haltFile .default = .ok image ∧ view.bytes = haltFile ∧
      ExecutableImage view image := by
  constructor
  · have hentry := elf_loopFile
    have hconsistent := (elf_consistent loopFile .default (by decide +kernel)).2
    cases helf : Image.elf loopFile .default with
    | error e =>
        rw [helf] at hentry
        cases hentry
    | ok image =>
        rw [helf] at hentry
        obtain ⟨view, -, -, h⟩ := hconsistent image helf
        rcases h with ⟨-, h⟩ | ⟨-, object, usage, hread, h⟩
        · have hsome := h.entry.1.symm.trans (Option.some.inj hentry)
          cases hsome
        · exact ⟨image, object, usage, rfl, hread, h⟩
  · have hentry := elf_haltFile
    have hconsistent := (elf_consistent haltFile .default (by decide +kernel)).2
    cases helf : Image.elf haltFile .default with
    | error e =>
        rw [helf] at hentry
        cases hentry
    | ok image =>
        rw [helf] at hentry
        obtain ⟨view, -, hbytes, h⟩ := hconsistent image helf
        rcases h with ⟨-, h⟩ | ⟨-, object, usage, -, h⟩
        · exact ⟨image, view, rfl, hbytes, h⟩
        · have hnone := h.entry.symm.trans (Option.some.inj hentry)
          cases hnone

end Whale.Reverse
