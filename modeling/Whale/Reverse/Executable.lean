import Whale.Lib.Collect
import Whale.Object.Elf.ReadBounded
import Whale.Reverse.Image

set_option autoImplicit false

/-! # What an inspected executable is

The load segments of an executable that the inspector accepts lie apart, its code regions are the
executable ones with their bytes, and a symbol with a region lies in it, at the same place of the
file by its section and by its segment. Whatever the bytes are, the inspection does not panic. -/

namespace Whale.Reverse

open Elf

/-! ## Outcomes -/

/-- An issue that the inspector reports. -/
def Declined (e : ImageIssue) : Prop := e ≠ .panic

theorem ofAbort_declined {e : ReadAbort} (h : Reported e) : Declined (ImageIssue.ofAbort e) := by
  cases e with
  | error e => exact nofun
  | panic => exact absurd rfl h

theorem view_declines {α : Type} {x : Except ReadAbort α} (hx : Safe x) (work : Nat) :
    Concludes (fun a _ => x = .ok a) Declined (Inspect.view x) work :=
  (Concludes.orRaise fun e h => ofAbort_declined (hx e h)).mono fun _ _ h => h.1

theorem view_answers {α : Type} {x : Except ReadAbort α} {a : α} (h : x = .ok a) (work : Nat) :
    Concludes (fun c _ => c = a) Declined (Inspect.view x) work := by
  rw [h]
  exact rfl

theorem require_declines {c : Prop} [Decidable c] {e : ImageIssue} (he : Declined e) (work : Nat) :
    Concludes (fun _ _ => c) Declined (require c e : Inspect Unit) work :=
  (Concludes.require fun _ => he).mono fun _ _ h => h.1

theorem orThrow_declines {α : Type} {o : Option α} {e : ImageIssue} (he : Declined e)
    (work : Nat) : Concludes (fun a _ => o = some a) Declined (orThrow o e : Inspect α) work :=
  (Concludes.orThrow fun _ => he).mono fun _ _ h => h.1

theorem charge_declines (count work : Nat) :
    Concludes (fun _ _ => True) Declined (charge count) work := by
  unfold charge
  refine Concludes.get_bind ?_
  refine (orThrow_declines (by nofun) work).bind fun left _ _ => ?_
  exact trivial

theorem range_declines {view : ElfView} (offset size work : Nat) :
    Concludes (fun bs _ => offset + size ≤ view.bytes.length ∧ bs = slice view.bytes offset size)
      Declined (Inspect.view (view.range offset size)) work :=
  (view_declines (range_safe view offset size) work).mono fun _ _ h =>
    (ElfView.range_ok_iff.mp h).2

/-! ## Headers -/

/-- The program header at `index` of the table at `offset`. -/
def programAt (bytes : List UInt8) (offset index : Nat) : ElfProgramHeader :=
  let pos := offset + index * 56
  { kind := Elf.field bytes pos 4
    flags := Elf.field bytes (pos + 4) 4
    offset := Elf.field bytes (pos + 8) 8
    virtualAddress := Elf.field bytes (pos + 16) 8
    physicalAddress := Elf.field bytes (pos + 24) 8
    fileSize := Elf.field bytes (pos + 32) 8
    memorySize := Elf.field bytes (pos + 40) 8
    align := Elf.field bytes (pos + 48) 8 }

/-- The program headers of the table. -/
def programsOf (view : ElfView) : List ElfProgramHeader :=
  (List.range view.header.programCount).map (programAt view.bytes view.header.programOffset)

/-- The header tables lie in the input. -/
structure Tables (view : ElfView) : Prop where
  length : view.bytes.length < wordBound
  sections : 0 < view.header.sectionCount →
    view.header.sectionOffset + view.header.sectionCount * 64 ≤ view.bytes.length
  programs : 0 < view.header.programCount →
    view.header.programOffset + view.header.programCount * 56 ≤ view.bytes.length

theorem Tables.of_parse {bytes : List UInt8} {limits : ObjectReadLimits} {view : ElfView}
    (hlength : bytes.length < wordBound) (h : ElfView.parse bytes limits = .ok view) :
    Tables view := by
  have hview := parse_spec h
  exact ⟨hview.bytes ▸ hlength, hview.table, parse_programs h⟩

section

variable {view : ElfView}

theorem getElem?_headersOf {index : Nat} (h : index < view.header.sectionCount) :
    (headersOf view)[index]? = some (headerAt view.bytes view.header.sectionOffset index) := by
  simp [headersOf, h]

variable (htables : Tables view)

include htables

theorem program_answers {index : Nat} (h : index < view.header.programCount) :
    view.program index = .ok (programAt view.bytes view.header.programOffset index) := by
  have hle := htables.programs (by omega)
  exact ElfView.program_eq htables.length h (by omega)

/-- A section header is read from inside the input, or its index is out of range. -/
theorem section_declines (index work : Nat) :
    Concludes (fun h _ => index < view.header.sectionCount ∧ (headersOf view)[index]? = some h)
      Declined (Inspect.view (view.section index)) work := by
  by_cases hindex : index < view.header.sectionCount
  · have hanswer := section_eq htables.length hindex (htables.sections (by omega))
    refine (view_answers hanswer work).mono fun h _ heq => ⟨hindex, ?_⟩
    rw [heq]
    exact getElem?_headersOf hindex
  · unfold ElfView.section
    rw [require_of_not hindex]
    exact nofun

theorem field_answers {pos k n : Nat} (h : pos + k + n ≤ view.bytes.length) (work : Nat) :
    Concludes (fun v _ => v = Elf.field view.bytes (pos + k) n) Declined
      (Inspect.view (plus pos k >>= view.number n)) work :=
  view_answers (field_eq htables.length h) work

end

/-! ## Load segments -/

/-- The virtual ranges do not meet. -/
def Apart (p q : ElfProgramHeader) : Prop :=
  p.virtualAddress + p.memorySize ≤ q.virtualAddress ∨
    q.virtualAddress + q.memorySize ≤ p.virtualAddress

def loadSegments (programs : List ElfProgramHeader) : List ElfProgramHeader :=
  programs.filter fun p => p.kind = 1

/-- The load segments with executable bytes, with their indices. -/
def codeSegments (programs : List (ElfProgramHeader × Nat)) : List (ElfProgramHeader × Nat) :=
  programs.filter fun e => e.1.kind = 1 ∧ e.1.flags % 2 = 1 ∧ e.1.fileSize ≠ 0

/-- The region of a load segment. -/
structure RegionFrom (bytes : List UInt8) (e : ElfProgramHeader × Nat) (r : CodeRegion) : Prop where
  sectionless : r.section = none
  name : r.name = s!"PT_LOAD[{e.2}]"
  fileOffset : r.fileOffset = e.1.offset
  address : r.address = e.1.virtualAddress
  inside : e.1.offset + e.1.fileSize ≤ bytes.length
  bytes : r.bytes = slice bytes e.1.offset e.1.fileSize
  fits : e.1.fileSize ≤ e.1.memorySize
  bounded : e.1.virtualAddress + e.1.memorySize < wordBound

theorem RegionFrom.length {bytes : List UInt8} {e : ElfProgramHeader × Nat} {r : CodeRegion}
    (h : RegionFrom bytes e r) : r.bytes.length = e.1.fileSize := by
  rw [h.bytes, length_slice h.inside]

/-- Every region has its position as its number. -/
def Numbered (regions : List CodeRegion) : Prop :=
  regions.map CodeRegion.id = List.range regions.length

variable {regions : List CodeRegion}

theorem Numbered.push (h : Numbered regions) {r : CodeRegion} (hid : r.id = regions.length) :
    Numbered (regions ++ [r]) := by
  unfold Numbered at h ⊢
  rw [List.map_append, h, List.length_append, List.length_singleton, List.range_succ,
    List.map_singleton, hid]

theorem Numbered.getElem?_id (h : Numbered regions) {r : CodeRegion} (hr : r ∈ regions) :
    regions[r.id]? = some r := by
  obtain ⟨i, hi⟩ := List.mem_iff_getElem?.mp hr
  have hid : (regions.map CodeRegion.id)[i]? = some r.id := by
    rw [List.getElem?_map, hi, Option.map_some]
  have hlt := (List.getElem?_eq_some_iff.mp hi).1
  rw [h, List.getElem?_range hlt, Option.some.injEq] at hid
  rw [← hid]
  exact hi

/-- The loop over the program headers has those at `done` behind it. -/
structure Mapping (view : ElfView) (done : List Nat) (m : Mapped) : Prop where
  ranges : m.mappings =
    (loadSegments (done.map (programAt view.bytes view.header.programOffset))).map fun p =>
      (p.virtualAddress, p.virtualAddress + p.memorySize)
  apart : (loadSegments (done.map (programAt view.bytes view.header.programOffset))).Pairwise Apart
  regions : List.Forall₂ (RegionFrom view.bytes)
    (codeSegments (done.map fun i => (programAt view.bytes view.header.programOffset i, i)))
    m.regions
  ids : Numbered m.regions

section

variable {view : ElfView} (htables : Tables view)

theorem loadBytes_declines (p : ElfProgramHeader) (work : Nat) :
    Concludes (fun bs _ => (bs = [] ↔ p.fileSize = 0) ∧ (p.fileSize ≠ 0 →
        p.offset + p.fileSize ≤ view.bytes.length ∧ bs = slice view.bytes p.offset p.fileSize))
      Declined (loadBytes view p) work := by
  unfold loadBytes
  by_cases hsize : p.fileSize = 0
  · rw [if_pos hsize]
    exact Concludes.pure ⟨iff_of_true rfl hsize, fun hne => absurd hsize hne⟩
  · rw [if_neg hsize]
    refine (range_declines p.offset p.fileSize work).mono fun bs _ h => ⟨?_, fun _ => h⟩
    refine iff_of_false (fun hnil => hsize ?_) hsize
    rw [← length_slice h.1, ← h.2, hnil]
    rfl

include htables

theorem mapProgram_declines {done : List Nat} {m : Mapped} (h : Mapping view done m) {index : Nat}
    (hindex : index < view.header.programCount) (work : Nat) :
    Concludes (fun m' _ => Mapping view (done ++ [index]) m') Declined (mapProgram view m index)
      work := by
  unfold mapProgram
  refine (charge_declines 1 work).bind fun _ t _ => ?_
  refine (view_answers (program_answers htables hindex) t).bind fun p u hp => ?_
  refine (require_declines (by nofun) u).bind fun _ w _ => ?_
  have hloads : loadSegments ((done ++ [index]).map
      (programAt view.bytes view.header.programOffset)) =
      loadSegments (done.map (programAt view.bytes view.header.programOffset)) ++
        loadSegments [p] := by
    simp [loadSegments, hp]
  have hcodes : codeSegments ((done ++ [index]).map fun i =>
      (programAt view.bytes view.header.programOffset i, i)) =
      codeSegments (done.map fun i => (programAt view.bytes view.header.programOffset i, i)) ++
        codeSegments [(p, index)] := by
    simp [codeSegments, hp]
  by_cases hkind : p.kind ≠ 1
  · rw [if_pos hkind]
    have hload : loadSegments [p] = [] := by simp [loadSegments, hkind]
    have hcode : codeSegments [(p, index)] = [] := by simp [codeSegments, hkind]
    refine Concludes.pure ⟨?_, ?_, ?_, h.ids⟩
    · rw [hloads, hload, List.append_nil]
      exact h.ranges
    · rw [hloads, hload, List.append_nil]
      exact h.apart
    · rw [hcodes, hcode, List.append_nil]
      exact h.regions
  rw [if_neg hkind]
  have hload : loadSegments [p] = [p] := by simp [loadSegments, not_not.mp hkind]
  refine (require_declines (by nofun) w).bind fun _ t hvalid => ?_
  refine (orThrow_declines (by nofun) t).bind fun stop u hstop => ?_
  obtain ⟨rfl, hbound⟩ := checkedAdd_eq_some.mp hstop
  refine (loadBytes_declines p u).bind fun bytes w hbytes => ?_
  refine (charge_declines _ w).bind fun _ t _ => ?_
  refine (require_declines (by nofun) t).bind fun _ u hoverlap => ?_
  have hranges : m.mappings ++ [(p.virtualAddress, p.virtualAddress + p.memorySize)] =
      (loadSegments ((done ++ [index]).map
        (programAt view.bytes view.header.programOffset))).map fun p =>
          (p.virtualAddress, p.virtualAddress + p.memorySize) := by
    rw [hloads, hload, List.map_append, ← h.ranges]
    rfl
  have hapart : (loadSegments ((done ++ [index]).map
      (programAt view.bytes view.header.programOffset))).Pairwise Apart := by
    rw [hloads, hload, List.pairwise_append]
    refine ⟨h.apart, List.pairwise_singleton _ _, fun q hq p' hp' => ?_⟩
    rw [List.mem_singleton.mp hp']
    have hrange := hoverlap (q.virtualAddress, q.virtualAddress + q.memorySize) (by
      rw [h.ranges]
      exact List.mem_map_of_mem hq)
    simp only at hrange
    unfold Apart
    omega
  by_cases hcode : p.flags % 2 = 1 ∧ bytes ≠ []
  · rw [if_pos hcode]
    have hsize : p.fileSize ≠ 0 := fun hzero => hcode.2 (hbytes.1.mpr hzero)
    have hsegment : codeSegments [(p, index)] = [(p, index)] := by
      simp [codeSegments, not_not.mp hkind, hcode.1, hsize]
    obtain ⟨hinside, hslice⟩ := hbytes.2 hsize
    refine Concludes.pure ⟨hranges, hapart, ?_, h.ids.push rfl⟩
    rw [hcodes, hsegment]
    refine List.rel_append h.regions (.cons ?_ .nil)
    exact ⟨rfl, rfl, rfl, rfl, hinside, hslice, hvalid.1, hbound⟩
  · rw [if_neg hcode]
    have hsegment : codeSegments [(p, index)] = [] := by
      simp only [codeSegments, List.filter_eq_nil_iff, List.mem_singleton]
      rintro _ rfl
      simp only [decide_eq_true_eq, not_and, not_not]
      intro _ hflags
      by_contra hsize
      exact hcode ⟨hflags, fun hnil => hsize (hbytes.1.mp hnil)⟩
    refine Concludes.pure ⟨hranges, hapart, ?_, h.ids⟩
    rw [hcodes, hsegment, List.append_nil]
    exact h.regions

theorem mapPrograms_declines (work : Nat) :
    Concludes (fun m _ => Mapping view (List.range view.header.programCount) m) Declined
      ((List.range view.header.programCount).foldlM (mapProgram view) ⟨[], []⟩) work := by
  refine Concludes.foldlM (I := fun done m _ => Mapping view done m) ⟨rfl, .nil, .nil, rfl⟩ ?_
  intro done index rest m t hsplit h
  refine mapProgram_declines htables h (List.mem_range.mp ?_) t
  rw [hsplit]
  exact List.mem_append_right _ List.mem_cons_self

end

/-! ## Names -/

/-- The issues of a kind of names are issues that the inspector reports. -/
structure NameIssues.Declined (issues : NameIssues) : Prop where
  offset : Reverse.Declined issues.offset
  budget : Reverse.Declined issues.budget
  work : Reverse.Declined issues.work
  strings : Reverse.Declined issues.strings
  encoding : Reverse.Declined issues.encoding

theorem sectionNameIssues_declined : sectionNameIssues.Declined :=
  ⟨nofun, nofun, nofun, nofun, nofun⟩

theorem symbolNameIssues_declined : symbolNameIssues.Declined :=
  ⟨nofun, nofun, nofun, nofun, nofun⟩

theorem inspectName_declines {issues : NameIssues} (hissues : issues.Declined)
    (limits : ObjectReadLimits) (cost : Nat) (names : List UInt8) (offset stringWork work : Nat) :
    Concludes (fun r _ => offset ≤ names.length ∧ ∃ k stop,
        ((names.drop offset).take k).findIdx? (· == 0) = some stop ∧
          ofBytes ((names.drop offset).take stop) = some r.1)
      Declined (inspectName issues limits cost names offset stringWork) work := by
  unfold inspectName
  refine (require_declines hissues.offset work).bind fun _ t hoffset => ?_
  refine Concludes.get_bind ?_
  refine (orThrow_declines hissues.budget t).bind fun stop u hstop => ?_
  refine (orThrow_declines hissues.work u).bind fun price w _ => ?_
  refine (charge_declines price w).bind fun _ t _ => ?_
  refine (orThrow_declines hissues.strings t).bind fun total u _ => ?_
  refine (require_declines hissues.strings u).bind fun _ w _ => ?_
  refine (orThrow_declines hissues.encoding w).bind fun name t hname => ?_
  exact Concludes.pure ⟨hoffset, _, stop, hstop, hname⟩

section

variable {view : ElfView} (htables : Tables view)

include htables

theorem sectionNames_declines (work : Nat) :
    Concludes (fun _ _ => True) Declined (sectionNames view) work := by
  unfold sectionNames
  split
  · exact Concludes.pure trivial
  · refine (section_declines htables _ work).bind fun table t _ => ?_
    refine (require_declines (by nofun) t).bind fun _ u _ => ?_
    refine (range_declines _ _ u).bind fun names w _ => ?_
    refine (require_declines (by nofun) w).bind fun _ t _ => ?_
    exact Concludes.pure trivial

end

/-! ## Symbols -/

/-- A symbol at `offset` of a region: the whole symbol is in the region and in its section, which
place it at the same position of the file. -/
structure SymbolIn (owner : ElfSectionHeader) (r : CodeRegion) (value size offset : Nat) :
    Prop where
  address : value = r.address + offset
  inside : offset < r.bytes.length ∧ offset + size ≤ r.bytes.length
  code : owner.kind = 1 ∧ owner.flags.testBit 2 = true
  defined : owner.address ≤ value ∧ value + size ≤ owner.address + owner.size
  position : owner.offset + (value - owner.address) = r.fileOffset + offset

/-- The symbol of record `n` of a symbol table. -/
structure ImageSymbolFrom (view : ElfView) (regions : List CodeRegion)
    (table strings : ElfSectionHeader) (n : Nat) (s : ImageSymbol) : Prop where
  symtab : table ∈ headersOf view ∧ table.kind = 2
  strtab : (headersOf view)[table.link]? = some strings
  record : n ≠ 0 ∧ RecordInside view.bytes table n
  name : NameAt view.bytes strings (Elf.field view.bytes (table.offset + n * 24) 4) s.name
  address : s.address = some (Elf.field view.bytes (table.offset + n * 24 + 8) 8)
  outside : s.region = none → s.offset = 0
  inside : ∀ id, s.region = some id → ∃ r owner, regions[id]? = some r ∧
    (headersOf view)[Elf.field view.bytes (table.offset + n * 24 + 6) 2]? = some owner ∧
    SymbolIn owner r (Elf.field view.bytes (table.offset + n * 24 + 8) 8)
      (Elf.field view.bytes (table.offset + n * 24 + 16) 8) s.offset

/-- Every symbol comes from a record. -/
def SymbolsFrom (view : ElfView) (regions : List CodeRegion) (symbols : List ImageSymbol) : Prop :=
  ∀ s ∈ symbols, ∃ table strings n, ImageSymbolFrom view regions table strings n s

theorem SymbolsFrom.push {view : ElfView} {symbols : List ImageSymbol}
    (h : SymbolsFrom view regions symbols) {s : ImageSymbol}
    (hs : ∃ table strings n, ImageSymbolFrom view regions table strings n s) :
    SymbolsFrom view regions (symbols ++ [s]) := by
  intro s' hs'
  rcases List.mem_append.mp hs' with hs' | hs'
  · exact h s' hs'
  · rw [List.mem_singleton.mp hs']
    exact hs

section

variable {view : ElfView} (htables : Tables view)

include htables

theorem symbolRegion_declines (regions : List CodeRegion)
    (sectionIndex kind value size work : Nat) :
    Concludes (fun o _ => ∀ r, o = some r → r ∈ regions ∧ ∃ owner,
        (headersOf view)[sectionIndex]? = some owner ∧
          SymbolIn owner r value size (value - r.address))
      Declined (symbolRegion view regions sectionIndex kind value size) work := by
  unfold symbolRegion
  refine (orThrow_declines (by nofun) work).bind fun stop t hstop => ?_
  obtain ⟨rfl, -⟩ := checkedAdd_eq_some.mp hstop
  split
  · exact Concludes.pure nofun
  refine (require_declines (by nofun) t).bind fun _ u _ => ?_
  refine (section_declines htables _ u).bind fun owner w howner => ?_
  refine (orThrow_declines (by nofun) w).bind fun ownerEnd t hend => ?_
  obtain ⟨rfl, -⟩ := checkedAdd_eq_some.mp hend
  refine (require_declines (by nofun) t).bind fun _ u _ => ?_
  split
  · rename_i hcode
    obtain ⟨hinside, hkind, hflags, -⟩ := hcode
    refine (charge_declines _ u).bind fun _ w _ => ?_
    refine (orThrow_declines (by nofun) w).bind fun r t hfind => ?_
    refine (orThrow_declines (by nofun) t).bind fun position u hposition => ?_
    refine (require_declines (by nofun) u).bind fun _ w hagree => ?_
    have hholds := List.find?_some hfind
    obtain ⟨⟨hle, hlt⟩, hfits⟩ := of_decide_eq_true hholds
    obtain ⟨rfl, -⟩ := checkedAdd_eq_some.mp hposition
    refine Concludes.pure fun r' hr' => ?_
    cases hr'
    refine ⟨List.mem_of_find?_eq_some hfind, owner, howner.2, ?_⟩
    exact {
      address := by omega
      inside := by omega
      code := ⟨hkind, hflags⟩
      defined := by omega
      position := (checkedAdd_eq_some.mp hagree).1.symm }
  · exact Concludes.pure nofun

theorem inspectSymbol_declines (limits : ObjectReadLimits) (hregions : Numbered regions)
    {table strings : ElfSectionHeader} (htable : table ∈ headersOf view ∧ table.kind = 2)
    (hstrings : (headersOf view)[table.link]? = some strings) (hnames : Inside view.bytes strings)
    {n : Nat} (hrecord : n ≠ 0 ∧ RecordInside view.bytes table n) {s : Named}
    (hs : SymbolsFrom view regions s.symbols) (work : Nat) :
    Concludes (fun s' _ => SymbolsFrom view regions s'.symbols) Declined
      (inspectSymbol view limits regions table (slice view.bytes strings.offset strings.size) s n)
      work := by
  have hpos : table.offset + n * 24 + 24 ≤ view.bytes.length := by
    obtain ⟨hle, hinside⟩ := hrecord.2
    unfold Inside at hinside
    omega
  unfold inspectSymbol
  refine (charge_declines 1 work).bind fun _ t _ => ?_
  refine (view_answers (recordAt_eq htables.length hrecord.2) t).bind fun pos u hat => ?_
  subst hat
  have hfirst : view.u32 (table.offset + n * 24) =
      .ok (Elf.field view.bytes (table.offset + n * 24) 4) :=
    ElfView.number_eq htables.length (by omega)
  refine (view_answers hfirst u).bind fun offset w hoffset => ?_
  subst hoffset
  refine (inspectName_declines symbolNameIssues_declined limits 3 _ _ _ w).bind fun r t hname => ?_
  obtain ⟨name, stringWork⟩ := r
  obtain ⟨hoffset, k, stop, hstop, hname⟩ := hname
  simp only
  have hat : NameAt view.bytes strings (Elf.field view.bytes (table.offset + n * 24) 4) name := by
    rw [length_slice hnames] at hoffset
    have htail : (slice view.bytes strings.offset strings.size).drop
        (Elf.field view.bytes (table.offset + n * 24) 4) =
        slice view.bytes (strings.offset + Elf.field view.bytes (table.offset + n * 24) 4)
          (strings.size - Elf.field view.bytes (table.offset + n * 24) 4) := by
      simp only [slice, List.drop_take, List.drop_drop]
    rw [htail] at hstop hname
    exact (nameAt_of_findIdx hnames hoffset hstop hname).2
  refine (field_answers htables (n := 2) (by omega) t).bind fun sectionIndex u hsection => ?_
  split
  · exact Concludes.pure hs
  refine (require_declines (by rintro ⟨⟩) u).bind fun _ w _ => ?_
  refine (field_answers htables (by omega) w).bind fun info t _ => ?_
  split
  · exact Concludes.pure hs
  refine (field_answers htables (by omega) t).bind fun value u hvalue => ?_
  refine (field_answers htables (by omega) u).bind fun size w hsize => ?_
  refine (symbolRegion_declines htables regions _ _ _ _ w).bind fun region t hregion => ?_
  refine Concludes.pure (hs.push ⟨table, strings, n, ?_⟩)
  refine ⟨htable, hstrings, hrecord, hat, congrArg some hvalue, fun hnone => ?_, fun id hid => ?_⟩
  · rw [Option.map_eq_none_iff.mp hnone]
    rfl
  · obtain ⟨r, rfl, rfl⟩ := Option.map_eq_some_iff.mp hid
    obtain ⟨hr, owner, howner, hin⟩ := hregion r rfl
    rw [← hsection, ← hvalue, ← hsize]
    exact ⟨r, owner, hregions.getElem?_id hr, howner, hin⟩

omit htables in
/-- The name of a section is checked only. -/
theorem inspectSectionName_bind {α : Type} {Q : α → Nat → Prop} (limits : ObjectReadLimits)
    (names : Option (List UInt8)) (name stringWork : Nat) {f : Nat → Inspect α}
    (hf : ∀ stringWork t, Concludes Q Declined (f stringWork) t) (work : Nat) :
    Concludes Q Declined
      (if name = 0 then pure stringWork >>= f
        else do
          let names ← orThrow names ImageIssue.sectionNameMissing
          let (_, stringWork) ← inspectName sectionNameIssues limits 2 names name stringWork
          pure stringWork >>= f) work := by
  split
  · exact hf _ _
  · refine (orThrow_declines (by nofun) work).bind fun names t _ => ?_
    refine (inspectName_declines sectionNameIssues_declined limits 2 _ _ _ t).bind fun r u _ => ?_
    exact hf _ _

theorem inspectSection_declines (limits : ObjectReadLimits) (hregions : Numbered regions)
    (names : Option (List UInt8)) {s : Named} (hs : SymbolsFrom view regions s.symbols)
    (index work : Nat) :
    Concludes (fun s' _ => SymbolsFrom view regions s'.symbols) Declined
      (inspectSection view limits regions names s index) work := by
  unfold inspectSection
  refine (charge_declines 1 work).bind fun _ t _ => ?_
  refine (section_declines htables index t).bind fun header u hheader => ?_
  refine inspectSectionName_bind limits names _ _ (fun stringWork w => ?_) u
  refine (require_declines (by nofun) w).bind fun _ t _ => ?_
  refine (orThrow_declines (by nofun) t).bind fun _ u _ => ?_
  have hbytes : Concludes (fun _ _ => header.kind ≠ 8 → Inside view.bytes header) Declined
      (if header.kind = 8 then pure [] else Inspect.view (view.range header.offset header.size))
      u := by
    split
    · rename_i hkind
      exact Concludes.pure fun hne => absurd hkind hne
    · exact (range_declines _ _ u).mono fun _ _ h _ => h.1
  refine hbytes.ite_bind fun _ w hinside => ?_
  split
  · exact Concludes.pure hs
  rename_i hkind
  have hkind := not_not.mp hkind
  have hinside := hinside (by omega)
  refine (require_declines (by nofun) w).bind fun _ t _ => ?_
  refine (orThrow_declines (by nofun) t).bind fun count u _ => ?_
  refine (require_declines (by nofun) u).bind fun _ w _ => ?_
  refine (section_declines htables _ w).bind fun strings t hstrings => ?_
  refine (require_declines (by nofun) t).bind fun _ u _ => ?_
  refine (range_declines _ _ u).bind fun bytes w hnames => ?_
  obtain ⟨hnames, rfl⟩ := hnames
  refine Concludes.foldlM (I := fun _ (s : Named) _ => SymbolsFrom view regions s.symbols) hs ?_
  intro done n rest s t hsplit h
  have hn : 1 ≤ n ∧ n < 1 + (header.size / 24 - 1) := by
    refine List.mem_range'_1.mp ?_
    rw [hsplit]
    exact List.mem_append_right _ List.mem_cons_self
  have hrecord : RecordInside view.bytes header n := ⟨by omega, hinside⟩
  exact inspectSymbol_declines htables limits hregions ⟨List.mem_of_getElem? hheader.2, hkind⟩
    hstrings.2 hnames ⟨by omega, hrecord⟩ h t

end

/-! ## The image -/

/-- No address is in both. -/
def Separate (r t : CodeRegion) : Prop := ∀ address, ¬ (r.holds address ∧ t.holds address)

/-- What an executable image is. -/
structure ExecutableImage (view : ElfView) (image : Image) : Prop where
  kind : image.kind = "elf64-amd64-executable"
  /-- The virtual ranges of the load segments are pairwise disjoint. -/
  apart : (loadSegments (programsOf view)).Pairwise Apart
  /-- The code regions are the executable segments, with their bytes. -/
  regions : List.Forall₂ (RegionFrom view.bytes) (codeSegments (programsOf view).zipIdx)
    image.regions
  ids : Numbered image.regions
  /-- The entry is in exactly one region. -/
  entry : image.entry = some view.header.entry ∧
    ∃! id : Nat, ∃ r : CodeRegion, image.regions[id]? = some r ∧ r.holds view.header.entry
  symbols : SymbolsFrom view image.regions image.symbols
  relocations : image.relocations = []

/-- Regions of segments that lie apart have no address in common. -/
theorem regions_apart {bytes : List UInt8} {es : List (ElfProgramHeader × Nat)}
    (h : List.Forall₂ (RegionFrom bytes) es regions) (hapart : es.Pairwise fun e f => Apart e.1 f.1)
    :
    regions.Pairwise Separate := by
  refine pairwise_of_forall₂ ?_ h hapart
  intro e f r t hr ht hef address hboth
  obtain ⟨⟨hle, hlt⟩, ⟨hle', hlt'⟩⟩ := hboth
  rw [hr.length, hr.address] at hlt
  rw [hr.address] at hle
  rw [ht.length, ht.address] at hlt'
  rw [ht.address] at hle'
  have hfits := hr.fits
  have hfits' := ht.fits
  unfold Apart at hef
  omega

theorem existsUnique_holds {address : Nat} (hapart : regions.Pairwise Separate)
    (h : ∃ r ∈ regions, CodeRegion.holds r address) :
    ∃! id : Nat, ∃ r : CodeRegion, regions[id]? = some r ∧ r.holds address := by
  obtain ⟨r, hr, hholds⟩ := h
  obtain ⟨i, hi⟩ := List.mem_iff_getElem?.mp hr
  refine ⟨i, ⟨r, hi, hholds⟩, ?_⟩
  rintro j ⟨t, hj, hholds'⟩
  have hpair := List.pairwise_iff_getElem.mp hapart
  obtain ⟨hilt, rfl⟩ := List.getElem?_eq_some_iff.mp hi
  obtain ⟨hjlt, rfl⟩ := List.getElem?_eq_some_iff.mp hj
  rcases Nat.lt_trichotomy i j with hlt | heq | hlt
  · exact absurd ⟨hholds, hholds'⟩ (hpair i j hilt hjlt hlt address)
  · exact heq.symm
  · exact absurd ⟨hholds', hholds⟩ (hpair j i hjlt hilt hlt address)

theorem executable_declines {view : ElfView} (htables : Tables view) (limits : ObjectReadLimits)
    (work : Nat) :
    Concludes (fun image _ => ExecutableImage view image) Declined (executable view limits)
      work := by
  unfold executable
  refine (mapPrograms_declines htables work).bind fun m t hm => ?_
  refine (charge_declines _ t).bind fun _ u _ => ?_
  refine (require_declines (by nofun) u).bind fun _ w hentry => ?_
  have hnull : Concludes (fun _ _ => True) Declined
      (if view.header.sectionCount = 0 then pure []
        else Inspect.view (view.range view.header.sectionOffset 64)) w := by
    split
    · exact Concludes.pure trivial
    · exact (range_declines _ _ w).mono fun _ _ _ => trivial
  refine hnull.ite_bind fun null t _ => ?_
  refine (require_declines (by nofun) t).bind fun _ u _ => ?_
  refine (sectionNames_declines htables u).bind fun names w _ => ?_
  have hsections : Concludes (fun s _ => SymbolsFrom view m.regions s.symbols) Declined
      ((List.range' 1 (view.header.sectionCount - 1)).foldlM
        (inspectSection view limits m.regions names) ⟨[], 0, 0⟩) w := by
    refine Concludes.foldlM (I := fun _ (s : Named) _ => SymbolsFrom view m.regions s.symbols)
      (fun s hs => nomatch hs) ?_
    intro done index rest s t _ h
    exact inspectSection_declines htables limits hm.ids names h index t
  refine hsections.bind fun s t hs => ?_
  have hzip : (programsOf view).zipIdx = (List.range view.header.programCount).map fun i =>
      (programAt view.bytes view.header.programOffset i, i) := zipIdx_map_range _ _
  have hregions := hm.regions
  rw [← hzip] at hregions
  -- The code segments are some of the load segments.
  have hcodes : (codeSegments (programsOf view).zipIdx).Pairwise fun e f => Apart e.1 f.1 := by
    have hsublist : ((codeSegments (programsOf view).zipIdx).map Prod.fst).Sublist
        (loadSegments (programsOf view)) := by
      have hmap := List.filter_map (f := Prod.fst) (p := fun p : ElfProgramHeader =>
        decide (p.kind = 1)) (l := (programsOf view).zipIdx)
      rw [List.zipIdx_map_fst] at hmap
      unfold loadSegments codeSegments
      rw [hmap]
      refine List.Sublist.map _ (List.monotone_filter_right _ fun e he => ?_)
      exact decide_eq_true (of_decide_eq_true he).1
    exact List.pairwise_map.mp (hm.apart.sublist hsublist)
  exact Concludes.pure ⟨rfl, hm.apart, hregions, hm.ids,
    ⟨rfl, existsUnique_holds (regions_apart hregions hcodes) hentry⟩, hs, rfl⟩

end Whale.Reverse
