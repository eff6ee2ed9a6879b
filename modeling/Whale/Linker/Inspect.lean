import Whale.Linker.Load
import Whale.Reverse.Image

set_option autoImplicit false

/-! # Inspecting what was linked

The inspector has rules of its own for executables. The executables the linker writes keep all of
them, and the one code region it finds in them is the text segment (`inspect_executable`). -/

namespace Whale.Linker

open Elf Reverse

/-! ## Reading the headers -/

section

variable {segments : List Segment} {sections : List Write} {address fileSize : Nat}

theorem behind_header {w : Write}
    (h : Ascending 64 (patchSpans sections) fileSize)
    (hw : w ∈ emitWrites segments address sections) :
    w ∈ headerWrites address segments.length ∨ 64 ≤ w.1 := by
  unfold emitWrites at hw
  rcases List.mem_append.mp hw with hw | hw
  · rcases List.mem_append.mp hw with hw | hw
    · rcases List.mem_append.mp hw with hw | hw
      · exact Or.inl hw
      · exact Or.inr ((ascending_segmentsWrites 64 segments).mem (List.mem_map_of_mem hw)).1
    · have hle := ((ascending_stackWrites (64 + segments.length * 56)).mem
        (List.mem_map_of_mem hw)).1
      exact Or.inr (Nat.le_trans (Nat.le_add_right _ _) hle)
  · exact Or.inr (h.mem (List.mem_map_of_mem hw)).1

theorem fieldAt_untouched {writes : List Write}
    (h : Ascending 0 (patchSpans writes) fileSize) (pos n : Nat)
    (hout : ∀ w ∈ writes, pos + n ≤ w.1 ∨ w.1 + w.2.length ≤ pos) :
    fieldAt (patchAll (List.replicate fileSize 0) writes) pos n = 0 := by
  have hinside : ∀ w ∈ writes, w.1 + w.2.length ≤ (List.replicate fileSize (0 : UInt8)).length := by
    intro w hw
    rw [List.length_replicate]
    exact (h.mem (List.mem_map_of_mem hw)).2
  have hzero : ∀ b ∈ slice (patchAll (List.replicate fileSize 0) writes) pos n, b = 0 := by
    intro b hb
    obtain ⟨i, hi⟩ := List.getElem?_of_mem hb
    rw [getElem?_slice] at hi
    by_cases hn : i < n
    · rw [if_pos hn, getElem?_patchAll_outside _ hinside] at hi
      · exact getElem?_replicate_zero hi
      · intro w hw
        rcases hout w hw with hle | hle
        · exact Or.inl (by omega)
        · exact Or.inr (by omega)
    · rw [if_neg hn] at hi
      cases hi
  have hvalue : ∀ bs : List UInt8, (∀ b ∈ bs, b = 0) → leValue bs = 0 := by
    intro bs hbs
    induction bs with
    | nil => rfl
    | cons b bs ih =>
      obtain ⟨hb, hbs⟩ := List.forall_mem_cons.mp hbs
      rw [leValue, ih hbs, hb]
      rfl
  exact hvalue _ hzero

end

/-- The program header of a load segment. -/
def Segment.header (s : Segment) : ElfProgramHeader where
  kind := 1
  flags := s.flags
  offset := s.offset
  virtualAddress := s.address
  physicalAddress := s.address
  fileSize := s.fileSize
  memorySize := s.memorySize
  align := pageSize

/-- The header of an executable with `segments` load segments. -/
def executableHeader (address segments : Nat) : ElfHeader where
  kind := 2
  entry := address
  programOffset := 64
  sectionOffset := 0
  programEntrySize := 56
  programCount := segments + 1
  sectionEntrySize := 0
  sectionCount := 0
  stringSection := 0

/-- The executable as its headers say. -/
structure Written (bytes : List UInt8) (address : Nat) (segments : List Segment) : Prop where
  headers : 64 + 56 * (segments.length + 1) ≤ bytes.length
  length : bytes.length < wordBound
  count : segments.length ≤ 3
  ident : slice bytes 0 16 = elfIdent
  numbers : ∀ pos n v, (pos, leBytes n v) ∈ headerWrites address segments.length → v < 256 ^ n →
    fieldAt bytes pos n = v
  zeros : ∀ pos n, pos + n ≤ 64 →
    (∀ w ∈ headerWrites address segments.length, pos + n ≤ w.1 ∨ w.1 + w.2.length ≤ pos) →
    fieldAt bytes pos n = 0
  programs : ∀ i s, segments[i]? = some s → ∀ pos n v,
    (pos, leBytes n v) ∈ segmentWrites (64 + 56 * i) s → v < 256 ^ n → fieldAt bytes pos n = v
  stack : fieldAt bytes (64 + segments.length * 56) 4 = 0x6474e551

theorem written_emit {segments : List Segment} {sections : List Write} {address fileSize : Nat}
    (h : Ascending (64 + 56 * (segments.length + 1)) (patchSpans sections) fileSize)
    (hlength : fileSize < wordBound) (hcount : segments.length ≤ 3) :
    Written (patchAll (List.replicate fileSize 0) (emitWrites segments address sections)) address
      segments := by
  have hall := ascending_emitWrites address h
  have hsections : Ascending 64 (patchSpans sections) fileSize :=
    h.mono (Nat.le_add_right _ _) (Nat.le_refl _)
  have hlen : (patchAll (List.replicate fileSize (0 : UInt8))
      (emitWrites segments address sections)).length = fileSize := by
    rw [length_patchAll]
    · exact List.length_replicate
    · intro w hw
      rw [List.length_replicate]
      exact (hall.mem (List.mem_map_of_mem hw)).2
  have hreplicate : (List.replicate fileSize (0 : UInt8)).length = fileSize :=
    List.length_replicate
  have hascending := hall
  rw [← hreplicate] at hascending
  refine ⟨?_, ?_, hcount, ?_, fun pos n v hw hv => ?_, fun pos n hpos hout => ?_,
    fun i s hs pos n v hw hv => ?_, ?_⟩
  · rw [hlen]
    exact h.le
  · rw [hlen]
    exact hlength
  · have hw : (0, elfIdent) ∈ emitWrites segments address sections :=
      mem_emitWrites (Or.inl List.mem_cons_self)
    refine List.ext_getElem? fun i => ?_
    rw [getElem?_slice]
    by_cases hi : i < 16
    · rw [if_pos hi]
      exact getElem?_patchAll _ hascending hw hi
    · rw [if_neg hi]
      exact (List.getElem?_eq_none (Nat.le_of_not_lt hi)).symm
  · exact fieldAt_emit hall pos n v (mem_emitWrites (Or.inl hw)) hv
  · refine fieldAt_untouched hall pos n fun w hw => ?_
    rcases behind_header hsections hw with hw | hle
    · exact hout w hw
    · exact Or.inl (Nat.le_trans hpos hle)
  · exact fieldAt_emit hall pos n v
      (mem_emitWrites (Or.inr (Or.inl (mem_segmentsWrites hs 64 hw)))) hv
  · exact fieldAt_emit hall _ 4 0x6474e551
      (mem_emitWrites (Or.inr (Or.inr (Or.inl (by simp [stackWrites, put32]))))) (by decide)

namespace Written

variable {bytes : List UInt8} {address : Nat} {segments : List Segment}

theorem checkIdent (h : Written bytes address segments) :
    ElfView.checkIdent bytes = .ok () := by
  have hsplit : bytes = elfIdent ++ bytes.drop 16 := by
    rw [← h.ident]
    exact (List.take_append_drop 16 bytes).symm
  rw [hsplit]
  rfl

theorem parse (h : Written bytes address segments) (haddress : address < wordBound)
    {limits : ObjectReadLimits} (hinput : bytes.length ≤ limits.maxInputBytes)
    (hprograms : segments.length + 1 ≤ limits.maxProgramHeaders) :
    ElfView.parse bytes limits = .ok ⟨bytes, executableHeader address segments.length⟩ := by
  have hcount := h.count
  have hheaders := h.headers
  have hfield : ∀ (header : ElfHeader) pos n v, pos + n ≤ 64 → fieldAt bytes pos n = v →
      (⟨bytes, header⟩ : ElfView).number n pos = .ok v := by
    rintro header pos n v hpos rfl
    exact ElfView.number_eq h.length (by show pos + n ≤ bytes.length; omega)
  have hnumber : ∀ pos n v, pos + n ≤ 64 →
      (pos, leBytes n v) ∈ headerWrites address segments.length → v < 256 ^ n →
      ∀ header, (⟨bytes, header⟩ : ElfView).number n pos = .ok v :=
    fun pos n v hpos hw hv header => hfield header pos n v hpos (h.numbers pos n v hw hv)
  have hzero : ∀ pos n, pos + n ≤ 64 →
      (∀ w ∈ headerWrites address segments.length, pos + n ≤ w.1 ∨ w.1 + w.2.length ≤ pos) →
      ∀ header, (⟨bytes, header⟩ : ElfView).number n pos = .ok 0 :=
    fun pos n hpos hout header => hfield header pos n 0 hpos (h.zeros pos n hpos hout)
  -- The header's fields in the order of the file.
  have hkind := hnumber 16 2 2 (by decide) (by simp [headerWrites, put16]) (by decide)
  have hmachine := hnumber 18 2 62 (by decide) (by simp [headerWrites, put16]) (by decide)
  have hversion := hnumber 20 4 1 (by decide) (by simp [headerWrites, put32]) (by decide)
  have hentry := hnumber 24 8 address (by decide) (by simp [headerWrites, put64]) haddress
  have hprogram := hnumber 32 8 64 (by decide) (by simp [headerWrites, put64]) (by decide)
  have hsize := hnumber 52 2 64 (by decide) (by simp [headerWrites, put16]) (by decide)
  have hstride := hnumber 54 2 56 (by decide) (by simp [headerWrites, put16]) (by decide)
  have hmod : (segments.length + 1) % 2 ^ 16 = segments.length + 1 := Nat.mod_eq_of_lt (by omega)
  have hprogramCount := hnumber 56 2 ((segments.length + 1) % 2 ^ 16) (by decide)
    (by simp [headerWrites, put16]) (Nat.mod_lt _ (by decide))
  rw [hmod] at hprogramCount
  -- The fields that the linker leaves at zero.
  have hout : ∀ pos n, 40 ≤ pos ∧ pos + n ≤ 52 ∨ 58 ≤ pos ∧ pos + n ≤ 64 →
      ∀ w ∈ headerWrites address segments.length, pos + n ≤ w.1 ∨ w.1 + w.2.length ≤ pos := by
    intro pos n hpos w hw
    simp only [headerWrites, put16, put32, put64, List.mem_cons, List.not_mem_nil, or_false] at hw
    rcases hw with rfl | rfl | rfl | rfl | rfl | rfl | rfl | rfl | rfl <;>
      simp only [length_leBytes, elfIdent, List.length_cons, List.length_nil] <;> omega
  have hsectionOffset := hzero 40 8 (by decide) (hout 40 8 (by decide))
  have hflags := hzero 48 4 (by decide) (hout 48 4 (by decide))
  have hsectionSize := hzero 58 2 (by decide) (hout 58 2 (by decide))
  have hsectionCount := hzero 60 2 (by decide) (hout 60 2 (by decide))
  have hstrings := hzero 62 2 (by decide) (hout 62 2 (by decide))
  have hheader : ∀ header, ElfView.readHeader ⟨bytes, header⟩ =
      .ok (executableHeader address segments.length) := by
    intro header
    simp only [ElfView.readHeader, ElfView.u16, ElfView.u64, hkind, hentry, hprogram,
      hsectionOffset, hstride, hprogramCount, hsectionSize, hsectionCount, hstrings, ok_bind]
    rfl
  have htables : ElfView.checkTables ⟨bytes, executableHeader address segments.length⟩ limits =
      .ok () := by
    have htable : ElfView.table ⟨bytes, executableHeader address segments.length⟩ 64
        (segments.length + 1) 56 = .ok () :=
      ElfView.table_eq h.length (by show 64 + (segments.length + 1) * 56 ≤ bytes.length; omega)
    have hnumbering : ¬ (0 ≥ 0xff00 ∨ segments.length + 1 = 0xffff ∨ 0 = 0xffff ∨
        0 = 0 ∧ 0 ≠ 0) := by
      omega
    unfold ElfView.checkTables
    refine require_then_ok_iff.mpr ⟨hnumbering, ?_⟩
    refine require_then_ok_iff.mpr ⟨Nat.zero_le _, ?_⟩
    refine require_then_ok_iff.mpr ⟨hprograms, ?_⟩
    refine require_then_ok_iff.mpr ⟨rfl, ?_⟩
    exact require_then_ok_iff.mpr ⟨rfl, htable⟩
  unfold ElfView.parse
  rw [require_of hinput, ok_bind, require_of (by omega), ok_bind, h.checkIdent, ok_bind]
  simp only [ElfView.u16, ElfView.u32, hmachine, hversion, hflags, hsize, ok_bind, hheader,
    require_of]
  rw [htables]
  rfl

/-- The inspector reads the program header that was written for a segment. -/
theorem program (h : Written bytes address segments) {i : Nat} {s : Segment}
    (hs : segments[i]? = some s)
    (hbound : s.flags < 2 ^ 32 ∧ s.offset < 2 ^ 64 ∧ s.address < 2 ^ 64 ∧ s.fileSize < 2 ^ 64 ∧
      s.memorySize < 2 ^ 64) :
    ElfView.program ⟨bytes, executableHeader address segments.length⟩ i = .ok s.header := by
  obtain ⟨hflags, hoffset, haddress, hfile, hmemory⟩ := hbound
  have hlt : i < segments.length := (List.getElem?_eq_some_iff.mp hs).1
  have hheaders := h.headers
  have hpos : 64 + 56 * i = 64 + i * 56 := by omega
  have h32 : ∀ pos v, v < 2 ^ 32 → put32 pos v ∈ segmentWrites (64 + i * 56) s →
      leValue (slice bytes pos 4) = v :=
    fun pos v hv hw => h.programs i s hs pos 4 v (hpos ▸ hw) hv
  have h64 : ∀ pos v, v < 2 ^ 64 → put64 pos v ∈ segmentWrites (64 + i * 56) s →
      leValue (slice bytes pos 8) = v :=
    fun pos v hv hw => h.programs i s hs pos 8 v (hpos ▸ hw) hv
  have hread := @ElfView.program_eq ⟨bytes, executableHeader address segments.length⟩ h.length i
    (Nat.lt_succ_of_lt hlt) (by show 64 + (i * 56 + 56) ≤ bytes.length; omega)
  rw [hread]
  simp only [executableHeader, Segment.header]
  rw [h32 _ 1 (by decide) (by simp [segmentWrites]),
    h32 _ s.flags hflags (by simp [segmentWrites]),
    h64 _ s.offset hoffset (by simp [segmentWrites]),
    h64 (64 + i * 56 + 16) s.address haddress (by simp [segmentWrites]),
    h64 (64 + i * 56 + 24) s.address haddress (by simp [segmentWrites]),
    h64 _ s.fileSize hfile (by simp [segmentWrites]),
    h64 _ s.memorySize hmemory (by simp [segmentWrites]),
    h64 _ pageSize (by decide) (by simp [segmentWrites])]

theorem stackProgram (h : Written bytes address segments) :
    ∃ p, ElfView.program ⟨bytes, executableHeader address segments.length⟩ segments.length =
      .ok p ∧ p.kind = 0x6474e551 := by
  have hheaders := h.headers
  have hread := @ElfView.program_eq ⟨bytes, executableHeader address segments.length⟩ h.length
    segments.length (Nat.lt_succ_self _)
    (by show 64 + (segments.length * 56 + 56) ≤ bytes.length; omega)
  exact ⟨_, hread, h.stack⟩

end Written

/-! ## Mapping the segments -/

/-- The virtual range of a segment. -/
def Segment.range (s : Segment) : Nat × Nat := (s.address, s.address + s.memorySize)

/-- What the inspector demands of a load segment. -/
structure Segment.Loadable (s : Segment) (bytes : List UInt8) : Prop where
  address : s.address = imageBase + s.offset
  page : pageSize ∣ s.offset
  size : s.fileSize ≤ s.memorySize
  inside : s.offset + s.fileSize ≤ bytes.length
  space : s.address + s.memorySize ≤ userEnd
  flags : s.flags < 8

section

variable {view : ElfView} (hlength : view.bytes.length < wordBound)

include hlength

/-- A segment behind all the mapped ones is mapped. -/
theorem mapProgram_segment {s : Segment} (hs : s.Loadable view.bytes) {i : Nat}
    (hprogram : view.program i = .ok s.header) {m : Mapped}
    (hbehind : ∀ range ∈ m.mappings, range.2 ≤ s.address) {work : Nat}
    (hwork : m.mappings.length + 1 ≤ work) :
    mapProgram view m i work = .ok
      { mappings := m.mappings ++ [s.range]
        regions := if s.flags % 2 = 1 ∧ s.fileSize ≠ 0 then m.regions ++
            [{ id := m.regions.length, «section» := none, name := s!"PT_LOAD[{i}]"
               fileOffset := s.offset, address := s.address
               bytes := slice view.bytes s.offset s.fileSize }]
          else m.regions } (work - (m.mappings.length + 1)) := by
  obtain ⟨haddress, ⟨page, hpage⟩, hsize, hinside, hspace, hflags⟩ := hs
  have huser : userEnd < wordBound := by decide
  have hvalid : validLoad s.header := by
    refine ⟨hsize, hflags, Or.inr ⟨isPowerOfTwo_iff.mpr ⟨12, rfl⟩, ?_⟩⟩
    show s.offset % pageSize = s.address % pageSize
    have hbase : imageBase = pageSize * 1024 := by decide
    rw [haddress, hpage, hbase, Nat.mul_mod_right, ← Nat.mul_add, Nat.mul_mod_right]
  have hdisjoint : ∀ range ∈ m.mappings,
      ¬ (s.address < range.2 ∧ range.1 < s.address + s.memorySize) := fun range hrange hboth =>
    Nat.not_le_of_lt hboth.1 (hbehind range hrange)
  have hbytes : view.range s.offset s.fileSize = .ok (slice view.bytes s.offset s.fileSize) :=
    ElfView.range_eq hlength hinside
  have hempty : slice view.bytes s.offset s.fileSize ≠ [] ↔ s.fileSize ≠ 0 := by
    rw [← List.length_pos_iff, length_slice hinside, Nat.pos_iff_ne_zero]
  have hload : loadBytes view s.header (work - 1) =
      .ok (slice view.bytes s.offset s.fileSize) (work - 1) := by
    unfold loadBytes
    by_cases hzero : s.header.fileSize = 0
    · rw [if_pos hzero, not_not.mp fun h => hempty.mp h hzero]
      rfl
    · rw [if_neg hzero]
      exact view_run hbytes _
  have hleft : work - (m.mappings.length + 1) = work - 1 - m.mappings.length := by omega
  unfold mapProgram
  -- The checks in the order of the source.
  refine bind_run_ok_iff.mpr ⟨(), _, Reverse.charge_run (by omega), ?_⟩
  refine bind_run_ok_iff.mpr ⟨_, _, view_run hprogram _, ?_⟩
  have hkind : s.header.kind ≠ 2 ∧ s.header.kind ≠ 3 := by
    show 1 ≠ 2 ∧ 1 ≠ 3
    decide
  refine require_bind_ok_iff.mpr ⟨hkind, ?_⟩
  show ((require (validLoad s.header) ImageIssue.loadHeader : Inspect Unit) >>= _) (work - 1) = _
  refine require_bind_ok_iff.mpr ⟨hvalid, ?_⟩
  refine orThrow_bind_ok_iff.mpr ⟨_, checkedAdd_eq_some.mpr ⟨rfl, ?_⟩, ?_⟩
  · show s.address + s.memorySize < wordBound
    omega
  refine bind_run_ok_iff.mpr ⟨_, _, hload, ?_⟩
  refine bind_run_ok_iff.mpr ⟨(), _, Reverse.charge_run (by omega), ?_⟩
  refine require_bind_ok_iff.mpr ⟨hdisjoint, ?_⟩
  rw [hleft]
  show (if s.flags % 2 = 1 ∧ slice view.bytes s.offset s.fileSize ≠ [] then
    (pure _ : Inspect Mapped) else pure _) _ = _
  by_cases hcode : s.flags % 2 = 1 ∧ s.fileSize ≠ 0
  · rw [if_pos (hcode.imp_right hempty.mpr), if_pos hcode]
    rfl
  · rw [if_neg fun h => hcode (h.imp_right hempty.mp), if_neg hcode]
    rfl

/-- Segments without code only add their ranges. -/
theorem mapProgram_data {segments : List Segment}
    (hs : ∀ s ∈ segments, s.Loadable view.bytes ∧ s.flags % 2 = 0)
    (hpair : segments.Pairwise fun s t => s.address + s.memorySize ≤ t.address) {i : Nat}
    (hprogram : ∀ j s, segments[j]? = some s → view.program (i + j) = .ok s.header) {m : Mapped}
    (hbehind : ∀ range ∈ m.mappings, ∀ s ∈ segments, range.2 ≤ s.address) {work : Nat}
    (hwork : segments.length * (m.mappings.length + segments.length) ≤ work) :
    ∃ work', (List.range' i segments.length).foldlM (mapProgram view) m work =
        .ok ⟨m.regions, m.mappings ++ segments.map Segment.range⟩ work' ∧
      work ≤ work' + segments.length * (m.mappings.length + segments.length) := by
  induction segments generalizing i m work with
  | nil =>
    refine ⟨work, ?_, Nat.le_add_right _ _⟩
    rw [List.map_nil, List.append_nil]
    rfl
  | cons s segments ih =>
    obtain ⟨⟨hload, heven⟩, hrest⟩ := List.forall_mem_cons.mp hs
    obtain ⟨hnext, hpair⟩ := List.pairwise_cons.mp hpair
    rw [List.length_cons, Nat.succ_mul] at hwork
    have hfirst : m.mappings.length + 1 ≤ work := by omega
    have hhead : view.program i = .ok s.header := hprogram 0 s rfl
    have hstep := mapProgram_segment hlength hload hhead
      (fun range hrange => hbehind range hrange s List.mem_cons_self) hfirst
    rw [if_neg fun h => by omega] at hstep
    have hmul : segments.length * (m.mappings.length + 1 + segments.length) =
        segments.length * (m.mappings.length + (segments.length + 1)) :=
      congrArg _ (by omega)
    have hprograms : ∀ j t, segments[j]? = some t → view.program (i + 1 + j) = .ok t.header := by
      intro j t ht
      rw [Nat.add_assoc, Nat.add_comm 1]
      exact hprogram (j + 1) t ht
    have hranges : ∀ range ∈ m.mappings ++ [s.range], ∀ t ∈ segments, range.2 ≤ t.address := by
      intro range hrange t ht
      rcases List.mem_append.mp hrange with hrange | hrange
      · exact hbehind range hrange t (List.mem_cons_of_mem _ ht)
      · rw [List.mem_singleton.mp hrange]
        exact hnext t ht
    have hleft : segments.length * ((m.mappings ++ [s.range]).length + segments.length) ≤
        work - (m.mappings.length + 1) := by
      rw [List.length_append, List.length_singleton]
      omega
    obtain ⟨work', hrun, hle⟩ :=
      ih hrest hpair (m := ⟨m.regions, m.mappings ++ [s.range]⟩) hprograms hranges hleft
    rw [List.length_append, List.length_singleton] at hle
    refine ⟨work', ?_, by rw [List.length_cons, Nat.succ_mul]; omega⟩
    rw [List.length_cons, List.range'_succ, List.foldlM_cons, bind_run_ok hstep, hrun,
      List.map_cons, List.append_assoc]
    rfl

end

/-! ## The image -/

/-- The one code region of an executable with a text segment. -/
def codeRegion (bytes : List UInt8) (text : Segment) : CodeRegion where
  id := 0
  «section» := none
  name := "PT_LOAD[0]"
  fileOffset := text.offset
  address := text.address
  bytes := slice bytes text.offset text.fileSize

/-- The limits are no lower than what an executable with three segments needs. -/
structure Suffices (limits : ObjectReadLimits) (bytes : List UInt8) : Prop where
  input : bytes.length ≤ limits.maxInputBytes
  programs : 4 ≤ limits.maxProgramHeaders
  work : 9 ≤ limits.maxWork

/-- Load segments one behind the other, of which only the first has code. -/
structure CodeFirst (bytes : List UInt8) (text : Segment) (segments : List Segment) : Prop where
  loadable : ∀ s ∈ text :: segments, s.Loadable bytes
  ascending : (text :: segments).Pairwise fun s t => s.address + s.memorySize ≤ t.address
  code : text.flags % 2 = 1
  data : ∀ s ∈ segments, s.flags % 2 = 0
  file : 0 < text.fileSize

section

variable {bytes : List UInt8} {address : Nat} {text : Segment} {segments : List Segment}

theorem mapProgram_stack (h : Written bytes address segments) (m : Mapped) {work : Nat}
    (hwork : 1 ≤ work) :
    mapProgram ⟨bytes, executableHeader address segments.length⟩ m segments.length work =
      .ok m (work - 1) := by
  obtain ⟨p, hp, hkind⟩ := h.stackProgram
  have hstack : p.kind ≠ 2 ∧ p.kind ≠ 3 := by
    rw [hkind]
    decide
  unfold mapProgram
  refine bind_run_ok_iff.mpr ⟨(), _, Reverse.charge_run hwork, ?_⟩
  refine bind_run_ok_iff.mpr ⟨_, _, view_run hp _, ?_⟩
  refine require_bind_ok_iff.mpr ⟨hstack, ?_⟩
  rw [if_pos (by rw [hkind]; decide)]
  rfl

theorem mapPrograms_written (h : Written bytes address (text :: segments))
    (hs : CodeFirst bytes text segments) {work : Nat} (hwork : 9 ≤ work) :
    ∃ mappings left, 1 ≤ left ∧ (List.range (segments.length + 1 + 1)).foldlM
        (mapProgram ⟨bytes, executableHeader address (text :: segments).length⟩) ⟨[], []⟩ work =
      .ok ⟨[codeRegion bytes text], mappings⟩ left := by
  let view : ElfView := ⟨bytes, executableHeader address (text :: segments).length⟩
  have huser : userEnd < 2 ^ 64 := by decide
  have hlength : view.bytes.length < wordBound := h.length
  obtain ⟨htext, hrest⟩ := List.forall_mem_cons.mp hs.loadable
  obtain ⟨hbehind, hpair⟩ := List.pairwise_cons.mp hs.ascending
  have hprogram : ∀ j s, (text :: segments)[j]? = some s → view.program j = .ok s.header := by
    intro j s hget
    obtain ⟨haddr, -, hsize, hinside, hspace, hflags⟩ := hs.loadable s (List.mem_of_getElem? hget)
    exact h.program hget ⟨by omega, by omega, by omega, by omega, by omega⟩
  have hfirst : mapProgram view ⟨[], []⟩ 0 work =
      .ok ⟨[codeRegion bytes text], [text.range]⟩ (work - 1) := by
    have hspend : ([] : List (Nat × Nat)).length + 1 ≤ work := by
      show 0 + 1 ≤ work
      omega
    rw [mapProgram_segment hlength htext (hprogram 0 text rfl) (m := ⟨[], []⟩)
      (fun _ hrange => absurd hrange List.not_mem_nil) hspend,
      if_pos ⟨hs.code, Nat.ne_of_gt hs.file⟩]
    rfl
  have hcost : segments.length * (1 + segments.length) ≤ 6 := by
    have hcount : segments.length + 1 ≤ 3 := h.count
    calc segments.length * (1 + segments.length)
        ≤ 2 * (1 + 2) := Nat.mul_le_mul (by omega) (by omega)
      _ = 6 := rfl
  have hdataProgram : ∀ j s, segments[j]? = some s → view.program (1 + j) = .ok s.header := by
    intro j s hget
    rw [Nat.add_comm]
    exact hprogram (j + 1) s hget
  have hbehindText : ∀ range ∈ [text.range], ∀ s ∈ segments, range.2 ≤ s.address := by
    intro range hrange s hs
    rw [List.mem_singleton.mp hrange]
    exact hbehind s hs
  have hspend : segments.length * ([text.range].length + segments.length) ≤ work - 1 := by
    show segments.length * (1 + segments.length) ≤ _
    omega
  obtain ⟨left, hrun, hleft⟩ := mapProgram_data hlength
    (fun s hmem => ⟨hrest s hmem, hs.data s hmem⟩) hpair hdataProgram
    (m := ⟨[codeRegion bytes text], [text.range]⟩) hbehindText hspend
  have hleft : work - 1 ≤ left + segments.length * (1 + segments.length) := hleft
  refine ⟨[text.range] ++ segments.map Segment.range, left - 1, by omega, ?_⟩
  rw [List.range_succ, List.foldlM_append, List.range_eq_range', List.range'_succ,
    List.foldlM_cons]
  refine bind_run_ok_iff.mpr ⟨_, _, bind_run_ok_iff.mpr ⟨_, _, hfirst, hrun⟩, ?_⟩
  exact bind_run_ok_iff.mpr ⟨_, _, mapProgram_stack h _ (by omega), rfl⟩

theorem elf_written (h : Written bytes address (text :: segments))
    (hs : CodeFirst bytes text segments)
    (hentry : text.address ≤ address ∧ address - text.address < text.fileSize)
    {limits : ObjectReadLimits} (hlimits : Suffices limits bytes) :
    Image.elf bytes limits = .ok
      { kind := "elf64-amd64-executable", entry := some address
        regions := [codeRegion bytes text], symbols := [], relocations := [] } := by
  have htext := hs.loadable text List.mem_cons_self
  have haddress : address < wordBound := by
    have huser : userEnd < wordBound := by decide
    have hspace := htext.space
    have hsize := htext.size
    omega
  have hprograms : segments.length + 1 + 1 ≤ limits.maxProgramHeaders := by
    have hcount : segments.length + 1 ≤ 3 := h.count
    have hprograms := hlimits.programs
    omega
  obtain ⟨mappings, left, hleft, hfold⟩ := mapPrograms_written h hs hlimits.work
  have hholds : ∃ r ∈ [codeRegion bytes text], r.holds address := by
    refine ⟨_, List.mem_singleton_self _, hentry.1, ?_⟩
    show address - text.address < (slice bytes text.offset text.fileSize).length
    rw [length_slice htext.inside]
    exact hentry.2
  have hexecutable : executable ⟨bytes, executableHeader address (text :: segments).length⟩ limits
      limits.maxWork = .ok
        { kind := "elf64-amd64-executable", entry := some address
          regions := [codeRegion bytes text], symbols := [], relocations := [] } (left - 1) := by
    unfold executable
    refine bind_run_ok_iff.mpr ⟨_, _, hfold, ?_⟩
    refine bind_run_ok_iff.mpr ⟨(), _, Reverse.charge_run hleft, ?_⟩
    exact require_bind_ok_iff.mpr ⟨hholds, rfl⟩
  unfold Image.elf
  rw [mapError_ok_iff.mpr (h.parse haddress hlimits.input hprograms), ok_bind]
  simp only
  rw [hexecutable]
  rfl

end

/-! ## Executables -/

section

variable {r : Runs} {objects : List ObjectFile} {maxBytes : Nat} {layout : Layout}
  {payloads : Payloads} {address : Nat} {bytes : List UInt8}

theorem emit_written (hr : r.Describes objects maxBytes layout) (hfit : payloads.Fit objects)
    (h : emit layout (r.segments objects) address payloads = .ok bytes) :
    Written bytes address (r.segments objects) := by
  unfold emit at h
  obtain ⟨sections, hsections, h⟩ := bind_ok_iff.mp h
  cases h
  obtain ⟨hspans, -⟩ := payloadWrites_spec hfit (fun p hp => hr.of_placement hp) hsections
  refine written_emit ?_ ?_ ?_
  · rw [hspans, ← headerSize_eq objects r]
    exact hr.file_ascending
  · have huser : userEnd < wordBound := by decide
    have hspace := hr.space
    have hbss := hr.bssAscending.le
    rw [hr.fileSize]
    omega
  · unfold Runs.segments
    split <;> split <;> simp

theorem segments_eq : r.segments objects = r.textSegment :: (r.segments objects).tail := rfl

/-- Only the text segment has code. -/
theorem data_segment {s : Segment} (hs : s ∈ (r.segments objects).tail) : s.flags % 2 = 0 := by
  unfold Runs.segments at hs
  rcases List.mem_append.mp hs with hs | hs
  · split at hs
    · rw [List.mem_singleton.mp hs]
      show 4 % 2 = 0
      rfl
    · cases hs
  · split at hs
    · rw [List.mem_singleton.mp hs]
      show 6 % 2 = 0
      rfl
    · cases hs

theorem code_segment {s : Segment} (hs : s ∈ r.segments objects) :
    s.flags % 2 = 1 ↔ s = r.textSegment := by
  rw [segments_eq] at hs
  rcases List.mem_cons.mp hs with rfl | hs
  · exact iff_of_true (show 5 % 2 = 1 from rfl) rfl
  · have heven := data_segment hs
    refine ⟨fun hodd => by omega, fun heq => ?_⟩
    rw [heq]
    show 5 % 2 = 1
    rfl

/-- A text section lies in the text segment, with its bytes in the file. -/
theorem text_inside (hr : r.Describes objects maxBytes layout) {oi si : Nat} {s : Section}
    (hs : sectionAt objects oi si = some s) (hkind : s.kind = .text) {base : Nat}
    (hbase : layout.address oi si = some base) :
    ∃ p ∈ layout.sections, p.key = (oi, si) ∧ p.kind = .text ∧ base = imageBase + p.fileOffset ∧
      p.memorySize = s.data.length ∧ p.fileOffset + p.memorySize ≤ r.textSegment.fileSize := by
  obtain ⟨p, hp, hof⟩ := hr.placement hs
  have hkey : p.objectIndex = oi ∧ p.sectionIndex = si := Prod.mk.inj hof.key
  have haddr := hr.address hp
  rw [hkey.1, hkey.2, hbase, Option.some.injEq] at haddr
  have htext : p.kind = .text := hof.kind.trans hkind
  obtain ⟨seg, hseg, hflags, -, -, hfile, -⟩ := hr.segment_of hp
  have hle := hfile (by rw [htext]; decide)
  rw [htext] at hflags
  have hsegment : seg = r.textSegment := by
    refine (code_segment hseg).mp ?_
    rw [hflags]
    rfl
  rw [hsegment, show r.textSegment.offset = 0 from rfl, Nat.zero_add] at hle
  refine ⟨p, hp, hof.key, htext, haddr.trans hof.address, ?_, hle⟩
  exact memorySize_data hof.size (by rw [hkind]; decide)

end

/-- What the inspector finds in the executable: the entry, and one code region that is the text
segment, with every text section as relocation left it at its address. -/
structure InspectsAs (objects : List ObjectFile) (layout : Layout) (segments : List Segment)
    (payloads : Payloads) (address : Nat) (bytes : List UInt8) (image : Image) : Prop where
  entry : image.entry = some address
  region : ∃ region text, image.regions = [region] ∧ text ∈ segments ∧
    (∀ s ∈ segments, s.flags % 2 = 1 ↔ s = text) ∧ region.address = text.address ∧
    region.fileOffset = text.offset ∧ region.bytes = slice bytes text.offset text.fileSize ∧
    region.bytes.length = text.fileSize ∧
    ∀ oi si s base payload, sectionAt objects oi si = some s → s.kind = .text →
      layout.address oi si = some base → payloads.at? oi si = some payload →
      region.address ≤ base ∧ payload.length = s.data.length ∧
        slice region.bytes (base - region.address) payload.length = payload

/-- The inspector accepts every executable the linker writes. -/
theorem inspect_executable (objects : List ObjectFile) (entry : String) (maxBytes : Nat)
    (bytes : List UInt8) (h : writeExecutable objects entry maxBytes = .ok bytes) :
    ∃ symbols layout segments payloads,
      resolve objects = .ok symbols ∧
      executableLayout objects maxBytes = .ok (layout, segments) ∧
      applyRelocations objects layout maxBytes = .ok payloads ∧
      ∃ symbol owner sectionIndex base,
        symbols.symbols.get (.global entry) = some symbol ∧ symbol.objectIndex = some owner ∧
        symbol.sectionIndex = some sectionIndex ∧ layout.address owner sectionIndex = some base ∧
        ∀ limits, Suffices limits bytes → ∃ image, Image.elf bytes limits = .ok image ∧
          InspectsAs objects layout segments payloads (base + symbol.value.toNat) bytes image := by
  obtain ⟨symbols, layout, r, payloads, address, hw⟩ := writeExecutable_writing h
  obtain ⟨symbol, owner, sectionIndex, base, hsymbol, howner, hsection, hbase, rfl, source, hsource,
    hkind, hvalue⟩ := hw.entry
  have hr := hw.runs
  have hwritten := emit_written hr hw.fit hw.emitted
  obtain ⟨-, hemitted⟩ := emit_spec hr hw.fit hw.bound hw.emitted
  have htext : r.textSegment ∈ r.segments objects := List.mem_cons_self
  have hload : ∀ s ∈ r.segments objects, s.Loadable bytes := by
    intro s hs
    obtain ⟨haddress, hpage, hsize, hinside, hspace, hflags⟩ := hr.loadable hs
    exact ⟨haddress, hpage, hsize, hemitted.length.symm ▸ hinside, hspace, hflags⟩
  have hentry : r.textSegment.address ≤ base + symbol.value.toNat ∧
      base + symbol.value.toNat - r.textSegment.address < r.textSegment.fileSize := by
    obtain ⟨p, -, -, -, hbase, hsize, hle⟩ := text_inside hr hsource hkind hbase
    show imageBase + 0 ≤ _ ∧ _ - (imageBase + 0) < _
    omega
  have hfirst : CodeFirst bytes r.textSegment (r.segments objects).tail :=
    ⟨hload, hr.segments_pairwise, (code_segment htext).mpr rfl, fun s hs => data_segment hs,
      Nat.lt_of_le_of_lt (Nat.zero_le _) hentry.2⟩
  refine ⟨symbols, layout, r.segments objects, payloads, hw.resolved, hw.laidOut, hw.relocated,
    symbol, owner, sectionIndex, base, hsymbol, howner, hsection, hbase, fun limits hlimits => ?_⟩
  refine ⟨_, elf_written hwritten hfirst hentry hlimits, rfl, codeRegion bytes r.textSegment,
    r.textSegment, rfl, htext, fun s hs => code_segment hs, rfl, rfl, rfl, ?_, ?_⟩
  · exact length_slice (hload _ htext).inside
  · intro oi si s base payload hs hkind hbase hpayload
    obtain ⟨p, hp, hkey, hpkind, rfl, hsize, hle⟩ := text_inside hr hs hkind hbase
    obtain ⟨payload', hpayload', hfit⟩ := hw.fit oi si s hs
    rw [hpayload, Option.some.injEq] at hpayload'
    subst hpayload'
    obtain ⟨rfl, rfl⟩ := Prod.mk.inj hkey
    have hbytes := hemitted.payload p hp (by rw [hpkind]; decide) payload hpayload
    refine ⟨Nat.le_add_right imageBase _, hfit, List.ext_getElem? fun i => ?_⟩
    show (slice (slice bytes 0 r.textSegment.fileSize) (imageBase + p.fileOffset - (imageBase + 0))
      payload.length)[i]? = payload[i]?
    rw [Nat.add_zero, Nat.add_sub_cancel_left, getElem?_slice, getElem?_slice]
    by_cases hi : i < payload.length
    · rw [if_pos hi, if_pos (by omega), Nat.zero_add]
      exact hbytes i hi
    · rw [if_neg hi, List.getElem?_eq_none (Nat.le_of_not_lt hi)]

theorem inspect_executable_exitProgram :
    ∃ bytes image, writeExecutable [exitProgram] "_start" 65536 = .ok bytes ∧
      Image.elf bytes ObjectReadLimits.default = .ok image ∧ image.regions.length = 1 := by
  have hlength : (writeExecutable [exitProgram] "_start" 65536).toOption.map List.length =
      some 188 := by
    decide +kernel
  cases h : writeExecutable [exitProgram] "_start" 65536 with
  | error e =>
    rw [h] at hlength
    cases hlength
  | ok bytes =>
    rw [h] at hlength
    have hbytes : bytes.length = 188 := Option.some_inj.mp hlength
    obtain ⟨_, _, _, _, -, -, -, _, _, _, _, -, -, -, -, himage⟩ :=
      inspect_executable [exitProgram] "_start" 65536 bytes h
    obtain ⟨image, hrun, hinspects⟩ := himage ObjectReadLimits.default
      ⟨by rw [hbytes]; decide, by decide, by decide⟩
    obtain ⟨_, _, hregions, -⟩ := hinspects.region
    exact ⟨bytes, image, rfl, hrun, by rw [hregions]; rfl⟩

end Whale.Linker
