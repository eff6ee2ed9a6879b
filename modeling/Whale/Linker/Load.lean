import Mathlib.Data.List.Pairwise
import Whale.Linker.Link
import Whale.Linker.RelocationSpec

set_option autoImplicit false

/-! # Loading what was linked

A loader maps the load segments its program headers name: it copies the bytes in the file and
fills the rest with zeros. Loading an executable the linker wrote puts every section, as
relocation left it, at the address the layout gave it (`link_loads`). -/

namespace Whale.Linker

/-! ## The loader -/

/-- The little-endian number of `n` bytes at `pos`. -/
def fieldAt (bytes : List UInt8) (pos n : Nat) : Nat := leValue (slice bytes pos n)

/-- The entry address in the header. -/
def entryOf (bytes : List UInt8) : Nat := fieldAt bytes 24 8

/-- The program header at `pos`, if it is that of a load segment. -/
def loadSegment (bytes : List UInt8) (pos : Nat) : Option Segment :=
  if fieldAt bytes pos 4 = 1 then
    some
      { flags := fieldAt bytes (pos + 4) 4
        offset := fieldAt bytes (pos + 8) 8
        address := fieldAt bytes (pos + 16) 8
        fileSize := fieldAt bytes (pos + 32) 8
        memorySize := fieldAt bytes (pos + 40) 8 }
  else none

/-- The load segments of an executable. -/
def loadSegments (bytes : List UInt8) : List Segment :=
  (List.range (fieldAt bytes 56 2)).filterMap fun i =>
    loadSegment bytes (fieldAt bytes 32 8 + i * fieldAt bytes 54 2)

def Segment.contains (s : Segment) (address : Nat) : Bool :=
  s.address ≤ address && address < s.address + s.memorySize

/-- The byte at an address of the loaded program, and what may be done with it. -/
def imageByte (bytes : List UInt8) (address : Nat) : Option (UInt8 × Nat) :=
  match (loadSegments bytes).find? (·.contains address) with
  | none => none
  | some s =>
      if address - s.address < s.fileSize then
        (bytes[s.offset + (address - s.address)]?).map (·, s.flags)
      else some (0, s.flags)

/-- What a section holds when the program starts. -/
def sectionImage (s : Section) (payload : List UInt8) : List UInt8 :=
  if s.kind = .bss then List.replicate (s.data.length + s.zeroFill.toNat) 0 else payload

/-- `address` is where the section of the objects is, and `image` what it holds. -/
structure Placed (objects : List ObjectFile) (layout : Layout) (payloads : Payloads)
    (oi si : Nat) (s : Section) (address : Nat) (image : List UInt8) : Prop where
  section_ : sectionAt objects oi si = some s
  address : layout.address oi si = some address
  image : ∃ payload, payloads.at? oi si = some payload ∧ payload.length = s.data.length ∧
    image = sectionImage s payload

/-- The executable `bytes`, once loaded, is what the layout and the relocated payloads say. -/
structure LoadsAsLaidOut (objects : List ObjectFile) (layout : Layout) (payloads : Payloads)
    (bytes : List UInt8) : Prop where
  /-- Every section has its place. -/
  placed : ∀ oi si s, sectionAt objects oi si = some s →
    ∃ address image, Placed objects layout payloads oi si s address image
  /-- Its bytes are there, with the permissions of its kind. -/
  loaded : ∀ oi si s address image, Placed objects layout payloads oi si s address image →
    ∀ i b, image[i]? = some b → imageByte bytes (address + i) = some (b, permission s.kind)
  /-- No section overlaps the headers or another section. -/
  headers : ∀ oi si s address image, Placed objects layout payloads oi si s address image →
    imageBase + headerSize objects ≤ address
  disjoint : ∀ oi si s address image oi' si' s' address' image',
    Placed objects layout payloads oi si s address image →
    Placed objects layout payloads oi' si' s' address' image' → (oi, si) ≠ (oi', si') →
      address + image.length ≤ address' ∨ address' + image'.length ≤ address
  /-- The segments follow one another, each on pages of its own. -/
  segments : (loadSegments bytes).Pairwise fun s t => s.address + s.memorySize ≤ t.address
  pages : ∀ s ∈ loadSegments bytes, pageSize ∣ s.address ∧ pageSize ∣ s.offset ∧
    s.fileSize ≤ s.memorySize ∧ s.offset + s.fileSize ≤ bytes.length ∧
    s.address + s.memorySize ≤ userEnd

/-! ## Writing and reading the headers -/

theorem ascending_headerWrites (address segments : Nat) :
    Ascending 0 (patchSpans (headerWrites address segments)) 64 := by
  simp [headerWrites, patchSpans, put16, put32, put64, Ascending, elfIdent]

theorem ascending_segmentWrites (pos : Nat) (s : Segment) :
    Ascending pos (patchSpans (segmentWrites pos s)) (pos + 56) := by
  simp [segmentWrites, patchSpans, put32, put64, Ascending]

theorem ascending_segmentsWrites (pos : Nat) (segments : List Segment) :
    Ascending pos (patchSpans (segmentsWrites pos segments)) (pos + 56 * segments.length) := by
  induction segments generalizing pos with
  | nil => exact le_rfl
  | cons s segments ih =>
      have hrest := ih (pos + 56)
      have hlen : pos + 56 + 56 * segments.length = pos + 56 * (s :: segments).length := by
        rw [List.length_cons]
        omega
      rw [hlen] at hrest
      unfold segmentsWrites patchSpans
      rw [List.map_append]
      exact (ascending_segmentWrites pos s).append hrest

theorem ascending_stackWrites (pos : Nat) :
    Ascending pos (patchSpans (stackWrites pos)) (pos + 56) := by
  simp [stackWrites, patchSpans, put32, put64, Ascending]

theorem mem_segmentsWrites {segments : List Segment} {i : Nat} {s : Segment}
    (hs : segments[i]? = some s) (pos : Nat) {w : Write}
    (hw : w ∈ segmentWrites (pos + 56 * i) s) : w ∈ segmentsWrites pos segments := by
  induction segments generalizing i pos with
  | nil => cases hs
  | cons t segments ih =>
      unfold segmentsWrites
      cases i with
      | zero =>
          cases hs
          exact List.mem_append_left _ hw
      | succ i =>
          refine List.mem_append_right _ (ih hs (pos + 56) ?_)
          have hpos : pos + 56 + 56 * i = pos + 56 * (i + 1) := by omega
          rw [hpos]
          exact hw

theorem length_sectionImage {s : Section} {n : Nat} (h : s.memorySize = some n)
    {payload : List UInt8} (hlen : payload.length = s.data.length) :
    (sectionImage s payload).length = n := by
  obtain ⟨rfl, hfill⟩ := memorySize_eq h
  unfold sectionImage
  by_cases hkind : s.kind = .bss
  · rw [if_pos hkind, List.length_replicate]
  · rw [if_neg hkind, hlen, hfill hkind]
    rfl

/-- A payload to write: each where its section is placed, and as long as it. -/
theorem payloadWrite_spec {objects : List ObjectFile} {payloads : Payloads}
    (hfit : payloads.Fit objects) {p : SectionPlacement} (hkind : p.kind ≠ .bss)
    (hof : ∃ s, sectionAt objects p.objectIndex p.sectionIndex = some s ∧
      PlacementOf s.kind (p.key, s) p)
    {payload : List UInt8} (hpayload : payloads.at? p.objectIndex p.sectionIndex = some payload) :
    payload.length = p.memorySize := by
  obtain ⟨s, hs, hplaced⟩ := hof
  obtain ⟨payload', hpayload', hlen⟩ := hfit _ _ s hs
  rw [hpayload, Option.some.injEq] at hpayload'
  subst hpayload'
  obtain ⟨hsize, hfill⟩ := memorySize_eq hplaced.size
  rw [hlen, hsize, hfill (fun h => hkind (hplaced.kind.trans h))]
  rfl

theorem payloadWrites_spec {layout : Layout} {objects : List ObjectFile} {payloads : Payloads}
    {writes : List Write} (hfit : payloads.Fit objects)
    (hof : ∀ p ∈ layout.sections, ∃ s, sectionAt objects p.objectIndex p.sectionIndex = some s ∧
      PlacementOf s.kind (p.key, s) p)
    (h : payloadWrites layout.sections payloads = .ok writes) :
    patchSpans writes =
        (layout.sections.filter (·.kind ≠ .bss)).map SectionPlacement.span ∧
      ∀ p ∈ layout.sections, p.kind ≠ .bss → ∀ payload,
        payloads.at? p.objectIndex p.sectionIndex = some payload →
          (p.fileOffset, payload) ∈ writes := by
  have hall := mapM_ok h
  have hmem : ∀ p ∈ layout.sections.filter (·.kind ≠ .bss), p ∈ layout.sections ∧ p.kind ≠ .bss :=
    fun p hp => ⟨(List.mem_filter.mp hp).1, of_decide_eq_true (List.mem_filter.mp hp).2⟩
  have hin : ∀ p ∈ layout.sections, p.kind ≠ .bss →
      p ∈ layout.sections.filter (·.kind ≠ .bss) :=
    fun p hp hkind => List.mem_filter.mpr ⟨hp, decide_eq_true hkind⟩
  generalize layout.sections.filter (·.kind ≠ .bss) = files at hall hmem hin
  -- The writes follow the placements that have bytes, one by one.
  suffices hgoal : patchSpans writes = files.map SectionPlacement.span ∧
      ∀ p ∈ files, ∀ payload, payloads.at? p.objectIndex p.sectionIndex = some payload →
        (p.fileOffset, payload) ∈ writes from
    ⟨hgoal.1, fun p hp hkind => hgoal.2 p (hin p hp hkind)⟩
  clear hin h
  induction hall with
  | nil => exact ⟨rfl, fun p hp => nomatch hp⟩
  | @cons p w files writes hw _ ih =>
      obtain ⟨payload, hpayload, hw⟩ := bind_ok_iff.mp hw
      have hpayload := orThrow_ok_iff.mp hpayload
      cases hw
      obtain ⟨hspans, hwrites⟩ := ih fun q hq => hmem q (List.mem_cons_of_mem p hq)
      obtain ⟨hp, hkind⟩ := hmem p List.mem_cons_self
      refine ⟨?_, fun q hq payload' hpayload' => ?_⟩
      · have hlen := payloadWrite_spec hfit hkind (hof p hp) hpayload
        unfold patchSpans at hspans ⊢
        rw [List.map_cons, List.map_cons, hspans, hlen]
        rfl
      · rcases List.mem_cons.mp hq with rfl | hq
        · rw [hpayload, Option.some.injEq] at hpayload'
          rw [hpayload']
          exact List.mem_cons_self
        · exact List.mem_cons_of_mem _ (hwrites q hq payload' hpayload')

theorem ascending_emitWrites {segments : List Segment} {sections : List Write} {stop : Nat}
    (address : Nat)
    (h : Ascending (64 + 56 * (segments.length + 1)) (patchSpans sections) stop) :
    Ascending 0 (patchSpans (emitWrites segments address sections)) stop := by
  have hspans : patchSpans (emitWrites segments address sections) =
      patchSpans (headerWrites address segments.length) ++
        patchSpans (segmentsWrites 64 segments) ++
        patchSpans (stackWrites (64 + segments.length * 56)) ++ patchSpans sections := by
    simp only [emitWrites, patchSpans, List.map_append]
  have hstack := ascending_stackWrites (64 + segments.length * 56)
  have hpos : 64 + segments.length * 56 = 64 + 56 * segments.length := by omega
  have hend : 64 + segments.length * 56 + 56 = 64 + 56 * (segments.length + 1) := by omega
  rw [hend] at hstack
  rw [hspans]
  have hsegments := (ascending_headerWrites address segments.length).append
    (ascending_segmentsWrites 64 segments)
  rw [← hpos] at hsegments
  exact (hsegments.append hstack).append h

section

variable {segments : List Segment} {sections : List Write} {address fileSize : Nat}

/-- A number that `emit` writes is read back. -/
theorem fieldAt_emit
    (h : Ascending 0 (patchSpans (emitWrites segments address sections)) fileSize)
    (pos n v : Nat) (hw : (pos, leBytes n v) ∈ emitWrites segments address sections)
    (hv : v < 256 ^ n) :
    fieldAt (patchAll (List.replicate fileSize 0) (emitWrites segments address sections)) pos n =
      v := by
  have hlen : (List.replicate fileSize (0 : UInt8)).length = fileSize := List.length_replicate
  rw [← hlen] at h
  exact leValue_slice_patchAll _ h hw hv

theorem mem_emitWrites {w : Write}
    (h : w ∈ headerWrites address segments.length ∨ w ∈ segmentsWrites 64 segments ∨
      w ∈ stackWrites (64 + segments.length * 56) ∨ w ∈ sections) :
    w ∈ emitWrites segments address sections := by
  simp only [emitWrites, List.mem_append]
  tauto

/-- The program header that was written for a segment is read back. -/
theorem loadSegment_emit
    (h : Ascending 0 (patchSpans (emitWrites segments address sections)) fileSize) {i : Nat}
    {s : Segment} (hs : segments[i]? = some s)
    (hbound : s.flags < 2 ^ 32 ∧ s.offset < 2 ^ 64 ∧ s.address < 2 ^ 64 ∧ s.fileSize < 2 ^ 64 ∧
      s.memorySize < 2 ^ 64) :
    loadSegment (patchAll (List.replicate fileSize 0) (emitWrites segments address sections))
      (64 + i * 56) = some s := by
  obtain ⟨hflags, hoffset, haddress, hfile, hmemory⟩ := hbound
  have hpos : 64 + 56 * i = 64 + i * 56 := by omega
  have hmem : ∀ w ∈ segmentWrites (64 + i * 56) s, w ∈ emitWrites segments address sections := by
    intro w hw
    rw [← hpos] at hw
    exact mem_emitWrites (Or.inr (Or.inl (mem_segmentsWrites hs 64 hw)))
  have h32 : ∀ pos v, v < 2 ^ 32 → put32 pos v ∈ segmentWrites (64 + i * 56) s →
      fieldAt (patchAll (List.replicate fileSize 0) (emitWrites segments address sections))
        pos 4 = v :=
    fun pos v hv hw => fieldAt_emit h pos 4 v (hmem _ hw) hv
  have h64 : ∀ pos v, v < 2 ^ 64 → put64 pos v ∈ segmentWrites (64 + i * 56) s →
      fieldAt (patchAll (List.replicate fileSize 0) (emitWrites segments address sections))
        pos 8 = v :=
    fun pos v hv hw => fieldAt_emit h pos 8 v (hmem _ hw) hv
  unfold loadSegment
  rw [h32 _ 1 (by decide) (by simp [segmentWrites]), if_pos rfl,
    h32 _ s.flags hflags (by simp [segmentWrites]),
    h64 _ s.offset hoffset (by simp [segmentWrites]),
    h64 (64 + i * 56 + 16) s.address haddress (by simp [segmentWrites]),
    h64 _ s.fileSize hfile (by simp [segmentWrites]),
    h64 _ s.memorySize hmemory (by simp [segmentWrites])]

theorem filterMap_range {α : Type} {xs : List α} {f : Nat → Option α}
    (h : ∀ i x, xs[i]? = some x → f i = some x) : (List.range xs.length).filterMap f = xs := by
  induction xs generalizing f with
  | nil => rfl
  | cons x xs ih =>
      rw [List.length_cons, List.range_succ_eq_map, List.filterMap_cons, h 0 x rfl,
        List.filterMap_map]
      exact congrArg (x :: ·) (ih fun i y hy => h (i + 1) y hy)

/-- The loader reads the segments that were written. -/
theorem loadSegments_emit
    (h : Ascending 0 (patchSpans (emitWrites segments address sections)) fileSize)
    (hcount : segments.length + 1 < 2 ^ 16)
    (hsegments : ∀ s ∈ segments, s.flags < 2 ^ 32 ∧ s.offset < 2 ^ 64 ∧ s.address < 2 ^ 64 ∧
      s.fileSize < 2 ^ 64 ∧ s.memorySize < 2 ^ 64) :
    loadSegments (patchAll (List.replicate fileSize 0) (emitWrites segments address sections)) =
      segments := by
  have hheader : ∀ w ∈ headerWrites address segments.length,
      w ∈ emitWrites segments address sections := fun w hw => mem_emitWrites (Or.inl hw)
  have hoffset := fieldAt_emit h 32 8 64 (hheader _ (by simp [headerWrites, put64])) (by decide)
  have hstride := fieldAt_emit h 54 2 56 (hheader _ (by simp [headerWrites, put16])) (by decide)
  have hnumber := fieldAt_emit h 56 2 ((segments.length + 1) % 2 ^ 16)
    (hheader _ (by simp [headerWrites, put16])) (Nat.mod_lt _ (by decide))
  rw [Nat.mod_eq_of_lt hcount] at hnumber
  -- The last program header is that of the stack, which is not loaded.
  have hstack := fieldAt_emit h (64 + segments.length * 56) 4 0x6474e551
    (mem_emitWrites (Or.inr (Or.inr (Or.inl (by simp [stackWrites, put32]))))) (by decide)
  unfold loadSegments
  rw [hoffset, hstride, hnumber, List.range_succ, List.filterMap_append]
  have hlast : [segments.length].filterMap (fun i => loadSegment
      (patchAll (List.replicate fileSize 0) (emitWrites segments address sections))
      (64 + i * 56)) = [] := by
    unfold loadSegment
    rw [List.filterMap_cons, hstack]
    rfl
  rw [hlast, List.append_nil]
  exact filterMap_range fun i s hs =>
    loadSegment_emit h hs (hsegments s (List.mem_of_getElem? hs))

end

/-! ## The image -/

/-- Of segments that follow one another at most one contains an address. -/
theorem find?_contains {segments : List Segment}
    (h : segments.Pairwise fun s t => s.address + s.memorySize ≤ t.address) {s : Segment}
    (hs : s ∈ segments) {address : Nat} (hin : s.contains address = true) :
    segments.find? (·.contains address) = some s := by
  have hrange : ∀ {t : Segment}, t.contains address = true →
      t.address ≤ address ∧ address < t.address + t.memorySize := by
    intro t ht
    simpa [Segment.contains] using ht
  induction segments with
  | nil => cases hs
  | cons t segments ih =>
      rw [List.pairwise_cons] at h
      rcases List.mem_cons.mp hs with rfl | hs
      · simp only [List.find?_cons, hin]
      · have hnot : t.contains address = false := by
          rw [Bool.eq_false_iff]
          intro ht
          have hle := h.1 s hs
          have hs := hrange hin
          have ht := hrange ht
          omega
        simp only [List.find?_cons, hnot]
        exact ih h.2 hs

theorem getElem?_replicate_zero {n i : Nat} {b : UInt8}
    (h : (List.replicate n (0 : UInt8))[i]? = some b) : b = 0 := by
  rw [List.getElem?_replicate] at h
  split at h
  · exact (Option.some.inj h).symm
  · cases h

/-- What can be read from an executable with the layout that `r` describes. -/
structure Emitted (r : Runs) (objects : List ObjectFile) (layout : Layout) (payloads : Payloads)
    (bytes : List UInt8) : Prop where
  segments : loadSegments bytes = r.segments objects
  length : bytes.length = layout.fileSize
  payload : ∀ p ∈ layout.sections, p.kind ≠ .bss → ∀ payload,
    payloads.at? p.objectIndex p.sectionIndex = some payload →
      ∀ i, i < payload.length → bytes[p.fileOffset + i]? = payload[i]?

section

variable {r : Runs} {objects : List ObjectFile} {maxBytes : Nat} {layout : Layout}
  {payloads : Payloads} {bytes : List UInt8}

theorem emit_spec {address : Nat} (hr : r.Describes objects maxBytes layout)
    (hfit : payloads.Fit objects) (haddress : address < 2 ^ 64)
    (h : emit layout (r.segments objects) address payloads = .ok bytes) :
    entryOf bytes = address ∧ Emitted r objects layout payloads bytes := by
  unfold emit at h
  obtain ⟨sections, hsections, h⟩ := bind_ok_iff.mp h
  cases h
  obtain ⟨hspans, hwrites⟩ :=
    payloadWrites_spec hfit (fun p hp => hr.of_placement hp) hsections
  have hlength : (List.replicate layout.fileSize (0 : UInt8)).length = layout.fileSize :=
    List.length_replicate
  have hascending : Ascending 0 (patchSpans (emitWrites (r.segments objects) address sections))
      layout.fileSize := by
    refine ascending_emitWrites address ?_
    rw [hspans, ← headerSize_eq objects r]
    exact hr.file_ascending
  refine ⟨fieldAt_emit hascending 24 8 address
    (mem_emitWrites (Or.inl (by simp [headerWrites, put64]))) haddress,
    { segments := ?_, length := ?_, payload := ?_ }⟩
  · have hcount : (r.segments objects).length ≤ 3 := by
      unfold Runs.segments
      by_cases hro : hasKind objects [.readOnlyData] = true <;>
      by_cases hrw : hasKind objects [.data, .bss] = true <;>
      simp [hro, hrw]
    have huser : userEnd < 2 ^ 64 := by decide
    refine loadSegments_emit hascending (by omega) fun s hs => ?_
    obtain ⟨haddr, -, hfile, -, hend, hflags⟩ := hr.loadable hs
    exact ⟨by omega, by omega, by omega, by omega, by omega⟩
  · rw [length_patchAll]
    · exact hlength
    · intro w hw
      rw [hlength]
      exact (hascending.mem (List.mem_map_of_mem hw)).2
  · intro p hp hkind payload hpayload i hi
    have hwrite : (p.fileOffset, payload) ∈ emitWrites (r.segments objects) address sections :=
      mem_emitWrites (Or.inr (Or.inr (Or.inr (hwrites p hp hkind payload hpayload))))
    rw [← hlength] at hascending
    exact getElem?_patchAll _ hascending hwrite hi

theorem Runs.Describes.segments_pairwise (hr : r.Describes objects maxBytes layout) :
    (r.segments objects).Pairwise fun s t => s.address + s.memorySize ≤ t.address := by
  have hoffsets := List.pairwise_map.mp hr.segments_ascending.pairwise
  refine hoffsets.imp_of_mem fun {s t} hs ht hle => ?_
  have hs := (hr.loadable hs).1
  have ht := (hr.loadable ht).1
  simp only at hle
  omega

theorem Placed.placement (hr : r.Describes objects maxBytes layout) {oi si : Nat} {s : Section}
    {address : Nat} {image : List UInt8}
    (h : Placed objects layout payloads oi si s address image) :
    ∃ p ∈ layout.sections, PlacementOf s.kind ((oi, si), s) p ∧
      address = imageBase + p.fileOffset ∧ image.length = p.memorySize := by
  obtain ⟨p, hp, hof⟩ := hr.placement h.section_
  obtain ⟨payload, -, hlen, himage⟩ := h.image
  have hkey : p.objectIndex = oi ∧ p.sectionIndex = si := Prod.mk.inj hof.key
  have haddr := hr.address hp
  rw [hkey.1, hkey.2, h.address, Option.some.injEq] at haddr
  exact ⟨p, hp, hof, haddr.trans hof.address, himage ▸ length_sectionImage hof.size hlen⟩

/-- The loaded program holds every byte of a section. -/
theorem Emitted.imageByte (he : Emitted r objects layout payloads bytes)
    (hr : r.Describes objects maxBytes layout) {oi si : Nat} {s : Section} {address : Nat}
    {image : List UInt8} (h : Placed objects layout payloads oi si s address image) {i : Nat}
    {b : UInt8} (hb : image[i]? = some b) :
    Linker.imageByte bytes (address + i) = some (b, permission s.kind) := by
  obtain ⟨p, hp, hof, rfl, hlen⟩ := h.placement hr
  obtain ⟨payload, hpayload, -, rfl⟩ := h.image
  obtain ⟨seg, hseg, hflags, hstart, hstop, hfile, hbss⟩ := hr.segment_of hp
  have hi : i < p.memorySize := by
    have hi := (List.getElem?_eq_some_iff.mp hb).1
    omega
  have haddr := (hr.loadable hseg).1
  have hcontains : seg.contains (imageBase + p.fileOffset + i) = true := by
    unfold Segment.contains
    rw [Bool.and_eq_true, decide_eq_true_eq, decide_eq_true_eq]
    omega
  have hindex : seg.offset + (imageBase + p.fileOffset + i - seg.address) = p.fileOffset + i := by
    omega
  rw [hof.kind] at hflags hfile hbss
  unfold Linker.imageByte
  rw [he.segments, find?_contains hr.segments_pairwise hseg hcontains]
  unfold sectionImage at hb
  by_cases hkind : s.kind = .bss
  · -- Behind its bytes in the file a segment is zero.
    rw [if_pos hkind] at hb
    have hle := hbss hkind
    simp only
    rw [if_neg (by omega), getElem?_replicate_zero hb, hflags]
  · rw [if_neg hkind] at hb
    have hle := hfile hkind
    have hkey : p.objectIndex = oi ∧ p.sectionIndex = si := Prod.mk.inj hof.key
    rw [← hkey.1, ← hkey.2] at hpayload
    have hbyte := he.payload p hp (by rw [hof.kind]; exact hkind) payload hpayload i
      (List.getElem?_eq_some_iff.mp hb).1
    simp only
    rw [if_pos (by omega), hindex, hbyte, hb, hflags]
    rfl

/-- Loading what `emit` wrote gives back the layout and the payloads. -/
theorem Emitted.loads (he : Emitted r objects layout payloads bytes)
    (hr : r.Describes objects maxBytes layout) (hfit : payloads.Fit objects) :
    LoadsAsLaidOut objects layout payloads bytes where
  placed oi si s hs := by
    obtain ⟨p, hp, hof⟩ := hr.placement hs
    have hkey : p.objectIndex = oi ∧ p.sectionIndex = si := Prod.mk.inj hof.key
    have haddr := hr.address hp
    rw [hkey.1, hkey.2] at haddr
    obtain ⟨payload, hpayload, hlen⟩ := hfit oi si s hs
    exact ⟨p.memoryAddress, sectionImage s payload, hs, haddr, payload, hpayload, hlen, rfl⟩
  loaded oi si s address image h i b hb := he.imageByte hr h hb
  headers oi si s address image h := by
    obtain ⟨p, hp, -, rfl, -⟩ := h.placement hr
    have hlo : headerSize objects ≤ p.fileOffset :=
      (hr.ascending.mem (List.mem_map_of_mem hp)).1
    omega
  disjoint oi si s address image oi' si' s' address' image' h h' hne := by
    obtain ⟨p, hp, hof, rfl, hlen⟩ := h.placement hr
    obtain ⟨p', hp', hof', rfl, hlen'⟩ := h'.placement hr
    have hpp : p ≠ p' := by
      rintro rfl
      exact hne (hof.key.symm.trans hof'.key)
    have hpair : layout.sections.Pairwise fun p q =>
        p.fileOffset + p.memorySize ≤ q.fileOffset ∨ q.fileOffset + q.memorySize ≤ p.fileOffset :=
      (List.pairwise_map.mp hr.ascending.pairwise).imp fun hle => Or.inl hle
    have hsymm : Std.Symm fun p q : SectionPlacement =>
        p.fileOffset + p.memorySize ≤ q.fileOffset ∨ q.fileOffset + q.memorySize ≤ p.fileOffset :=
      ⟨fun _ _ h => h.symm⟩
    have horder := hpair.forall hp hp' hpp
    omega
  segments := by
    rw [he.segments]
    exact hr.segments_pairwise
  pages s hs := by
    rw [he.segments] at hs
    obtain ⟨haddr, hpage, hle, hfile, hend, -⟩ := hr.loadable hs
    refine ⟨?_, hpage, hle, by rw [he.length]; exact hfile, hend⟩
    rw [haddr]
    exact Nat.dvd_add (by decide) hpage

end

/-- The executable of a link: of the objects selected from the inputs, it has the entry symbol
as its entry and loads as the objects were laid out and relocated. -/
def LinkedImage (inputs : List LinkInput) (entry : String) (maxBytes : Nat) (bytes : List UInt8) :
    Prop :=
  ∃ objects symbols layout segments payloads,
    select inputs entry maxBytes = .ok objects ∧ resolve objects = .ok symbols ∧
    executableLayout objects maxBytes = .ok (layout, segments) ∧
    applyRelocations objects layout maxBytes = .ok payloads ∧
    (∃ symbol owner sectionIndex base,
      symbols.symbols.get (.global entry) = some symbol ∧ symbol.objectIndex = some owner ∧
      symbol.sectionIndex = some sectionIndex ∧ layout.address owner sectionIndex = some base ∧
      entryOf bytes = base + symbol.value.toNat) ∧
    LoadsAsLaidOut objects layout payloads bytes

/-- The steps of writing an executable with entry `address`. -/
structure Writing (objects : List ObjectFile) (entry : String) (maxBytes : Nat)
    (symbols : SymbolTable) (layout : Layout) (r : Runs) (payloads : Payloads) (address : Nat)
    (bytes : List UInt8) : Prop where
  resolved : resolve objects = .ok symbols
  laidOut : executableLayout objects maxBytes = .ok (layout, r.segments objects)
  runs : r.Describes objects maxBytes layout
  relocated : applyRelocations objects layout maxBytes = .ok payloads
  fit : payloads.Fit objects
  entry : ∃ symbol owner sectionIndex base,
    symbols.symbols.get (.global entry) = some symbol ∧ symbol.objectIndex = some owner ∧
    symbol.sectionIndex = some sectionIndex ∧ layout.address owner sectionIndex = some base ∧
    address = base + symbol.value.toNat ∧ ∃ source,
      sectionAt objects owner sectionIndex = some source ∧ source.kind = .text ∧
      symbol.value.toNat < source.data.length
  bound : address < wordBound
  emitted : emit layout (r.segments objects) address payloads = .ok bytes

theorem writeExecutable_writing {objects : List ObjectFile} {entry : String} {maxBytes : Nat}
    {bytes : List UInt8} (h : writeExecutable objects entry maxBytes = .ok bytes) :
    ∃ symbols layout r payloads address,
      Writing objects entry maxBytes symbols layout r payloads address bytes := by
  unfold writeExecutable at h
  obtain ⟨_, -, h⟩ := bind_ok_iff.mp h
  obtain ⟨symbols, hsymbols, h⟩ := bind_ok_iff.mp h
  obtain ⟨⟨owner, sectionIndex, value⟩, hentry, h⟩ := bind_ok_iff.mp h
  obtain ⟨⟨layout, segments⟩, hlayout, h⟩ := bind_ok_iff.mp h
  obtain ⟨base, hbase, h⟩ := bind_ok_iff.mp h
  obtain ⟨address, haddress, h⟩ := bind_ok_iff.mp h
  obtain ⟨payloads, hpayloads, hemit⟩ := bind_ok_iff.mp h
  have hlayout := mapError_ok_iff.mp hlayout
  have hpayloads := mapError_ok_iff.mp hpayloads
  obtain ⟨hsum, hbound⟩ := checkedAdd_eq_some.mp (orThrow_ok_iff.mp haddress)
  obtain ⟨r, hr, rfl⟩ := executableLayout_spec hlayout
  unfold entryPoint at hentry
  obtain ⟨symbol, hsymbol, hentry⟩ := bind_ok_iff.mp hentry
  obtain ⟨owner', howner, hentry⟩ := bind_ok_iff.mp hentry
  obtain ⟨sectionIndex', hsection, hentry⟩ := bind_ok_iff.mp hentry
  obtain ⟨source, hsource, hentry⟩ := bind_ok_iff.mp hentry
  obtain ⟨_, hinside, hentry⟩ := bind_ok_iff.mp hentry
  cases hentry
  obtain ⟨hkind, hlt⟩ := not_or.mp (require_ok_iff.mp hinside)
  exact ⟨symbols, layout, r, payloads, address,
    { resolved := mapError_ok_iff.mp hsymbols
      laidOut := hlayout
      runs := hr
      relocated := hpayloads
      fit := applyRelocations_fit hpayloads
      entry := ⟨symbol, owner, sectionIndex, base, orThrow_ok_iff.mp hsymbol,
        orThrow_ok_iff.mp howner, orThrow_ok_iff.mp hsection, orThrow_ok_iff.mp hbase, hsum.symm,
        source, orThrow_ok_iff.mp hsource, not_not.mp hkind, Nat.lt_of_not_le hlt⟩
      bound := hbound
      emitted := hemit }⟩

theorem writeExecutable_loads {objects : List ObjectFile} {entry : String} {maxBytes : Nat}
    {bytes : List UInt8} (h : writeExecutable objects entry maxBytes = .ok bytes) :
    ∃ symbols layout segments payloads,
      resolve objects = .ok symbols ∧
      executableLayout objects maxBytes = .ok (layout, segments) ∧
      applyRelocations objects layout maxBytes = .ok payloads ∧
      (∃ symbol owner sectionIndex base,
        symbols.symbols.get (.global entry) = some symbol ∧ symbol.objectIndex = some owner ∧
        symbol.sectionIndex = some sectionIndex ∧ layout.address owner sectionIndex = some base ∧
        entryOf bytes = base + symbol.value.toNat) ∧
      LoadsAsLaidOut objects layout payloads bytes := by
  obtain ⟨symbols, layout, r, payloads, address, hw⟩ := writeExecutable_writing h
  obtain ⟨hread, hemitted⟩ := emit_spec hw.runs hw.fit hw.bound hw.emitted
  obtain ⟨symbol, owner, sectionIndex, base, hsymbol, howner, hsection, hbase, haddress, -⟩ :=
    hw.entry
  exact ⟨symbols, layout, r.segments objects, payloads, hw.resolved, hw.laidOut,
    hw.relocated,
    ⟨symbol, owner, sectionIndex, base, hsymbol, howner, hsection, hbase, hread.trans haddress⟩,
    hemitted.loads hw.runs hw.fit⟩

/-- A linked executable loads as laid out. -/
theorem link_loads (inputs : List LinkInput) (entry : String) (maxBytes : Nat)
    (bytes : List UInt8) (h : linkWithLimit inputs entry maxBytes = .ok bytes) :
    LinkedImage inputs entry maxBytes bytes := by
  unfold linkWithLimit at h
  obtain ⟨_, -, h⟩ := bind_ok_iff.mp h
  obtain ⟨objects, hobjects, h⟩ := bind_ok_iff.mp h
  obtain ⟨_, -, h⟩ := bind_ok_iff.mp h
  obtain ⟨symbols, layout, segments, payloads, hsymbols, hlayout, hpayloads, hentry, hloads⟩ :=
    writeExecutable_loads h
  exact ⟨objects, symbols, layout, segments, payloads, mapError_ok_iff.mp hobjects, hsymbols,
    hlayout, hpayloads, hentry, hloads⟩

/-- `mov eax, 60; mov edi, 37; syscall` as the entry point. -/
def exitProgram : ObjectFile where
  target := ObjectTarget.x86_64WhaleLinux
  sections :=
    [{ name := ".text", kind := .text, zeroFill := 0, align := 16
       data := [0xb8, 0x3c, 0, 0, 0, 0xbf, 0x25, 0, 0, 0, 0x0f, 0x05] }]
  symbols :=
    [{ kind := .function, name := "_start", sectionIndex := some 0, value := 0, size := 12
       binding := .global, visibility := .default }]
  relocations := []

theorem link_loads_exitProgram :
    ∃ bytes, linkWithLimit [.object exitProgram] "_start" 65536 = .ok bytes ∧
      LinkedImage [.object exitProgram] "_start" 65536 bytes := by
  have hlinks : (linkWithLimit [.object exitProgram] "_start" 65536).toOption.isSome = true := by
    decide +kernel
  cases h : linkWithLimit [.object exitProgram] "_start" 65536 with
  | error e =>
      rw [h] at hlinks
      cases hlinks
  | ok bytes => exact ⟨bytes, rfl, link_loads _ _ _ bytes h⟩

end Whale.Linker
