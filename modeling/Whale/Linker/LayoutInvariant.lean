import Mathlib.Data.List.Pairwise
import Whale.Lib.Collect
import Whale.Linker.LayoutSpec
import Whale.Object.Valid

set_option autoImplicit false

/-! # The invariants of an executable layout

The layout of plain arithmetic (`exactLayout`), which an accepted layout is, and what holds of
the sections and the segments of an accepted layout. -/

namespace Whale.Linker

/-! ## The layout of plain arithmetic -/

/-- Place one section behind the cursor, without bounds. -/
def exactSection (kind : SectionKind) (p : Placing) (e : (Nat × Nat) × Section) : Placing :=
  let align := max e.2.align.toNat 1
  let va := roundUp (imageBase + p.cursor) align
  let size := e.2.data.length + e.2.zeroFill.toNat
  { offsets := p.offsets.modify e.1.1 (·.set e.1.2 va)
    sections := p.sections ++
      [{ objectIndex := e.1.1, sectionIndex := e.1.2, kind := kind, align := align
         fileOffset := va - imageBase, memoryAddress := va, fileSize := e.2.fileSize
         memorySize := size }]
    cursor := va - imageBase + size
    fileEnd := if kind = .bss then p.fileEnd else va - imageBase + size }

def exactKind (objects : List ObjectFile) (p : Placing) (kind : SectionKind) : Placing :=
  (sectionsOf objects kind).foldl (exactSection kind) p

def exactSegment (objects : List ObjectFile) (headerSize : Nat) (state : Layout × List Segment)
    (group : List SectionKind × Nat) : Layout × List Segment :=
  let (layout, segments) := state
  let (kinds, flags) := group
  if flags = 5 ∨ hasKind objects kinds = true then
    let start := if flags = 5 then 0 else roundUp layout.fileSize pageSize
    let cursor := if flags = 5 then headerSize else start
    let placed := kinds.foldl (exactKind objects)
      { offsets := layout.sectionOffsets, sections := layout.sections, cursor := cursor
        fileEnd := cursor }
    ({ layout with
        sectionOffsets := placed.offsets, sections := placed.sections
        fileSize := placed.fileEnd, memorySize := placed.cursor },
      segments ++
        [{ flags := flags, offset := start, address := imageBase + start
           fileSize := placed.fileEnd - start, memorySize := placed.cursor - start }])
  else state

/-- The layout and the segments without any bound on the numbers. -/
def exactLayout (objects : List ObjectFile) : Layout × List Segment :=
  let size := headerSize objects
  let layout : Layout :=
    { sectionOffsets := objects.map fun o => o.sections.map fun _ => 0
      sectionSizes := [], sections := [], baseAddress := imageBase, fileSize := size
      memorySize := size }
  let (layout, segments) := segmentGroups.foldl (exactSegment objects size) (layout, [])
  ({ layout with
      sectionSizes := (objects.flatMap ObjectFile.sections).map fun s =>
        s.data.length + s.zeroFill.toNat },
    segments)

section

variable {objects : List ObjectFile} (hvalid : ∀ o ∈ objects, ∀ s ∈ o.sections, s.Valid)

theorem placeSection_exact {kind : SectionKind} {e : (Nat × Nat) × Section} (hs : e.2.Valid)
    {p q : Placing} (h : placeSection kind p e = .ok q) : q = exactSection kind p e := by
  obtain ⟨k, hk, halign⟩ := hs.align_pow
  unfold placeSection at h
  obtain ⟨start, hstart, h₁⟩ := bind_ok_iff.mp h
  obtain ⟨va, hva, h₂⟩ := bind_ok_iff.mp h₁
  obtain ⟨size, hsize, h₃⟩ := bind_ok_iff.mp h₂
  obtain ⟨stop, hstop, h₄⟩ := bind_ok_iff.mp h₃
  cases h₄
  obtain ⟨rfl, -⟩ := checkedAdd_eq_some.mp (orThrow_ok_iff.mp hstart)
  rw [halign, orThrow_ok_iff, checkedAlignUp_iff hk, ← halign] at hva
  obtain ⟨rfl, -⟩ := hva
  obtain ⟨rfl, -⟩ := memorySize_eq (orThrow_ok_iff.mp hsize)
  obtain ⟨rfl, -⟩ := checkedAdd_eq_some.mp (orThrow_ok_iff.mp hstop)
  rfl

include hvalid

theorem valid_of_sectionsOf {kind : SectionKind} {e : (Nat × Nat) × Section}
    (he : e ∈ sectionsOf objects kind) : e.2.Valid := by
  obtain ⟨hat, -⟩ := mem_sectionsOf.mp he
  obtain ⟨o, ho, hs⟩ := Option.bind_eq_some_iff.mp hat
  exact hvalid o (List.mem_of_getElem? ho) e.2 (List.mem_of_getElem? hs)

theorem placeKind_exact {kind : SectionKind} {p q : Placing}
    (h : placeKind objects p kind = .ok q) : q = exactKind objects p kind :=
  foldlM_eq_foldl (fun _ he _ _ h => placeSection_exact (valid_of_sectionsOf hvalid he) h) h

theorem placeSegment_exact {maxBytes headerSize : Nat} {state state' : Layout × List Segment}
    {group : List SectionKind × Nat}
    (h : placeSegment objects maxBytes headerSize state group = .ok state') :
    state' = exactSegment objects headerSize state group := by
  obtain ⟨layout, segments⟩ := state
  obtain ⟨kinds, flags⟩ := group
  obtain ⟨layout', segments'⟩ := state'
  unfold exactSegment
  dsimp only
  by_cases hrun : flags = 5 ∨ hasKind objects kinds = true
  · obtain ⟨start, placed, hstart, hplaced, -, -, rfl, rfl⟩ := placeSegment_spec hrun h
    have hexact := foldlM_eq_foldl (fun _ _ _ _ h => placeKind_exact hvalid h) hplaced
    have hfirst : start = if flags = 5 then 0 else roundUp layout.fileSize pageSize := by
      unfold segmentStart at hstart
      by_cases hflags : flags = 5
      · rw [if_pos hflags] at hstart ⊢
        cases hstart
        rfl
      · rw [if_neg hflags] at hstart ⊢
        rw [pageSize_eq, orThrow_ok_iff, checkedAlignUp_iff (by decide)] at hstart
        exact hstart.1.symm
    subst hexact
    rw [if_pos hrun, ← hfirst]
  · rw [if_neg hrun]
    exact placeSegment_skip hrun h

end

theorem mapM_memorySize {sections : List Section} {sizes : List Nat}
    (h : sections.mapM Section.memorySize = some sizes) :
    sizes = sections.map fun s => s.data.length + s.zeroFill.toNat := by
  induction sections generalizing sizes with
  | nil =>
      cases h
      rfl
  | cons s sections ih =>
      rw [List.mapM_cons] at h
      obtain ⟨size, hsize, h₁⟩ := Option.bind_eq_some_iff.mp h
      obtain ⟨rest, hrest, h₂⟩ := Option.bind_eq_some_iff.mp h₁
      cases h₂
      rw [List.map_cons, ih hrest, (memorySize_eq hsize).1]

theorem valid_of_executableLayout {objects : List ObjectFile} {maxBytes : Nat}
    {result : Layout × List Segment} (h : executableLayout objects maxBytes = .ok result) :
    ∀ o ∈ objects, o.validate = .ok () := by
  obtain ⟨_, hcheck, -⟩ := bind_ok_iff.mp h
  intro o ho
  have hinput := forM_ok hcheck ho
  unfold checkLayoutInput at hinput
  split at hinput
  · cases hinput
  · split at hinput
    · cases hinput
    · assumption

/-- An accepted layout is that of plain arithmetic. -/
theorem executableLayout_exact {objects : List ObjectFile} {maxBytes : Nat}
    {result : Layout × List Segment} (h : executableLayout objects maxBytes = .ok result) :
    result = exactLayout objects := by
  have hvalid : ∀ o ∈ objects, ∀ s ∈ o.sections, s.Valid := fun o ho =>
    ObjectFile.validate_sections (valid_of_executableLayout h o ho)
  obtain ⟨_, -, h₁⟩ := bind_ok_iff.mp h
  obtain ⟨⟨layout, segments⟩, hgroups, h₂⟩ := bind_ok_iff.mp h₁
  obtain ⟨sizes, hsizes, h₃⟩ := bind_ok_iff.mp h₂
  cases h₃
  have hexact := foldlM_eq_foldl (g := exactSegment objects (headerSize objects))
    (fun _ _ _ _ h => placeSegment_exact hvalid h) hgroups
  rw [mapM_memorySize (orThrow_ok_iff.mp hsizes)]
  unfold exactLayout
  dsimp only
  rw [← hexact]

/-! ## The invariants -/

/-- A section of the objects, its address and its size in memory. -/
structure SectionPlaced (objects : List ObjectFile) (layout : Layout) (key : Nat × Nat)
    (s : Section) (address size : Nat) : Prop where
  section_ : sectionAt objects key.1 key.2 = some s
  address : layout.address key.1 key.2 = some address
  size : s.memorySize = some size

/-- The range lies in the memory of the segment. -/
def Segment.Holds (seg : Segment) (address size : Nat) : Prop :=
  seg.address ≤ address ∧ address + size ≤ seg.address + seg.memorySize

structure LayoutInvariant (objects : List ObjectFile) (layout : Layout)
    (segments : List Segment) : Prop where
  placed : ∀ key s, sectionAt objects key.1 key.2 = some s →
    ∃ address size, SectionPlaced objects layout key s address size
  aligned : ∀ key s address size, SectionPlaced objects layout key s address size →
    max s.align.toNat 1 ∣ address
  disjoint : ∀ key s address size key' s' address' size',
    SectionPlaced objects layout key s address size →
    SectionPlaced objects layout key' s' address' size' → key ≠ key' →
      address + size ≤ address' ∨ address' + size' ≤ address
  /-- A section that is not empty lies in one segment, that of its permissions. -/
  inside : ∀ key s address size, SectionPlaced objects layout key s address size → 0 < size →
    ∃ (i : Nat) (seg : Segment), segments[i]? = some seg ∧ seg.Holds address size ∧
      seg.flags = permission s.kind ∧
      ∀ (j : Nat) (other : Segment), segments[j]? = some other → other.Holds address size → j = i
  pages : ∀ (i j : Nat) (seg other : Segment), segments[i]? = some seg →
    segments[j]? = some other → i ≠ j → ∀ a b, seg.address ≤ a → a < seg.address + seg.memorySize →
      other.address ≤ b → b < other.address + other.memorySize → a / pageSize ≠ b / pageSize
  congruent : ∀ key s address size, SectionPlaced objects layout key s address size →
    s.kind ≠ .bss → ∃ p ∈ layout.sections, p.key = key ∧ p.memoryAddress = address ∧
      p.fileOffset % pageSize = address % pageSize
  files : segments.Pairwise fun s t => s.offset + s.fileSize ≤ t.offset

/-- Some number of a layout does not fit into a word. -/
def Overflows (layout : Layout) (segments : List Segment) : Prop :=
  (∃ p ∈ layout.sections, wordBound ≤ p.memoryAddress + p.memorySize ∨
      wordBound ≤ p.fileOffset + p.memorySize) ∨
    ∃ seg ∈ segments, wordBound ≤ seg.address + seg.memorySize ∨
      wordBound ≤ seg.offset + seg.fileSize

namespace Runs.Describes

variable {r : Runs} {objects : List ObjectFile} {maxBytes : Nat} {layout : Layout}

/-- What is placed is a placement of the layout. -/
theorem placement_of_placed (h : r.Describes objects maxBytes layout) {key : Nat × Nat}
    {s : Section} {address size : Nat} (hs : SectionPlaced objects layout key s address size) :
    ∃ p ∈ layout.sections, PlacementOf s.kind (key, s) p ∧ p.memoryAddress = address ∧
      p.memorySize = size := by
  obtain ⟨p, hp, hof⟩ := h.placement hs.section_
  have hkey : p.key = key := hof.key
  have haddress := h.address hp
  rw [show p.objectIndex = key.1 by rw [← hkey]; rfl,
    show p.sectionIndex = key.2 by rw [← hkey]; rfl, hs.address] at haddress
  have hsize : some p.memorySize = some size := hof.size.symm.trans hs.size
  exact ⟨p, hp, hof, (Option.some.inj haddress).symm, Option.some.inj hsize⟩

theorem placements_apart (h : r.Describes objects maxBytes layout) {p q : SectionPlacement}
    (hp : p ∈ layout.sections) (hq : q ∈ layout.sections) (hne : p ≠ q) :
    p.fileOffset + p.memorySize ≤ q.fileOffset ∨ q.fileOffset + q.memorySize ≤ p.fileOffset := by
  have hpairwise := List.pairwise_map.mp h.ascending.pairwise
  have hsymm : Std.Symm fun a b : SectionPlacement =>
      a.fileOffset + a.memorySize ≤ b.fileOffset ∨ b.fileOffset + b.memorySize ≤ a.fileOffset :=
    ⟨fun _ _ => Or.symm⟩
  have heither : layout.sections.Pairwise fun a b : SectionPlacement =>
      a.fileOffset + a.memorySize ≤ b.fileOffset ∨ b.fileOffset + b.memorySize ≤ a.fileOffset :=
    hpairwise.imp fun h => Or.inl h
  exact heither.forall hp hq hne

/-- The segments follow one another in memory, each on pages of its own. -/
theorem segments_apart (h : r.Describes objects maxBytes layout) :
    (r.segments objects).Pairwise fun s t => s.offset + s.memorySize ≤ t.offset :=
  List.pairwise_map.mp h.segments_ascending.pairwise

end Runs.Describes

theorem isPage_imageBase : pageSize ∣ imageBase := ⟨1024, rfl⟩

/-- Ranges that follow one another have no page in common when the second starts a page. -/
theorem pages_apart {lo mid a b : Nat} (hmid : pageSize ∣ mid) (ha : a < lo) (hlo : lo ≤ mid)
    (hb : mid ≤ b) : a / pageSize ≠ b / pageSize := by
  obtain ⟨q, rfl⟩ := hmid
  have hpos : 0 < pageSize := by decide
  have hlow : a / pageSize < q := (Nat.div_lt_iff_lt_mul hpos).mpr (by rw [Nat.mul_comm]; omega)
  have hhigh : q ≤ b / pageSize := (Nat.le_div_iff_mul_le hpos).mpr (by rw [Nat.mul_comm]; exact hb)
  omega

theorem layoutInvariant {r : Runs} {objects : List ObjectFile} {maxBytes : Nat} {layout : Layout}
    (hr : r.Describes objects maxBytes layout)
    (hvalid : ∀ o ∈ objects, ∀ s ∈ o.sections, s.Valid) :
    LayoutInvariant objects layout (r.segments objects) where
  placed := by
    intro key s hs
    obtain ⟨p, hp, hof⟩ := hr.placement hs
    have hkey : p.key = key := hof.key
    have haddress := hr.address hp
    rw [show p.objectIndex = key.1 by rw [← hkey]; rfl,
      show p.sectionIndex = key.2 by rw [← hkey]; rfl] at haddress
    exact ⟨p.memoryAddress, p.memorySize, hs, haddress, hof.size⟩
  aligned := by
    intro key s address size hs
    obtain ⟨p, -, hof, rfl, -⟩ := hr.placement_of_placed hs
    obtain ⟨o, ho, hsection⟩ := Option.bind_eq_some_iff.mp hs.section_
    have hsvalid := hvalid o (List.mem_of_getElem? ho) s (List.mem_of_getElem? hsection)
    obtain ⟨k, hk, hpow⟩ := hsvalid.align_pow
    obtain ⟨start, hstart⟩ := hof.aligned
    rw [hof.align, hpow] at hstart
    rw [hpow]
    exact (checkedAlignUp_two_pow hk hstart).2.2.1
  disjoint := by
    intro key s address size key' s' address' size' hs hs' hne
    obtain ⟨p, hp, hof, rfl, rfl⟩ := hr.placement_of_placed hs
    obtain ⟨q, hq, hof', rfl, rfl⟩ := hr.placement_of_placed hs'
    have hpq : p ≠ q := by
      rintro rfl
      exact hne (hof.key.symm.trans hof'.key)
    have hapart := hr.placements_apart hp hq hpq
    rw [hof.address, hof'.address]
    omega
  inside := by
    intro key s address size hs hsize
    obtain ⟨p, hp, hof, rfl, rfl⟩ := hr.placement_of_placed hs
    obtain ⟨seg, hseg, hflags, hlo, hhi, -, -⟩ := hr.segment_of hp
    obtain ⟨i, hi⟩ := List.mem_iff_getElem?.mp hseg
    have haddress := (hr.loadable hseg).1
    refine ⟨i, seg, hi, ?_, ?_, fun j other hj hholds => ?_⟩
    · unfold Segment.Holds
      rw [haddress, hof.address]
      omega
    · rw [hflags, hof.kind]
    · have hother := (hr.loadable (List.mem_of_getElem? hj)).1
      unfold Segment.Holds at hholds
      rw [hother, hof.address] at hholds
      have hapart := List.pairwise_iff_getElem.mp hr.segments_apart
      obtain ⟨hi', rfl⟩ := List.getElem?_eq_some_iff.mp hi
      obtain ⟨hj', rfl⟩ := List.getElem?_eq_some_iff.mp hj
      rcases Nat.lt_trichotomy i j with hlt | heq | hlt
      · have hbehind := hapart i j hi' hj' hlt
        omega
      · exact heq.symm
      · have hbehind := hapart j i hj' hi' hlt
        omega
  pages := by
    intro i j seg other hi hj hne a b ha ha' hb hb'
    have hseg := hr.loadable (List.mem_of_getElem? hi)
    have hother := hr.loadable (List.mem_of_getElem? hj)
    have hpage : pageSize ∣ seg.address := hseg.1 ▸ Nat.dvd_add isPage_imageBase hseg.2.1
    have hpage' : pageSize ∣ other.address := hother.1 ▸ Nat.dvd_add isPage_imageBase hother.2.1
    have hapart := List.pairwise_iff_getElem.mp hr.segments_apart
    obtain ⟨hi', rfl⟩ := List.getElem?_eq_some_iff.mp hi
    obtain ⟨hj', rfl⟩ := List.getElem?_eq_some_iff.mp hj
    rw [hseg.1] at ha'
    rw [hother.1] at hb'
    rcases Nat.lt_or_gt_of_ne hne with hlt | hlt
    · have hbehind := hapart i j hi' hj' hlt
      refine pages_apart hpage' ha' ?_ hb
      rw [hother.1]
      omega
    · have hbehind := hapart j i hj' hi' hlt
      refine (pages_apart hpage hb' ?_ ha).symm
      rw [hseg.1]
      omega
  congruent := by
    intro key s address size hs _
    obtain ⟨p, hp, hof, rfl, rfl⟩ := hr.placement_of_placed hs
    refine ⟨p, hp, hof.key, rfl, ?_⟩
    obtain ⟨q, hq⟩ := isPage_imageBase
    rw [hof.address, hq, Nat.mul_add_mod]
  files := by
    refine hr.segments_apart.imp_of_mem fun {a b} ha _ hab => ?_
    have hsize := (hr.loadable ha).2.2.1
    omega

/-- An accepted layout has no number outside the words. -/
theorem not_overflows {r : Runs} {objects : List ObjectFile} {maxBytes : Nat} {layout : Layout}
    (hr : r.Describes objects maxBytes layout) : ¬ Overflows layout (r.segments objects) := by
  have hspace : imageBase + r.bssEnd < wordBound := hr.space.trans_lt (by decide)
  rintro (⟨p, hp, hover⟩ | ⟨seg, hseg, hover⟩)
  · obtain ⟨s, -, hof⟩ := hr.of_placement hp
    have hspan := (hr.ascending.mem (List.mem_map_of_mem hp)).2
    unfold SectionPlacement.span at hspan
    rw [hof.address] at hover
    omega
  · obtain ⟨haddress, -, hsize, -, hend, -⟩ := hr.loadable hseg
    have hlimit : userEnd < wordBound := by decide
    omega

/-- **The executable layout** is that of plain arithmetic, no number of it leaves the words, and
its sections and segments keep apart as they should; a layout with a number outside the words is
rejected. -/
theorem executableLayout_invariant (objects : List ObjectFile) (maxBytes : Nat) :
    (∀ layout segments, executableLayout objects maxBytes = .ok (layout, segments) →
      LayoutInvariant objects layout segments ∧ ¬ Overflows layout segments ∧
        (layout, segments) = exactLayout objects) ∧
    (Overflows (exactLayout objects).1 (exactLayout objects).2 →
      ∃ e, executableLayout objects maxBytes = .error e) := by
  have hall : ∀ layout segments, executableLayout objects maxBytes = .ok (layout, segments) →
      LayoutInvariant objects layout segments ∧ ¬ Overflows layout segments ∧
        (layout, segments) = exactLayout objects := by
    intro layout segments h
    obtain ⟨r, hr, rfl⟩ := executableLayout_spec h
    have hvalid : ∀ o ∈ objects, ∀ s ∈ o.sections, s.Valid := fun o ho =>
      ObjectFile.validate_sections (valid_of_executableLayout h o ho)
    exact ⟨layoutInvariant hr hvalid, not_overflows hr, executableLayout_exact h⟩
  refine ⟨hall, fun hover => ?_⟩
  cases h : executableLayout objects maxBytes with
  | error e => exact ⟨e, rfl⟩
  | ok result =>
      obtain ⟨-, hfits, hexact⟩ := hall result.1 result.2 h
      rw [← hexact] at hover
      exact absurd hover hfits

/-- An object with a section of each kind, one with an alignment beyond a page. -/
def mixedObject : ObjectFile where
  target := ObjectTarget.x86_64WhaleLinux
  sections :=
    [{ name := ".text", kind := .text, zeroFill := 0, align := 16, data := [0xc3] },
      { name := ".bss", kind := .bss, zeroFill := 40, align := 8192, data := [] },
      { name := ".rodata", kind := .readOnlyData, zeroFill := 0, align := 0, data := [1, 2, 3] },
      { name := ".data", kind := .data, zeroFill := 0, align := 8, data := [4, 5] }]
  symbols := []
  relocations := []

theorem executableLayout_invariant_mixedObject :
    ∃ layout segments, executableLayout [mixedObject, mixedObject] 65536 = .ok (layout, segments) ∧
      LayoutInvariant [mixedObject, mixedObject] layout segments := by
  have hok : (executableLayout [mixedObject, mixedObject] 65536).isOk = true := by decide +kernel
  cases h : executableLayout [mixedObject, mixedObject] 65536 with
  | error e =>
      rw [h] at hok
      cases hok
  | ok result =>
      exact ⟨result.1, result.2, rfl,
        ((executableLayout_invariant [mixedObject, mixedObject] 65536).1 _ _ h).1⟩

/-! # Layouts place every section

What relocation needs of a layout: an address for every section, with the whole section below
`2 ^ 64` (`Layout.Places`). Both computations of a layout give that. -/

/-- The section fits behind its address. -/
def FitsAt (s : Section) (address : Nat) : Prop :=
  ∀ n, s.memorySize = some n → address + n < wordBound

/-- Every section has an address at which it fits. -/
def Layout.Places (layout : Layout) (objects : List ObjectFile) : Prop :=
  ∀ (oi si : Nat) (s : Section), sectionAt objects oi si = some s →
    ∃ a, layout.address oi si = some a ∧ FitsAt s a

/-- A layout that `executableLayout` or `Layout.compute` computes. -/
def ComputedLayout (objects : List ObjectFile) (layout : Layout) : Prop :=
  (∃ maxBytes segments, executableLayout objects maxBytes = .ok (layout, segments)) ∨
    ∃ baseAddress, Layout.compute objects baseAddress = .ok layout

/-! ## Executable placement -/

theorem executableLayout_places {objects : List ObjectFile} {maxBytes : Nat} {layout : Layout}
    {segments : List Segment} (h : executableLayout objects maxBytes = .ok (layout, segments)) :
    layout.Places objects := by
  obtain ⟨r, hr, -⟩ := executableLayout_spec h
  have hspace : imageBase + r.bssEnd < wordBound := hr.space.trans_lt (by decide)
  intro oi si s hs
  obtain ⟨p, hp, hof⟩ := hr.placement hs
  obtain ⟨hoi, hsi⟩ := Prod.mk.inj hof.key
  subst hoi hsi
  refine ⟨p.memoryAddress, hr.address hp, fun n hn => ?_⟩
  have hsize := hof.size
  rw [hn, Option.some.injEq] at hsize
  have hspan : p.fileOffset + p.memorySize ≤ r.bssEnd :=
    (hr.ascending.mem (List.mem_map_of_mem hp)).2
  rw [hof.address, hsize]
  omega

/-! ## Placement in input order -/

theorem computeSection_spec {objectIndex : Nat} {c c' : Computing} {e : Section × Nat}
    (h : computeSection objectIndex c e = .ok c') :
    ∃ a, FitsAt e.1 a ∧ c'.offsets = c.offsets ++ [a] ∧
      c'.layout.sectionOffsets = c.layout.sectionOffsets := by
  unfold computeSection at h
  obtain ⟨-, h₁⟩ := require_then_ok_iff.mp h
  obtain ⟨size, hsize, h₂⟩ := bind_ok_iff.mp h₁
  obtain ⟨address, -, h₃⟩ := bind_ok_iff.mp h₂
  obtain ⟨stop, hstop, h₄⟩ := bind_ok_iff.mp h₃
  obtain ⟨fileOffset, -, h₅⟩ := bind_ok_iff.mp h₄
  obtain ⟨fileSize, -, h₆⟩ := bind_ok_iff.mp h₅
  cases h₆
  refine ⟨address, fun n hn => ?_, rfl, rfl⟩
  rw [orThrow_ok_iff, hn, Option.some.injEq] at hsize
  obtain ⟨rfl, hlt⟩ := checkedAdd_eq_some.mp (orThrow_ok_iff.mp hstop)
  rw [hsize]
  exact hlt

theorem computeSections_spec {objectIndex : Nat} {es : List (Section × Nat)} {c c' : Computing}
    (h : es.foldlM (computeSection objectIndex) c = .ok c') :
    ∃ row, List.Forall₂ FitsAt (es.map Prod.fst) row ∧ c'.offsets = c.offsets ++ row ∧
      c'.layout.sectionOffsets = c.layout.sectionOffsets := by
  induction es generalizing c with
  | nil =>
      cases h
      exact ⟨[], .nil, (List.append_nil _).symm, rfl⟩
  | cons e es ih =>
      obtain ⟨mid, hfirst, hrest⟩ := foldlM_cons_ok.mp h
      obtain ⟨a, ha, hoffsets, htable⟩ := computeSection_spec hfirst
      obtain ⟨row, hrow, hoffsets', htable'⟩ := ih hrest
      refine ⟨a :: row, .cons ha hrow, ?_, htable'.trans htable⟩
      rw [hoffsets', hoffsets, List.append_assoc]
      rfl

theorem computeObject_spec {state state' : Layout × Nat} {e : ObjectFile × Nat}
    (h : computeObject state e = .ok state') :
    ∃ row, List.Forall₂ FitsAt e.1.sections row ∧
      state'.1.sectionOffsets = state.1.sectionOffsets ++ [row] := by
  unfold computeObject at h
  obtain ⟨_, -, h₁⟩ := bind_ok_iff.mp h
  obtain ⟨placed, hplaced, h₂⟩ := bind_ok_iff.mp h₁
  cases h₂
  obtain ⟨row, hrow, hoffsets, htable⟩ := computeSections_spec hplaced
  rw [List.zipIdx_map_fst] at hrow
  refine ⟨row, hrow, ?_⟩
  show placed.layout.sectionOffsets ++ [placed.offsets] = _
  rw [htable, hoffsets]
  rfl

theorem computeObjects_spec {es : List (ObjectFile × Nat)} {state state' : Layout × Nat}
    (h : es.foldlM computeObject state = .ok state') :
    ∃ rows, List.Forall₂ (fun (o : ObjectFile) row => List.Forall₂ FitsAt o.sections row)
        (es.map Prod.fst) rows ∧
      state'.1.sectionOffsets = state.1.sectionOffsets ++ rows := by
  induction es generalizing state with
  | nil =>
      cases h
      exact ⟨[], .nil, (List.append_nil _).symm⟩
  | cons e es ih =>
      obtain ⟨mid, hfirst, hrest⟩ := foldlM_cons_ok.mp h
      obtain ⟨row, hrow, htable⟩ := computeObject_spec hfirst
      obtain ⟨rows, hrows, htable'⟩ := ih hrest
      refine ⟨row :: rows, .cons hrow hrows, ?_⟩
      rw [htable', htable, List.append_assoc]
      rfl

theorem compute_places {objects : List ObjectFile} {baseAddress : Nat} {layout : Layout}
    (h : Layout.compute objects baseAddress = .ok layout) : layout.Places objects := by
  unfold Layout.compute at h
  obtain ⟨⟨computed, memoryEnd⟩, hcomputed, h₁⟩ := bind_ok_iff.mp h
  cases h₁
  obtain ⟨rows, hrows, htable⟩ := computeObjects_spec hcomputed
  rw [List.zipIdx_map_fst] at hrows
  intro oi si s hs
  obtain ⟨o, ho, hsection⟩ := Option.bind_eq_some_iff.mp hs
  obtain ⟨row, hrow, hfits⟩ := forall₂_getElem? hrows ho
  obtain ⟨a, ha, hfit⟩ := forall₂_getElem? hfits hsection
  refine ⟨a, ?_, hfit⟩
  show computed.sectionOffsets[oi]? >>= (·[si]?) = some a
  rw [htable, List.nil_append, hrow]
  exact ha

theorem ComputedLayout.places {objects : List ObjectFile} {layout : Layout}
    (h : ComputedLayout objects layout) : layout.Places objects := by
  rcases h with ⟨maxBytes, segments, hlayout⟩ | ⟨baseAddress, hlayout⟩
  · exact executableLayout_places hlayout
  · exact compute_places hlayout

end Whale.Linker
