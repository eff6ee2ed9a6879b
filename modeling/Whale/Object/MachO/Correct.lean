import Whale.Object.MachO.Emit
import Whale.Object.MachO.Symbols

set_option autoImplicit false

/-! # Mach-O objects are read as they were written

Every part of the file is where the headers say it is, and reading it gives back what the
format has of the object (`read_write`). -/

namespace Whale.MachO

/-! ## Headers -/

/-- The header and the commands lie around the section headers and the index of the first local
symbol. -/
theorem mem_headers {l : Headers.FileLayout} {w : Nat × List UInt8} (h : w ∈ Headers.parts l) :
    (w.1 + w.2.length ≤ 104 ∨
      104 + l.sections * 80 ≤ w.1 ∧ w.1 + w.2.length ≤ 232 + l.sections * 80) ∧
    (w.1 + w.2.length ≤ 104 + l.sections * 80 + 32 ∨ 104 + l.sections * 80 + 36 ≤ w.1) := by
  revert w
  simp only [Headers.parts, List.forall_mem_cons, length_leBytes]
  and_intros
  all_goals first | omega | exact fun w hw => absurd hw List.not_mem_nil

theorem inOrder_headers (l : Headers.FileLayout) : InOrder (Headers.parts l) := by
  simp only [InOrder, Headers.parts, Precedes, length_leBytes, List.isChain_cons_cons,
    List.isChain_singleton, and_true]
  omega

/-- The first local symbol is the first symbol; nothing is written there. -/
theorem notWritten_localIndex {l : Headers.FileLayout} {k : Nat}
    (h : Written (Headers.parts l) k) :
    k < 104 + l.sections * 80 + 24 + 8 ∨ 104 + l.sections * 80 + 24 + 12 ≤ k := by
  obtain ⟨w, hw, h₁, h₂⟩ := h
  have hapart := (mem_headers hw).2
  omega

/-- What the header and the commands say. -/
structure HeaderHolds (out : List UInt8) (l : Headers.FileLayout) : Prop where
  parts : ∀ w ∈ Headers.parts l, Holds out w.1 w.2
  localIndex : Holds out (104 + l.sections * 80 + 24 + 8) (List.replicate 4 0)

/-- The position belongs to the header or to a command. -/
def InHeader (n k : Nat) : Prop := k < 104 ∨ 104 + n * 80 ≤ k ∧ k < 232 + n * 80

theorem file_ok {n : Nat} (l : Headers.FileLayout) (h : 232 + l.sections * 80 ≤ n) :
    SameOutside (InHeader l.sections) (List.replicate n 0) (Headers.file (List.replicate n 0) l) ∧
      HeaderHolds (Headers.file (List.replicate n 0) l) l := by
  have hfits : ∀ w ∈ Headers.parts l, w.1 + w.2.length ≤ (List.replicate n (0 : UInt8)).length := by
    intro w hw
    rw [List.length_replicate]
    rcases (mem_headers hw).1 with hle | ⟨-, hle⟩ <;> omega
  have hframe := frame_writes hfits
  refine ⟨hframe.mono fun k hk => ?_, holds_writes hfits (inOrder_headers l), ?_⟩
  · obtain ⟨w, hw, h₁, h₂⟩ := hk
    unfold InHeader
    rcases (mem_headers hw).1 with hle | ⟨hlow, hle⟩ <;> omega
  · have hzero : Holds (List.replicate n (0 : UInt8)) (104 + l.sections * 80 + 24 + 8)
        (List.replicate 4 0) := Holds.replicate (by omega)
    refine hzero.frame hframe fun k h₁ h₂ hk => ?_
    rw [List.length_replicate] at h₂
    rcases notWritten_localIndex hk with hlow | hhigh <;> omega

theorem HeaderHolds.frame {out out' : List UInt8} {l : Headers.FileLayout}
    {touched : Nat → Prop} (h : HeaderHolds out l) (hframe : SameOutside touched out out')
    (hout : ∀ k, InHeader l.sections k → ¬ touched k) : HeaderHolds out' l where
  parts := fun w hw => (h.parts w hw).frame hframe fun k h₁ h₂ => hout k (by
    unfold InHeader
    rcases (mem_headers hw).1 with hle | ⟨hlow, hle⟩ <;> omega)
  localIndex := h.localIndex.frame hframe fun k h₁ h₂ => hout k (by
    rw [List.length_replicate] at h₂
    unfold InHeader
    omega)

/-- The numbers of the layout fit their fields. -/
structure Headers.FileLayout.Bounded (l : Headers.FileLayout) : Prop where
  sections : l.sections ≤ 255
  symbols : l.symbols < 2 ^ 32
  count : l.count < 2 ^ 32
  strings : l.strings < 2 ^ 32
  stringSize : l.stringSize < 2 ^ 32
  groups : l.groups.1 + l.groups.2.1 + l.groups.2.2 = l.count

/-- The fields of the header and the commands that are read. -/
structure HeaderFields (out : List UInt8) (l : Headers.FileLayout) : Prop where
  magic : field out 0 4 = 0xfeedfacf
  machine : field out 4 4 = if l.machine = .x86_64 then 0x01000007 else 0x0100000c
  fileType : field out 12 4 = 1
  commands : readCommands out (field out 16 4) 32 =
    some [(0x19, 32), (2, 104 + l.sections * 80), (0xb, 104 + l.sections * 80 + 24),
      (0x32, 104 + l.sections * 80 + 24 + 80)]
  sections : field out (32 + 64) 4 = l.sections
  symbols : field out (104 + l.sections * 80 + 8) 4 = l.symbols
  count : field out (104 + l.sections * 80 + 12) 4 = l.count
  strings : field out (104 + l.sections * 80 + 16) 4 = l.strings
  stringSize : field out (104 + l.sections * 80 + 20) 4 = l.stringSize
  localIndex : field out (104 + l.sections * 80 + 24 + 8) 4 = 0
  locals : field out (104 + l.sections * 80 + 24 + 12) 4 = l.groups.1
  definedIndex : field out (104 + l.sections * 80 + 24 + 16) 4 = l.groups.1
  defined : field out (104 + l.sections * 80 + 24 + 20) 4 = l.groups.2.1
  undefinedIndex : field out (104 + l.sections * 80 + 24 + 24) 4 = l.groups.1 + l.groups.2.1
  undefined : field out (104 + l.sections * 80 + 24 + 28) 4 = l.groups.2.2

theorem HeaderHolds.fields {out : List UInt8} {l : Headers.FileLayout} (h : HeaderHolds out l)
    (hb : l.Bounded) : HeaderFields out l := by
  have hsections := hb.sections
  have hcount := hb.count
  have hgroups := hb.groups
  have hparts := h.parts
  unfold Headers.parts at hparts
  simp only [List.forall_mem_cons] at hparts
  obtain ⟨hmagic, hmachine, -, htype, hcommands, -, hsegment, hsegmentSize, -, -, -, -, -, hnumber,
    hsymtab, hsymtabSize, hsymbols, hsymbolCount, hstrings, hstringSize, hdysymtab, hdysymtabSize,
    hlocals, hdefinedIndex, hdefined, hundefinedIndex, hundefined, hbuild, hbuildSize, -, -⟩ :=
    hparts
  have hzero : Holds out (104 + l.sections * 80 + 24 + 8) (leBytes 4 0) := h.localIndex
  -- The commands, each behind the one before it.
  have hwalk : readCommands out (field out 16 4) 32 =
      some [(0x19, 32), (2, 104 + l.sections * 80), (0xb, 104 + l.sections * 80 + 24),
        (0x32, 104 + l.sections * 80 + 24 + 80)] := by
    have hsize := hsegmentSize.field (by omega)
    have hnext : 32 + (72 + l.sections * 80) = 104 + l.sections * 80 := by omega
    rw [hcommands.field (by decide)]
    simp only [readCommands]
    rw [hsize, if_neg (by omega), hnext, hsymtabSize.field (by decide), if_neg (by decide),
      hdysymtabSize.field (by decide), if_neg (by decide), hbuildSize.field (by decide),
      if_neg (by decide), hsegment.field (by decide), hsymtab.field (by decide),
      hdysymtab.field (by decide), hbuild.field (by decide)]
    rfl
  exact {
    magic := hmagic.field (by decide)
    machine := hmachine.field (by split <;> decide)
    fileType := htype.field (by decide)
    commands := hwalk
    sections := hnumber.field (by omega)
    symbols := hsymbols.field hb.symbols
    count := hsymbolCount.field hb.count
    strings := hstrings.field hb.strings
    stringSize := hstringSize.field hb.stringSize
    localIndex := hzero.field (by decide)
    locals := hlocals.field (by omega)
    definedIndex := hdefinedIndex.field (by omega)
    defined := hdefined.field (by omega)
    undefinedIndex := hundefinedIndex.field (by omega)
    undefined := hundefined.field (by omega) }

/-! ## Relocations -/

/-- The table has at most `2 ^ 24` entries, one for each name. -/
structure IndexOf (names : List String) (indices : AssocMap String Nat) : Prop where
  few : names.length ≤ 2 ^ 24
  known : ∀ name ∈ names, ∃ i, indices.get name = some i ∧ names[i]? = some name

theorem readRelocation_ok {o : ObjectFile} {indices : AssocMap String Nat}
    {out data field' : List UInt8} {at' : Nat} {r : ObjectRelocation} {e : Nat × Nat}
    (hindex : IndexOf (symbolNames o) indices) (hknown : r.symbol ∈ symbolNames o)
    (h : RecordHolds o.target.machine indices out at' r) (hoffset : r.offset < 2 ^ 31)
    (henc : r.kind.machEncoding o.target.machine = some e) (hlength : field'.length = e.2)
    (hfield : Holds data r.offset field') (haddend : HoldsAddend o.target.machine r e field') :
    ∃ i, readRelocation o.target.machine out data at' = some i ∧ RelocationMatches o r i := by
  obtain ⟨e', henc', hoffsetHolds, hword⟩ := h
  cases henc.symm.trans henc'
  obtain ⟨index, hget, hname⟩ := hindex.known _ hknown
  rw [hget] at hword
  have hlt := (List.getElem?_eq_some_iff.mp hname).1
  have hfew := hindex.few
  obtain ⟨hpos, hwidth, hcode⟩ := machEncoding_width henc
  obtain ⟨hbound, hsymbol, hpc, hlog, hmark, htype⟩ :=
    @read_word index e.1 (decide (e.1 ≠ 0)) e.2 (by omega) hcode
  have hoffsetField := hoffsetHolds.field (by omega)
  have hwordField := hword.field hbound
  have hread : readAddend o.target.machine e.1 (widthLog e.2) (decide (e.1 ≠ 0))
      (data.drop r.offset) = some r.addend.toInt := by
    refine haddend _ ?_
    have hslice := hfield.2
    rw [hlength] at hslice
    unfold slice at hslice ⊢
    rwa [List.drop_zero]
  refine ⟨⟨r.offset, index, e.1, decide (e.1 ≠ 0), widthLog e.2, r.addend.toInt⟩, ?_, ?_⟩
  · unfold readRelocation
    have hplain : r.offset.testBit 31 = false := Nat.testBit_lt_two_pow hoffset
    rw [hoffsetField, hwordField]
    dsimp only [Option.getD_some]
    rw [hmark, hplain, if_neg (by simp), htype, hlog, hpc, hsymbol, hread]
    rfl
  · exact ⟨rfl, hname, by rw [henc, ← hwidth], rfl, rfl⟩

/-! ## The relocations of a section -/

/-- What the checks of the writer say of every relocation. -/
structure RelocationsChecked (o : ObjectFile) : Prop where
  valid : o.Valid
  format : o.target.format = .machO64
  encodings : ∀ r ∈ o.relocations, r.offset < 2 ^ 31 ∧
    ∃ e, r.kind.machEncoding o.target.machine = some e
  apart : o.relocations.Pairwise fun a b =>
    a.sectionIndex = b.sectionIndex → Apart o.target.machine a b

theorem apart_of_ranges {machine : Machine} {relocations : List ObjectRelocation}
    {ranges : List FieldRange}
    (hfields : List.Forall₂ (fun r range => occupiedField machine r = .ok range) relocations ranges)
    (hranges : ranges.Pairwise FieldsApart) :
    relocations.Pairwise fun a b => a.sectionIndex = b.sectionIndex → Apart machine a b := by
  induction hfields with
  | nil => exact .nil
  | @cons a range as ranges ha hrest ih =>
      obtain ⟨hfirst, htail⟩ := List.pairwise_cons.mp hranges
      refine List.pairwise_cons.mpr ⟨fun b hb hsection e e' he he' => ?_, ih htail⟩
      obtain ⟨range', hmem, hb'⟩ := exists_of_forall₂ hrest hb
      obtain ⟨_, h₁, h₂⟩ := bind_ok_iff.mp ha
      obtain ⟨_, -, h₃⟩ := bind_ok_iff.mp h₂
      obtain ⟨_, h₄, h₅⟩ := bind_ok_iff.mp hb'
      obtain ⟨_, -, h₆⟩ := bind_ok_iff.mp h₅
      cases (orThrow_ok_iff.mp h₁).symm.trans he
      cases (orThrow_ok_iff.mp h₄).symm.trans he'
      cases h₃
      cases h₆
      exact hfirst _ hmem hsection

theorem relocationsChecked {o : ObjectFile} {occupied : List FieldRange} (hvalid : o.Valid)
    (hformat : o.target.format = .machO64)
    (h : o.relocations.mapM (occupiedField o.target.machine) = .ok occupied)
    (hdisjoint : neighboursDisjoint (occupied.insertionSort FieldLe) = true) :
    RelocationsChecked o where
  valid := hvalid
  format := hformat
  encodings := fun r hr => by
    obtain ⟨range, -, hrange⟩ := exists_of_forall₂ (mapM_ok h) hr
    obtain ⟨e, henc, h₁⟩ := bind_ok_iff.mp hrange
    obtain ⟨_, hoffset, -⟩ := bind_ok_iff.mp h₁
    exact ⟨require_ok_iff.mp hoffset, e, orThrow_ok_iff.mp henc⟩
  apart := apart_of_ranges (mapM_ok h) (pairwise_apart hdisjoint)

theorem records_perm (o : ObjectFile) (index : Nat) :
    (records o index).Perm (o.relocations.filter (·.sectionIndex = index)) :=
  List.perm_insertionSort _ _

theorem mem_records {o : ObjectFile} {index : Nat} {r : ObjectRelocation} :
    r ∈ records o index ↔ r ∈ o.relocations ∧ r.sectionIndex = index := by
  rw [(records_perm o index).mem_iff, List.mem_filter, decide_eq_true_eq]

theorem Apart.symm {machine : Machine} {a b : ObjectRelocation} (h : Apart machine a b) :
    Apart machine b a := fun e e' he he' => (h e' e he' he).symm

namespace RelocationsChecked

variable {o : ObjectFile} {index : Nat} {s : Section}

theorem records_apart (h : RelocationsChecked o) (index : Nat) :
    (records o index).Pairwise (Apart o.target.machine) := by
  refine (records_perm o index).symm.pairwise ?_ fun hab => hab.symm
  refine (h.apart.filter _).imp_of_mem fun {a b} ha hb hab => hab ?_
  have ha' := of_decide_eq_true (List.mem_filter.mp ha).2
  have hb' := of_decide_eq_true (List.mem_filter.mp hb).2
  rw [ha', hb']

/-- Fields that do not overlap do not start together. -/
theorem records_descending (h : RelocationsChecked o) (index : Nat) :
    (records o index).Pairwise fun a b => b.offset < a.offset := by
  have htotal : ∀ a b : ObjectRelocation, b.offset ≤ a.offset ∨ a.offset ≤ b.offset :=
    fun a b => Nat.le_total _ _
  have hsorted : (records o index).Pairwise fun a b => b.offset ≤ a.offset := by
    have : Std.Total fun a b : ObjectRelocation => b.offset ≤ a.offset := ⟨htotal⟩
    have : IsTrans ObjectRelocation fun a b => b.offset ≤ a.offset :=
      ⟨fun a b c h₁ h₂ => Nat.le_trans h₂ h₁⟩
    exact List.pairwise_insertionSort _ _
  refine (hsorted.and (h.records_apart index)).imp_of_mem fun {a b} ha hb hab => ?_
  obtain ⟨-, e, he⟩ := h.encodings a (mem_records.mp ha).1
  obtain ⟨-, e', he'⟩ := h.encodings b (mem_records.mp hb).1
  have hdisjoint := hab.2 e e' he he'
  have hwidth := (machEncoding_width he).1
  have hwidth' := (machEncoding_width he').1
  have hle := hab.1
  omega

/-- The fields of the relocations of a section lie in its data. -/
theorem inside (h : RelocationsChecked o) (hs : o.sections[index]? = some s) :
    ∀ r ∈ records o index, ¬ NoData s ∧
      ∀ e, r.kind.machEncoding o.target.machine = some e → r.offset + e.2 ≤ s.data.length := by
  intro r hr
  obtain ⟨hmem, hsection⟩ := mem_records.mp hr
  obtain ⟨-, s', hs', hkind, e, he, hend⟩ := h.valid.relocations r hmem
  rw [hsection, hs] at hs'
  cases hs'
  have hencoding : r.kind.encoding o.target = r.kind.machEncoding o.target.machine := by
    unfold RelocKind.encoding
    rw [h.format]
  rw [hencoding] at he
  refine ⟨?_, fun e' he' => ?_⟩
  · rintro (hbss | hnil)
    · exact hkind hbss
    · have hwidth := (machEncoding_width he).1
      rw [hnil] at hend
      simp only [List.length_nil] at hend
      omega
  · cases he.symm.trans he'
    exact hend

end RelocationsChecked

/-! ## Sections -/

theorem zero_notMem_segment (kind : SectionKind) :
    (0 : UInt8) ∉ asBytes (Sections.segment kind) := by
  cases kind <;> decide

theorem length_segment (kind : SectionKind) :
    (asBytes (Sections.segment kind)).length ≤ 16 := by
  cases kind <;> decide

/-- A text in a field of 16 bytes is read back. -/
theorem untilZero_of_holds {out bs : List UInt8} {k : Nat} (h : Holds out k (padded bs))
    (hlength : bs.length ≤ 16) (hzero : (0 : UInt8) ∉ bs) : untilZero (slice out k 16) = bs := by
  have hslice := h.2
  rw [length_padded hlength] at hslice
  rw [hslice]
  exact untilZero_padded _ hzero

/-- What is read of the section at `index` besides what the object says. -/
structure SectionPlaced (s : Section) (l : Sections.Layout) (e : ImageSection) : Prop where
  address : e.address = l.address
  size : e.size = l.size
  offset : e.offset = l.data
  data : e.data ≠ [] → ¬ NoData s ∧ e.data.length = s.data.length

theorem readSection_ok {o : ObjectFile} {indices : AssocMap String Nat} {out : List UInt8}
    {index memory memory' lo hi dataEnd stop : Nat} {s : Section} {l : Sections.Layout}
    (hchecked : RelocationsChecked o) (hindex : IndexOf (symbolNames o) indices)
    (hknown : ∀ r ∈ o.relocations, r.symbol ∈ symbolNames o)
    (hs : o.sections[index]? = some s) (hplanned : Planned memory memory' lo hi s l)
    (hmemory : memory' < 2 ^ 64) (hhi : hi < 2 ^ 32) (hstop : stop < 2 ^ 32)
    (hrelocs : l.relocs ≤ stop) (hfits : Fits dataEnd stop index s l (records o index))
    (h : SectionHolds o.target.machine indices out index s l (records o index)) :
    ∃ e, readSection o.target.machine out (104 + 80 * index) = some e ∧
      SectionMatches o index s e ∧ SectionPlaced s l e := by
  have hnumbers := h.numbers
  unfold Sections.parts at hnumbers
  simp only [List.forall_mem_cons] at hnumbers
  obtain ⟨haddress, hsize, hdata, halign, hrelocations, hcount, hflags, -⟩ := hnumbers
  have hheader : 104 + index * 80 = 104 + 80 * index := by omega
  rw [hheader] at haddress hsize hdata halign hrelocations hcount hflags
  have hname := h.name
  have hsegment := h.segment
  rw [hheader] at hname hsegment
  obtain ⟨-, haddressBound⟩ := hplanned.address
  obtain ⟨hflagsBound, hkind⟩ := hplanned.flags
  obtain ⟨hpow, halignBound⟩ := hplanned.align
  have hcountEq := hfits.count
  have hdataBound : l.data < 2 ^ 32 := by
    by_cases hno : NoData s
    · rw [hplanned.noData hno]
      decide
    · have hle := (hplanned.data hno).2
      omega
  have hcountBound : l.count < 2 ^ 32 := by
    by_cases hnone : records o index = []
    · rw [hcountEq, hnone]
      decide
    · obtain ⟨-, -, hend⟩ := hfits.relocs hnone
      omega
  have hnameRead := untilZero_of_holds hname hplanned.nameLength
    (zero_notMem_asBytes hplanned.nameZero)
  have hsegmentRead : untilZero (slice out (104 + 80 * index + 16) 16) = asBytes l.segment := by
    rw [hplanned.segment] at hsegment ⊢
    exact untilZero_of_holds hsegment (length_segment _) (zero_notMem_segment _)
  -- The data in the file, with the relocations in it.
  obtain ⟨data, hdataRead, hdataLength, hdataOutside, hdataFields, hdataNone⟩ :
      ∃ data : List UInt8, (if s.kind = .bss then [] else slice out l.data l.size) = data ∧
        data.length = s.fileSize ∧
        (s.kind ≠ .bss → ∀ k, ¬ Relocated o index k → data[k]? = s.data[k]?) ∧
        (∀ r ∈ records o index, ∃ e field, r.kind.machEncoding o.target.machine = some e ∧
          field.length = e.2 ∧ Holds data r.offset field ∧
            HoldsAddend o.target.machine r e field) ∧
        (data ≠ [] → ¬ NoData s ∧ data.length = s.data.length) := by
    by_cases hno : NoData s
    · have hnone : records o index = [] := by
        refine List.eq_nil_iff_forall_not_mem.mpr fun r hr => ?_
        exact (hchecked.inside hs r hr).1 hno
      refine ⟨[], ?_, ?_, fun hbss k _ => ?_, fun r hr => ?_, fun hne => absurd rfl hne⟩
      · by_cases hbss : s.kind = .bss
        · rw [if_pos hbss]
        · have hlength := memorySize_data hplanned.size hbss
          rw [if_neg hbss, hlength, hno.resolve_left hbss]
          exact slice_zero _ _
      · unfold Section.fileSize
        rcases hno with hbss | hnil
        · rw [if_pos hbss]
          rfl
        · rw [hnil]
          split <;> rfl
      · rw [hno.resolve_left hbss]
      · rw [hnone] at hr
        cases hr
    · have hbss : s.kind ≠ .bss := fun hb => hno (.inl hb)
      obtain ⟨d, hpatches, hlength, hholds⟩ := h.data hno
      obtain ⟨hframe, hfields⟩ := hpatches.spec (fun r hr => (hchecked.inside hs r hr).2)
        (hchecked.records_apart index)
      refine ⟨d, ?_, ?_, fun _ k hk => ?_, hfields, fun _ => ⟨hno, hlength⟩⟩
      · rw [if_neg hbss, memorySize_data hplanned.size hbss, ← hlength]
        exact hholds.2
      · unfold Section.fileSize
        rw [if_neg hbss, hlength]
      · refine hframe.agree k ?_
        rintro ⟨r, hr, e, he, hin⟩
        obtain ⟨hmem, hsection⟩ := mem_records.mp hr
        exact hk ⟨r, hmem, hsection, e, he, hin⟩
  -- The relocations, one after the other.
  have hreadRelocation : ∀ n ∈ List.range (records o index).length, ∃ e,
      readRelocation o.target.machine out data (l.relocs + 8 * n) = some e ∧
        ∀ r, (records o index)[n]? = some r → RelocationMatches o r e := by
    intro n hn
    have hget := List.getElem?_eq_getElem (List.mem_range.mp hn)
    have hmem := List.getElem_mem (List.mem_range.mp hn)
    obtain ⟨e, field', henc, hlength, hfield, haddend⟩ := hdataFields _ hmem
    have hrecord := h.records n _ hget
    rw [Nat.mul_comm] at hrecord
    obtain ⟨i, hread, hmatch⟩ := readRelocation_ok hindex (hknown _ (mem_records.mp hmem).1)
      hrecord (hchecked.encodings _ (mem_records.mp hmem).1).1 henc hlength hfield haddend
    refine ⟨i, hread, fun r hr => ?_⟩
    rw [hget] at hr
    cases hr
    exact hmatch
  obtain ⟨es, hmap, hall⟩ := mapM_some hreadRelocation
  refine ⟨{ name := asBytes l.name, segment := asBytes l.segment, kind := s.kind
            address := l.address, size := l.size, align := l.alignment, offset := l.data
            data := data, relocations := es }, ?_, ?_, rfl, rfl, rfl, hdataNone⟩
  · unfold readSection
    rw [hsegmentRead, hflags.field hflagsBound]
    dsimp only
    rw [hkind]
    dsimp only [Option.bind_eq_bind, Option.bind_some]
    rw [hsize.field (by omega), hdata.field hdataBound, hcount.field hcountBound, hcountEq,
      hrelocations.field (by omega), hdataRead, hmap, hnameRead, haddress.field (by omega),
      halign.field (by omega)]
    rfl
  · exact {
      name := congrArg asBytes hplanned.name
      segment := congrArg asBytes hplanned.segment
      kind := rfl
      size := hplanned.size
      align := hpow
      aligned := hplanned.aligned
      length := hdataLength
      data := hdataOutside
      relocations := ⟨records o index, records_perm o index, hchecked.records_descending index,
        forall₂_of_range hall⟩ }

/-! ## Symbols -/

theorem field_byte {out : List UInt8} {k : Nat} {b : UInt8} (h : Holds out k [b]) :
    field out k 1 = b.toNat := by
  have hslice : slice out k 1 = [b] := h.2
  rw [field, hslice]
  simp [leValue]

/-- The section and the mark of a symbol are read from its type and its section number. -/
theorem readPlace_type {sectionIndex : Option Nat} {external : Bool} {type number : UInt8}
    (hsection : ∀ i, sectionIndex = some i → i < 255)
    (htype : type = (if sectionIndex = none then 0 else 0x0e) ||| (if external then 1 else 0))
    (hnumber : number = UInt8.ofNat (sectionIndex.elim 0 (· + 1))) :
    readPlace type.toNat number.toNat = some sectionIndex ∧ type.toNat.testBit 0 = external := by
  cases sectionIndex with
  | none =>
      subst htype hnumber
      cases external <;> decide
  | some i =>
      have hlt := hsection i rfl
      have hplace : number.toNat = i + 1 := by
        rw [hnumber]
        show (UInt8.ofNat (i + 1)).toNat = i + 1
        rw [UInt8.toNat_ofNat', Nat.mod_eq_of_lt (by omega)]
      have hmask : type.toNat / 2 % 128 = 7 ∧ type.toNat.testBit 0 = external := by
        rw [htype, if_neg (fun hnone => nomatch hnone)]
        cases external <;> decide
      refine ⟨?_, hmask.2⟩
      unfold readPlace
      rw [hmask.1, hplace, if_neg (by decide), if_pos rfl, if_neg (Nat.succ_ne_zero i)]
      rfl

theorem readSymbol_ok {out table : List UInt8} {at' v : Nat} {e s : Symbols.Symbol}
    (hnamed : Symbols.Named table e s) (hzero : '\x00' ∉ s.name.toList)
    (hsection : ∀ i, s.sectionIndex = some i → i < 255) (htable : table.length ≤ 2 ^ 32)
    (hvalue : v < 2 ^ 64) (h : ∀ w ∈ Symbols.parts at' e v, Holds out w.1 w.2) :
    readSymbol out table at' = some { name := asBytes s.name, sectionIndex := s.sectionIndex
                                      value := v, external := s.global } := by
  have hsame : e.sectionIndex = s.sectionIndex ∧ e.global = s.global := by
    have hrecord := hnamed.same
    constructor <;> rw [hrecord]
  unfold Symbols.parts at h
  simp only [List.forall_mem_cons] at h
  obtain ⟨hname, htype, hnumber, hvalueHolds, -⟩ := h
  have hbound := hnamed.bound
  obtain ⟨rest, hrest⟩ := hnamed.text
  have htext : stringAt table e.string = some (asBytes s.name) := by
    unfold stringAt
    rw [hrest]
    exact cString_append (zero_notMem_asBytes hzero)
  rw [hsame.1, hsame.2] at htype
  rw [hsame.1] at hnumber
  obtain ⟨hplace, hexternal⟩ := readPlace_type hsection rfl rfl
  unfold readSymbol
  rw [hname.field (by omega), htext, field_byte htype, field_byte hnumber, hplace, hexternal,
    hvalueHolds.field hvalue]
  rfl

theorem value_ok {layouts : List Sections.Layout} {s : Symbols.Symbol} {v : Nat}
    (h : Symbols.value layouts s = .ok v) :
    v < 2 ^ 64 ∧ v = s.sectionIndex.elim 0 fun i =>
      (layouts[i]?.elim 0 Sections.Layout.address) + s.value.toNat := by
  unfold Symbols.value at h
  cases hsection : s.sectionIndex with
  | none =>
      rw [hsection] at h
      cases h
      exact ⟨by decide, rfl⟩
  | some i =>
      rw [hsection] at h
      obtain ⟨hsum, hbound⟩ := checkedAdd_eq_some.mp (orThrow_ok_iff.mp h)
      refine ⟨hbound, hsum.symm.trans ?_⟩
      show _ = (layouts[i]?.elim 0 Sections.Layout.address) + s.value.toNat
      cases layouts[i]? <;> rfl

/-- An entry as the format has it. -/
def entryImage (sections : List ImageSection) (s : Symbols.Symbol) : ImageSymbol where
  name := asBytes s.name
  sectionIndex := s.sectionIndex
  value := s.sectionIndex.elim 0 fun i =>
    (sections[i]?.elim 0 ImageSection.address) + s.value.toNat
  external := s.global

theorem map_entryImage (o : ObjectFile) (sections : List ImageSection) :
    (Symbols.ordered o).map (entryImage sections) =
      (localSymbols o).map (symbolImage sections) ++
        (definedSymbols o).map (symbolImage sections) ++
          ((undefinedSymbols o).map (symbolImage sections) ++
            (undeclared o).map undefinedImage) := by
  unfold Symbols.ordered
  simp only [List.map_append, List.map_map]
  rfl

/-- The symbols that are put out come from the object or from a relocation. -/
theorem mem_ordered {o : ObjectFile} {s : Symbols.Symbol} (h : s ∈ Symbols.ordered o) :
    (∃ s' ∈ o.symbols, s = Symbols.entry s') ∨
      ∃ r ∈ o.relocations, s = Symbols.undefinedSymbol r.symbol := by
  unfold Symbols.ordered at h
  simp only [List.mem_append, List.mem_map] at h
  rcases h with (⟨s', hs', rfl⟩ | ⟨s', hs', rfl⟩) | ⟨s', hs', rfl⟩ | ⟨name, hname, rfl⟩
  · exact .inl ⟨s', (List.mem_filter.mp hs').1, rfl⟩
  · exact .inl ⟨s', (List.mem_filter.mp hs').1, rfl⟩
  · exact .inl ⟨s', (List.mem_filter.mp hs').1, rfl⟩
  · obtain ⟨r, hr, rfl⟩ := List.mem_map.mp (mem_newNames.mp hname).1
    exact .inr ⟨r, hr, rfl⟩

theorem mem_symbolNames {o : ObjectFile} {r : ObjectRelocation} (h : r ∈ o.relocations) :
    r.symbol ∈ symbolNames o := by
  unfold symbolNames undeclared
  rw [List.mem_append, mem_newNames]
  by_cases hknown : r.symbol ∈ o.symbols.map ObjectSymbol.name
  · left
    obtain ⟨s, hs, hname⟩ := List.mem_map.mp hknown
    rw [← hname]
    refine List.mem_map_of_mem ?_
    simp only [List.mem_append, localSymbols, definedSymbols, undefinedSymbols, List.mem_filter]
    cases hsection : s.sectionIndex with
    | none => exact .inr ⟨hs, rfl⟩
    | some i =>
        by_cases hbinding : s.binding = .global
        · exact .inl (.inr ⟨hs, by simp [hbinding]⟩)
        · exact .inl (.inl ⟨hs, by simp [hbinding]⟩)
  · exact .inr ⟨List.mem_map_of_mem h, hknown⟩

/-! ## The whole file -/

/-- The layouts put every section of the object into its own part of the file: the headers end
at `start`, the data at `dataEnd` and the relocations at `stop`. -/
structure LaidOut (o : ObjectFile) (memory start dataEnd stop : Nat)
    (layouts : List Sections.Layout) : Prop where
  length : layouts.length = o.sections.length
  headers : start = 232 + o.sections.length * 80
  startLe : start ≤ dataEnd
  dataLe : dataEnd ≤ stop
  bound : stop < 2 ^ 32
  memoryBound : memory < 2 ^ 64
  planned : ∀ (i : Nat) (s : Section) (l : Sections.Layout), o.sections[i]? = some s →
    layouts[i]? = some l → Planned 0 memory start dataEnd s l
  before : ∀ (i j : Nat) (s s' : Section) (l l' : Sections.Layout), i < j →
    o.sections[i]? = some s → o.sections[j]? = some s' → layouts[i]? = some l →
      layouts[j]? = some l' → Before (s, l) (s', l')
  fits : ∀ (i : Nat) (s : Section) (l : Sections.Layout), o.sections[i]? = some s →
    layouts[i]? = some l → Fits dataEnd stop i s l (records o i)
  relocsLe : ∀ (i : Nat) (l : Sections.Layout), layouts[i]? = some l → l.relocs ≤ stop
  relocs : ∀ (i j : Nat) (l l' : Sections.Layout), i < j → layouts[i]? = some l →
    layouts[j]? = some l' → records o i ≠ [] → records o j ≠ [] →
      l.relocs + (records o i).length * 8 ≤ l'.relocs

theorem laidOut_of_plan {o : ObjectFile} {limit start relocations : Nat} {p : SectionPlans}
    {placed : List Sections.Layout × Nat} (hchecked : RelocationsChecked o)
    (hlimit : limit < 2 ^ 32) (hstart : start = 232 + o.sections.length * 80 ∧ start ≤ limit)
    (hplans : planSections limit o.sections [] 0 start = .ok p)
    (hrelocations : p.cursor ≤ relocations ∧ relocations ≤ limit)
    (hplaced : planRelocations o limit p.layouts 0 relocations = .ok placed) :
    LaidOut o p.memory start p.cursor placed.2 placed.1 := by
  obtain ⟨hall, hpairs, -, hmemory, hcursor, hcursorLe⟩ :=
    planSections_ok hplans hstart.2 (by decide)
  obtain ⟨hstop, hstopLe, hlength, hrooms, horder⟩ := planRelocations_ok hplaced hrelocations.2
  have hcount : p.layouts.length = o.sections.length := hall.length_eq.symm
  -- The layout before its relocations were placed.
  have hold : ∀ (i : Nat) (l : Sections.Layout), placed.1[i]? = some l →
      ∃ l₀, p.layouts[i]? = some l₀ ∧ Placed o relocations placed.2 i l₀ l := by
    intro i l hl
    have hlt := (List.getElem?_eq_some_iff.mp hl).1
    have hget := List.getElem?_eq_getElem (by omega : i < p.layouts.length)
    have hplace := hrooms i _ l hget hl
    rw [Nat.zero_add] at hplace
    exact ⟨_, hget, hplace⟩
  have hplanned : ∀ (i : Nat) (s : Section) (l₀ : Sections.Layout), o.sections[i]? = some s →
      p.layouts[i]? = some l₀ → Planned 0 p.memory start p.cursor s l₀ := by
    intro i s l₀ hs hl₀
    obtain ⟨hi, rfl⟩ := List.getElem?_eq_some_iff.mp hs
    obtain ⟨hi', rfl⟩ := List.getElem?_eq_some_iff.mp hl₀
    exact (List.forall₂_iff_get.mp hall).2 i hi hi'
  have hplanned' : ∀ (i : Nat) (s : Section) (l : Sections.Layout), o.sections[i]? = some s →
      placed.1[i]? = some l → Planned 0 p.memory start p.cursor s l := by
    intro i s l hs hl
    obtain ⟨l₀, hl₀, hplace⟩ := hold i l hl
    have h := hplanned i s l₀ hs hl₀
    rw [hplace.layout]
    exact ⟨h.name, h.nameLength, h.nameZero, h.segment, h.address, h.size, h.align, h.aligned,
      h.noData, h.data, h.flags⟩
  refine {
    length := hlength.trans hcount
    headers := hstart.1
    startLe := hcursor
    dataLe := Nat.le_trans hrelocations.1 hstop
    bound := Nat.lt_of_le_of_lt hstopLe hlimit
    memoryBound := hmemory
    planned := hplanned'
    before := fun i j s s' l l' hij hs hs' hl hl' => ?_
    fits := fun i s l hs hl => ?_
    relocsLe := fun i l hl => (hold i l hl).choose_spec.2.bound
    relocs := fun i j l l' hij hl hl' hi hj => ?_ }
  · obtain ⟨l₀, hl₀, hplace⟩ := hold i l hl
    obtain ⟨l₀', hl₀', hplace'⟩ := hold j l' hl'
    have hzip : (o.sections.zip p.layouts)[i]? = some (s, l₀) :=
      List.getElem?_zip_eq_some.mpr ⟨hs, hl₀⟩
    have hzip' : (o.sections.zip p.layouts)[j]? = some (s', l₀') :=
      List.getElem?_zip_eq_some.mpr ⟨hs', hl₀'⟩
    obtain ⟨hi, heq⟩ := List.getElem?_eq_some_iff.mp hzip
    obtain ⟨hj, heq'⟩ := List.getElem?_eq_some_iff.mp hzip'
    have hbefore := List.pairwise_iff_getElem.mp hpairs i j hi hj hij
    rw [heq, heq'] at hbefore
    rw [hplace.layout, hplace'.layout]
    exact hbefore
  · obtain ⟨l₀, hl₀, hplace⟩ := hold i l hl
    have h := hplanned' i s l hs hl
    have hi := (List.getElem?_eq_some_iff.mp hs).1
    exact {
      name := h.nameLength
      segment := by
        rw [h.segment]
        exact length_segment _
      header := by omega
      noData := h.noData
      data := fun hsome => by
        have hdata := h.data hsome
        omega
      count := by rw [hplace.layout]
      relocs := fun hne => by
        have hroom := hplace.room hne
        obtain ⟨r, hr⟩ := List.exists_mem_of_ne_nil _ hne
        exact ⟨(hchecked.inside hs r hr).1, Nat.le_trans hrelocations.1 hroom.1, hroom.2⟩
      order := Nat.le_trans hrelocations.1 hstop }
  · have hle := horder i j l l' hij hl hl'
    rw [Nat.zero_add, Nat.zero_add] at hle
    exact hle hi hj

namespace LaidOut

variable {o : ObjectFile} {memory start dataEnd stop : Nat} {layouts : List Sections.Layout}

/-- What belongs to a section lies behind the header and before the symbols. -/
theorem own_bounds (h : LaidOut o memory start dataEnd stop layouts) {i k : Nat} {s : Section}
    {l : Sections.Layout} (hs : o.sections[i]? = some s) (hl : layouts[i]? = some l)
    (hk : Own i s l k) : ¬ InHeader o.sections.length k ∧ k < stop := by
  have hfits := h.fits i s l hs hl
  have hplanned := h.planned i s l hs hl
  have hi := (List.getElem?_eq_some_iff.mp hs).1
  have hstart := h.headers
  have hdataEnd := h.startLe
  have hstop := h.dataLe
  unfold InHeader
  rcases hk with hk | ⟨hsome, hk⟩ | hk
  · omega
  · have hdata := hplanned.data hsome
    omega
  · have hcount := hfits.count
    by_cases hne : records o i = []
    · rw [hcount, hne, List.length_nil] at hk
      omega
    · have hrelocs := hfits.relocs hne
      omega

/-- No section owns what another one owns. -/
theorem disjoint (h : LaidOut o memory start dataEnd stop layouts) {i j : Nat} (hij : i < j)
    {s s' : Section} {l l' : Sections.Layout} (hs : o.sections[i]? = some s)
    (hs' : o.sections[j]? = some s') (hl : layouts[i]? = some l) (hl' : layouts[j]? = some l')
    (k : Nat) (hk : Own i s l k) : ¬ Own j s' l' k := by
  have hi := (List.getElem?_eq_some_iff.mp hs).1
  have hj := (List.getElem?_eq_some_iff.mp hs').1
  have hstart := h.headers
  have hdataEnd := h.startLe
  have hplanned := h.planned i s l hs hl
  have hplanned' := h.planned j s' l' hs' hl'
  have hfits := h.fits i s l hs hl
  have hfits' := h.fits j s' l' hs' hl'
  have hbefore := h.before i j s s' l l' hij hs hs' hl hl'
  -- A record of relocations means that there are relocations.
  have hrecords : l.relocs ≤ k ∧ k < l.relocs + l.count * 8 → records o i ≠ [] ∧ dataEnd ≤ k ∧
      k < l.relocs + (records o i).length * 8 := fun hin => by
    have hcount := hfits.count
    have hne : records o i ≠ [] := fun hnil => by
      rw [hcount, hnil, List.length_nil] at hin
      omega
    have hrelocs := hfits.relocs hne
    exact ⟨hne, by omega, by omega⟩
  have hrecords' : l'.relocs ≤ k ∧ k < l'.relocs + l'.count * 8 →
      records o j ≠ [] ∧ dataEnd ≤ k := fun hin => by
    have hcount := hfits'.count
    have hne : records o j ≠ [] := fun hnil => by
      rw [hcount, hnil, List.length_nil] at hin
      omega
    have hrelocs := hfits'.relocs hne
    exact ⟨hne, by omega⟩
  rintro (hk' | ⟨hsome', hk'⟩ | hk')
  · rcases hk with hk | ⟨hsome, hk⟩ | hk
    · omega
    · have hdata := hplanned.data hsome
      omega
    · have hin := hrecords hk
      omega
  · have hdata' := hplanned'.data hsome'
    rcases hk with hk | ⟨hsome, hk⟩ | hk
    · omega
    · have hle := hbefore.2 hsome hsome'
      dsimp only at hle
      omega
    · have hin := hrecords hk
      omega
  · obtain ⟨hne', hlow'⟩ := hrecords' hk'
    rcases hk with hk | ⟨hsome, hk⟩ | hk
    · omega
    · have hdata := hplanned.data hsome
      omega
    · obtain ⟨hne, -, hhigh⟩ := hrecords hk
      have hle := h.relocs i j l l' hij hl hl' hne hne'
      omega

end LaidOut

/-- The parts of a finished file. -/
structure FileHolds (o : ObjectFile) (memory start dataEnd stop strings : Nat)
    (layouts : List Sections.Layout) (l : Headers.FileLayout) (table : Symbols.Table)
    (bytes : List UInt8) : Prop where
  header : HeaderHolds bytes l
  sections : ∀ (i : Nat) (s : Section) (l : Sections.Layout), o.sections[i]? = some s →
    layouts[i]? = some l →
      SectionHolds o.target.machine table.indices bytes i s l (records o i)
  symbols : ∀ (i : Nat) (s : Symbols.Symbol), table.entries[i]? = some s →
    ∃ v, Symbols.value layouts s = .ok v ∧
      ∀ w ∈ Symbols.parts (stop + i * 16) s v, Holds bytes w.1 w.2
  strings : Holds bytes strings table.strings

/-- Behind the headers of the file, the sections can be emitted. -/
theorem LaidOut.placing {o : ObjectFile} {memory start dataEnd stop size : Nat}
    {layouts : List Sections.Layout} {l : Headers.FileLayout}
    (h : LaidOut o memory start dataEnd stop layouts) (hchecked : RelocationsChecked o)
    (hsections : l.sections = o.sections.length) (hsize : stop ≤ size) :
    Placing o dataEnd stop (Headers.file (List.replicate size 0) l) 0 (o.sections.zip layouts) := by
  have hstart := h.headers
  have hdataEnd := h.startLe
  have hstop := h.dataLe
  have hget : ∀ {i : Nat} {e : Section × Sections.Layout},
      (o.sections.zip layouts)[i]? = some e → o.sections[i]? = some e.1 ∧
        layouts[i]? = some e.2 := fun he => List.getElem?_zip_eq_some.mp he
  obtain ⟨hframe, -⟩ := @file_ok size l (by omega)
  have hlength := hframe.length
  rw [List.length_replicate] at hlength
  constructor
  · intro i e he
    rw [Nat.zero_add]
    exact h.fits i e.1 e.2 (hget he).1 (hget he).2
  · intro i j e e' hij he he'
    rw [Nat.zero_add, Nat.zero_add]
    exact h.disjoint hij (hget he).1 (hget he').1 (hget he).2 (hget he').2
  · omega
  · intro i e he r hr
    rw [Nat.zero_add] at hr
    exact (hchecked.inside (hget he).1 r hr).2
  · intro i hi
    rw [List.length_zip, h.length, Nat.min_self] at hi
    refine (Holds.replicate (by omega)).frame hframe fun k h₁ h₂ h₃ => ?_
    rw [List.length_replicate] at h₂
    rw [hsections] at h₃
    unfold InHeader at h₃
    omega

/-- Emission leaves all parts, since none of them touches another one. -/
theorem fileHolds_of_emit {o : ObjectFile} {memory start dataEnd stop strings size : Nat}
    {layouts : List Sections.Layout} {l : Headers.FileLayout} {table : Symbols.Table}
    {out out' : List UInt8} (hchecked : RelocationsChecked o)
    (hlaid : LaidOut o memory start dataEnd stop layouts)
    (hsections : l.sections = o.sections.length)
    (hstrings : strings = stop + table.entries.length * 16)
    (hsize : size = strings + table.strings.length)
    (hemit : emitSections o table.indices (Headers.file (List.replicate size 0) l) 0
      (o.sections.zip layouts) = .ok out)
    (hsymbols : Symbols.emit layouts out stop table.entries = .ok out') :
    FileHolds o memory start dataEnd stop strings layouts l table
      (patch out' strings table.strings) ∧
      (patch out' strings table.strings).length = size := by
  have hstart := hlaid.headers
  have hdataEnd := hlaid.startLe
  have hstop := hlaid.dataLe
  have hget : ∀ {i : Nat} {e : Section × Sections.Layout},
      (o.sections.zip layouts)[i]? = some e → o.sections[i]? = some e.1 ∧
        layouts[i]? = some e.2 := fun he => List.getElem?_zip_eq_some.mp he
  obtain ⟨f₁, hheader⟩ := @file_ok size l (by omega)
  have hlength₁ := f₁.length
  rw [List.length_replicate] at hlength₁
  have hplacing := hlaid.placing hchecked hsections (by omega : stop ≤ size)
  generalize Headers.file (List.replicate size 0) l = out₀ at f₁ hheader hlength₁ hplacing hemit
  obtain ⟨f₂, hholds⟩ := emitSections_ok hemit hplacing
  have hlength₂ := f₂.length
  obtain ⟨f₃, hrecords⟩ := Symbols.emit_ok hsymbols (by omega)
  have hlength₃ := f₃.length
  have hfits : strings + table.strings.length ≤ out'.length := by omega
  have f₄ := SameOutside.patch hfits
  -- What the sections own is before the symbols and behind the headers.
  have hown : ∀ k, (∃ (i : Nat) (e : Section × Sections.Layout),
      (o.sections.zip layouts)[i]? = some e ∧ Own (0 + i) e.1 e.2 k) →
        ¬ InHeader o.sections.length k := by
    rintro k ⟨i, e, he, hk⟩
    rw [Nat.zero_add] at hk
    exact (hlaid.own_bounds (hget he).1 (hget he).2 hk).1
  have hsmall : ∀ k, InHeader o.sections.length k → k < stop := fun k hk => by
    unfold InHeader at hk
    omega
  refine ⟨⟨?_, fun i s m hs hm => ?_, fun i s hs => ?_, Holds.patch_self hfits⟩, ?_⟩
  · refine ((hheader.frame f₂ ?_).frame f₃ ?_).frame f₄ ?_
    · rw [hsections]
      exact fun k hk hin => hown k hin hk
    · rw [hsections]
      intro k hk hin
      have hlt := hsmall k hk
      omega
    · rw [hsections]
      intro k hk hin
      have hlt := hsmall k hk
      omega
  · have he : (o.sections.zip layouts)[i]? = some (s, m) :=
      List.getElem?_zip_eq_some.mpr ⟨hs, hm⟩
    have hsection := hholds i _ he
    rw [Nat.zero_add] at hsection
    have hfit := hlaid.fits i s m hs hm
    refine (hsection.frame hfit f₃ fun k hk hin => ?_).frame hfit f₄ fun k hk hin => ?_
    · have hlt := (hlaid.own_bounds hs hm hk).2
      omega
    · have hlt := (hlaid.own_bounds hs hm hk).2
      omega
  · obtain ⟨v, hv, hall⟩ := hrecords i s hs
    have hi := (List.getElem?_eq_some_iff.mp hs).1
    refine ⟨v, hv, fun w hw => (hall w hw).frame f₄ fun k h₁ h₂ h₃ => ?_⟩
    -- A record ends before the strings start.
    have hend : w.1 + w.2.length ≤ stop + i * 16 + 16 := by
      simp only [Symbols.parts, List.mem_cons, List.not_mem_nil, or_false] at hw
      rcases hw with rfl | rfl | rfl | rfl
      · simp only [length_leBytes]
        omega
      · simp only [List.length_singleton]
        omega
      · simp only [List.length_singleton]
        omega
      · simp only [length_leBytes]
        omega
    omega
  · rw [f₄.length]
    omega

theorem readMachine_code {target : ObjectTarget} (h : target.validate = .ok ())
    (hformat : target.format = .machO64) :
    readMachine (if target.machine = .x86_64 then 0x01000007 else 0x0100000c) =
      some target.machine := by
  have hother : target.format ≠ .elf64 := by
    rw [hformat]
    decide
  rcases ObjectTarget.validate_machine h hother with hmachine | hmachine
  all_goals
    rw [hmachine]
    rfl

/-- What the header says of the object and of the parts of the file. -/
structure Describes (o : ObjectFile) (stop strings : Nat) (table : Symbols.Table)
    (l : Headers.FileLayout) : Prop where
  machine : l.machine = o.target.machine
  sections : l.sections = o.sections.length
  symbols : l.symbols = stop
  count : l.count = table.entries.length
  strings : l.strings = strings
  stringSize : l.stringSize = table.strings.length
  groups : l.groups = ((localSymbols o).length, (definedSymbols o).length,
    (undefinedSymbols o).length + (undeclared o).length)

section Image

variable {o : ObjectFile} {memory start dataEnd stop strings limit : Nat}
  {layouts : List Sections.Layout} {l : Headers.FileLayout} {table : Symbols.Table}
  {bytes : List UInt8}

theorem length_ordered (o : ObjectFile) : (Symbols.ordered o).length =
    (localSymbols o).length + (definedSymbols o).length +
      ((undefinedSymbols o).length + (undeclared o).length) := by
  unfold Symbols.ordered
  simp only [List.length_append, List.length_map]

theorem indexOf_table (htable : table.Inv limit (Symbols.ordered o))
    (hfew : table.entries.length ≤ 2 ^ 24) : IndexOf (symbolNames o) table.indices where
  few := by
    rw [← Symbols.map_ordered, List.length_map, ← htable.entries.length_eq]
    exact hfew
  known := fun name hname => by
    rw [← Symbols.map_ordered] at hname ⊢
    obtain ⟨i, hi⟩ := Option.isSome_iff_exists.mp ((htable.known name).mpr hname)
    exact ⟨i, hi, htable.indices name i hi⟩

/-- All sections are read, each where it was planned. -/
theorem readSections_ok (hchecked : RelocationsChecked o)
    (hlaid : LaidOut o memory start dataEnd stop layouts)
    (hindex : IndexOf (symbolNames o) table.indices)
    (h : FileHolds o memory start dataEnd stop strings layouts l table bytes) :
    ∃ es, (List.range o.sections.length).mapM
        (fun i => readSection o.target.machine bytes (32 + 72 + 80 * i)) = some es ∧
      es.length = o.sections.length ∧
      ∀ (i : Nat) (s : Section) (m : Sections.Layout) (e : ImageSection),
        o.sections[i]? = some s → layouts[i]? = some m → es[i]? = some e →
          SectionMatches o i s e ∧ SectionPlaced s m e := by
  have hread : ∀ i ∈ List.range o.sections.length, ∃ e,
      readSection o.target.machine bytes (32 + 72 + 80 * i) = some e ∧
        ∀ s m, o.sections[i]? = some s → layouts[i]? = some m →
          SectionMatches o i s e ∧ SectionPlaced s m e := by
    intro i hi
    have hlt := List.mem_range.mp hi
    have hs := List.getElem?_eq_getElem hlt
    have hm := List.getElem?_eq_getElem (hlaid.length.symm ▸ hlt : i < layouts.length)
    have hbound := hlaid.bound
    have hdataLe := hlaid.dataLe
    obtain ⟨e, hread, hmatch⟩ := readSection_ok hchecked hindex (fun r hr => mem_symbolNames hr) hs
      (hlaid.planned i _ _ hs hm) hlaid.memoryBound (by omega) hbound (hlaid.relocsLe i _ hm)
      (hlaid.fits i _ _ hs hm) (h.sections i _ _ hs hm)
    refine ⟨e, hread, fun s m hs' hm' => ?_⟩
    rw [hs] at hs'
    rw [hm] at hm'
    cases hs'
    cases hm'
    exact hmatch
  obtain ⟨es, hmap, hall⟩ := mapM_some hread
  obtain ⟨hlength, hget⟩ := List.forall₂_iff_get.mp hall
  rw [List.length_range] at hlength
  refine ⟨es, hmap, hlength.symm, fun i s m e hs hm he => ?_⟩
  obtain ⟨hi, rfl⟩ := List.getElem?_eq_some_iff.mp he
  have hindex := hget i (by rw [List.length_range]; omega) hi
  simp only [List.get_eq_getElem, List.getElem_range] at hindex
  exact hindex s m hs hm

/-- All symbols are read, in the order of the groups. -/
theorem readSymbols_ok (hvalid : o.Valid) (hcount : o.sections.length ≤ 255)
    (htable : table.Inv limit (Symbols.ordered o)) (hlimit : limit < 2 ^ 32)
    (h : FileHolds o memory start dataEnd stop strings layouts l table bytes)
    {es : List ImageSection} (haddress : ∀ i : Nat,
      es[i]?.elim 0 ImageSection.address = layouts[i]?.elim 0 Sections.Layout.address) :
    (List.range table.entries.length).mapM
      (fun i => readSymbol bytes table.strings (stop + 16 * i)) =
        some ((Symbols.ordered o).map (entryImage es)) := by
  have hread : ∀ i ∈ List.range table.entries.length, ∃ y,
      readSymbol bytes table.strings (stop + 16 * i) = some y ∧
        ∀ x, (Symbols.ordered o)[i]? = some x → y = entryImage es x := by
    intro i hi
    have hlt := List.mem_range.mp hi
    have he := List.getElem?_eq_getElem hlt
    have hlt' : i < (Symbols.ordered o).length := by
      rw [← htable.entries.length_eq]
      exact hlt
    have hx := List.getElem?_eq_getElem hlt'
    have hmem := List.getElem_mem hlt'
    have hnamed := (List.forall₂_iff_get.mp htable.entries).2 i hlt hlt'
    simp only [List.get_eq_getElem] at hnamed
    obtain ⟨v, hvalue, hholds⟩ := h.symbols i _ he
    obtain ⟨hv, hvEq⟩ := value_ok hvalue
    -- A name in the table holds no zero, so the reader stops at its end.
    have hzero : '\x00' ∉ ((Symbols.ordered o)[i]).name.toList := by
      rcases mem_ordered hmem with ⟨s, hs, heq⟩ | ⟨r, hr, heq⟩
      · rw [heq]
        exact hvalid.names s hs
      · rw [heq]
        exact (hvalid.relocations r hr).1
    have hsection : ∀ n, ((Symbols.ordered o)[i]).sectionIndex = some n → n < 255 := by
      intro n hn
      rcases mem_ordered hmem with ⟨s, hs, heq⟩ | ⟨r, hr, heq⟩
      · rw [heq] at hn
        exact Nat.lt_of_lt_of_le (hvalid.symbols s hs n hn) hcount
      · rw [heq] at hn
        cases hn
    have hbound := htable.bound
    rw [Nat.mul_comm] at hholds
    have hread := readSymbol_ok hnamed hzero hsection (by omega) hv hholds
    refine ⟨_, hread, fun x hx' => ?_⟩
    rw [hx] at hx'
    cases hx'
    unfold entryImage
    have hsame := hnamed.same
    rw [hvEq]
    rw [hsame]
    simp only [haddress]
  obtain ⟨ys, hmap, hall⟩ := mapM_some hread
  rw [htable.entries.length_eq] at hall
  rw [hmap, eq_map_of_forall₂ (forall₂_of_range hall)]

/-- The finished file is read as what the format has of the object. -/
theorem represents_of_fileHolds (hchecked : RelocationsChecked o)
    (hcount : o.sections.length ≤ 255)
    (hlaid : LaidOut o memory start dataEnd stop layouts)
    (htable : table.Inv limit (Symbols.ordered o)) (hfew : table.entries.length ≤ 2 ^ 24)
    (hlimit : limit < 2 ^ 32) (hstrings : strings < 2 ^ 32)
    (hexternal : ∀ s ∈ o.symbols, s.sectionIndex = none → s.binding = .global)
    (hsize : stop ≤ bytes.length) (hl : Describes o stop strings table l)
    (h : FileHolds o memory start dataEnd stop strings layouts l table bytes) :
    ∃ image, read bytes = some image ∧ Represents o bytes.length image := by
  have hordered := length_ordered o
  have hentries := htable.entries.length_eq
  have hbound := htable.bound
  have hfields := h.header.fields
    { sections := by rw [hl.sections]; exact hcount
      symbols := by rw [hl.symbols]; exact hlaid.bound
      count := by rw [hl.count]; omega
      strings := by rw [hl.strings]; exact hstrings
      stringSize := by rw [hl.stringSize]; omega
      groups := by rw [hl.groups, hl.count]; dsimp only; omega }
  obtain ⟨es, hsections, hlength, hmatch⟩ := readSections_ok hchecked hlaid
    (indexOf_table htable hfew) h
  have hlayouts : ∀ {i : Nat} {e : ImageSection}, es[i]? = some e → ∃ s m,
      o.sections[i]? = some s ∧ layouts[i]? = some m ∧ SectionPlaced s m e := by
    intro i e he
    have hi := (List.getElem?_eq_some_iff.mp he).1
    have hs := List.getElem?_eq_getElem (hlength ▸ hi : i < o.sections.length)
    have hm := List.getElem?_eq_getElem (by rw [hlaid.length, ← hlength]; exact hi)
    exact ⟨_, _, hs, hm, (hmatch i _ _ e hs hm he).2⟩
  have haddress : ∀ i : Nat,
      es[i]?.elim 0 ImageSection.address = layouts[i]?.elim 0 Sections.Layout.address := by
    intro i
    cases he : es[i]? with
    | none =>
        have hle := List.getElem?_eq_none_iff.mp he
        have hlen := hlaid.length
        rw [List.getElem?_eq_none (by omega)]
        rfl
    | some e =>
        obtain ⟨s, m, -, hm, hplace⟩ := hlayouts he
        rw [hm]
        exact hplace.address
  have hsymbols := readSymbols_ok hchecked.valid hcount htable hlimit h haddress
  have hstringTable : slice bytes strings table.strings.length = table.strings := h.strings.2
  refine ⟨{ machine := o.target.machine, sections := es
            symbols := (Symbols.ordered o).map (entryImage es)
            localRange := (0, l.groups.1), definedRange := (l.groups.1, l.groups.2.1)
            undefinedRange := (l.groups.1 + l.groups.2.1, l.groups.2.2) }, ?_, ?_⟩
  · unfold read
    rw [if_neg (not_not.mpr ⟨hfields.magic, hfields.fileType⟩), hfields.machine, hl.machine,
      readMachine_code hchecked.valid.target hchecked.format]
    dsimp only [Option.bind_eq_bind, Option.bind_some]
    rw [hfields.commands]
    -- The commands are found, each under its code.
    have hsegment : findCommand 0x19 [(0x19, 32), (2, 104 + l.sections * 80),
        (0xb, 104 + l.sections * 80 + 24), (0x32, 104 + l.sections * 80 + 24 + 80)] =
          some 32 := rfl
    have hsymtab : findCommand 2 [(0x19, 32), (2, 104 + l.sections * 80),
        (0xb, 104 + l.sections * 80 + 24), (0x32, 104 + l.sections * 80 + 24 + 80)] =
          some (104 + l.sections * 80) := rfl
    have hdysymtab : findCommand 0xb [(0x19, 32), (2, 104 + l.sections * 80),
        (0xb, 104 + l.sections * 80 + 24), (0x32, 104 + l.sections * 80 + 24 + 80)] =
          some (104 + l.sections * 80 + 24) := rfl
    dsimp only [Option.bind_some]
    rw [hsegment, hsymtab, hdysymtab]
    dsimp only [Option.bind_some]
    rw [hfields.sections, hl.sections, hsections]
    dsimp only [Option.bind_some]
    rw [← hl.sections, hfields.strings, hfields.stringSize, hfields.count, hfields.symbols,
      hl.strings, hl.stringSize, hl.count, hl.symbols, hstringTable, hsymbols]
    dsimp only [Option.bind_some]
    rw [hfields.localIndex, hfields.locals, hfields.definedIndex, hfields.defined,
      hfields.undefinedIndex, hfields.undefined]
    rfl
  · refine {
      machine := rfl
      count := hlength
      sections := fun index s e hs he => ?_
      addresses := ?_
      files := ?_
      inside := fun e he hne => ?_
      symbols := map_entryImage o es
      undefinedExternal := fun y hy hnone => ?_
      localRange := by rw [hl.groups]
      definedRange := by rw [hl.groups]
      undefinedRange := by rw [hl.groups] }
    · obtain ⟨s', m, hs', hm, -⟩ := hlayouts he
      rw [hs] at hs'
      cases hs'
      exact (hmatch index s m e hs hm he).1
    · refine List.pairwise_iff_getElem.mpr fun i j hi hj hij => ?_
      obtain ⟨s, m, hs, hm, hplace⟩ := hlayouts (List.getElem?_eq_getElem hi)
      obtain ⟨s', m', hs', hm', hplace'⟩ := hlayouts (List.getElem?_eq_getElem hj)
      rw [hplace.address, hplace.size, hplace'.address]
      exact (hlaid.before i j s s' m m' hij hs hs' hm hm').1
    · refine List.pairwise_iff_getElem.mpr fun i j hi hj hij hne hne' => ?_
      obtain ⟨s, m, hs, hm, hplace⟩ := hlayouts (List.getElem?_eq_getElem hi)
      obtain ⟨s', m', hs', hm', hplace'⟩ := hlayouts (List.getElem?_eq_getElem hj)
      obtain ⟨hsome, hlen⟩ := hplace.data hne
      obtain ⟨hsome', -⟩ := hplace'.data hne'
      rw [hplace.offset, hplace'.offset, hlen]
      exact (hlaid.before i j s s' m m' hij hs hs' hm hm').2 hsome hsome'
    · obtain ⟨i, hi⟩ := List.getElem?_of_mem he
      obtain ⟨s, m, hs, hm, hplace⟩ := hlayouts hi
      obtain ⟨hsome, hlen⟩ := hplace.data hne
      have hdata := (hlaid.planned i s m hs hm).data hsome
      have hdataLe := hlaid.dataLe
      rw [hplace.offset, hlen]
      omega
    · obtain ⟨x, hx, rfl⟩ := List.mem_map.mp hy
      rcases mem_ordered hx with ⟨s, hs, rfl⟩ | ⟨r, -, rfl⟩
      · exact decide_eq_true (hexternal s hs hnone)
      · rfl

end Image

/-- Whatever the writer accepts, the bytes are read as what the format has of the object. -/
theorem read_write (o : ObjectFile) (maxOutputSize : UInt64) (bytes : List UInt8)
    (h : write o maxOutputSize = .ok bytes) : ∃ image, read bytes = some image ∧
      Represents o bytes.length image := by
  obtain ⟨_, hvalidate, h₁⟩ := bind_ok_iff.mp h
  obtain ⟨_, hformat, h₂⟩ := bind_ok_iff.mp h₁
  obtain ⟨_, hsections, h₃⟩ := bind_ok_iff.mp h₂
  obtain ⟨start, hstart, h₄⟩ := bind_ok_iff.mp h₃
  obtain ⟨_, -, h₅⟩ := bind_ok_iff.mp h₄
  obtain ⟨p, hplans, h₆⟩ := bind_ok_iff.mp h₅
  obtain ⟨occupied, hoccupied, h₇⟩ := bind_ok_iff.mp h₆
  obtain ⟨_, hdisjoint, h₈⟩ := bind_ok_iff.mp h₇
  obtain ⟨relocations, hrelocations, h₉⟩ := bind_ok_iff.mp h₈
  obtain ⟨⟨layouts, at'⟩, hplaced, h₁₀⟩ := bind_ok_iff.mp h₉
  obtain ⟨⟨table, groups⟩, hsymbols, h₁₁⟩ := bind_ok_iff.mp h₁₀
  obtain ⟨_, hfew, h₁₂⟩ := bind_ok_iff.mp h₁₁
  obtain ⟨strings, hstrings, h₁₃⟩ := bind_ok_iff.mp h₁₂
  obtain ⟨size, hsize, h₁₄⟩ := bind_ok_iff.mp h₁₃
  obtain ⟨out, hemit, h₁₅⟩ := bind_ok_iff.mp h₁₄
  obtain ⟨out', hemitSymbols, h₁₆⟩ := bind_ok_iff.mp h₁₅
  have hbytes : patch out' strings table.strings = bytes := Except.ok.inj h₁₆
  have hlimit : min maxOutputSize.toNat (2 ^ 32 - 1) < 2 ^ 32 := by omega
  generalize min maxOutputSize.toNat (2 ^ 32 - 1) = limit
    at hlimit hstart hplans hrelocations hplaced hsymbols hstrings hsize
  have hcount : o.sections.length ≤ 255 := require_ok_iff.mp hsections
  have hchecked := relocationsChecked (ObjectFile.validate_valid hvalidate)
    (require_ok_iff.mp hformat) hoccupied (require_ok_iff.mp hdisjoint)
  obtain ⟨hstartEq, hstartLe⟩ := grow_ok hstart
  obtain ⟨hrelocationsEq, hrelocationsLe⟩ := grow_ok hrelocations
  obtain ⟨hstringsEq, hstringsLe⟩ := grow_ok hstrings
  obtain ⟨hsizeEq, hsizeLe⟩ := grow_ok hsize
  have hlaid := laidOut_of_plan hchecked hlimit ⟨by omega, hstartLe⟩ hplans
    ⟨by omega, hrelocationsLe⟩ hplaced
  obtain ⟨htable, hgroups, hexternal⟩ := Symbols.plan_ok hsymbols
  dsimp only at hlaid htable hgroups hstringsEq
  obtain ⟨hfile, hfileSize⟩ := fileHolds_of_emit hchecked hlaid rfl hstringsEq hsizeEq hemit
    hemitSymbols
  rw [hbytes] at hfile hfileSize
  have hstringsBound : strings < 2 ^ 32 := by omega
  have hroom : at' ≤ bytes.length := by omega
  exact represents_of_fileHolds hchecked hcount hlaid htable (require_ok_iff.mp hfew) hlimit
    hstringsBound hexternal hroom
    { machine := rfl, sections := rfl, symbols := rfl, count := rfl, strings := rfl
      stringSize := rfl, groups := hgroups } hfile

/-- A call of a function that another object defines, and a table with its address. -/
def callObject : ObjectFile where
  target := { format := .machO64, machine := .x86_64, endian := .little, addressBits := 64 }
  sections := [{ name := ".text", kind := .text, data := [0xe8, 0, 0, 0, 0, 0xc3], zeroFill := 0
                 align := 16 },
               { name := ".data", kind := .data, data := List.replicate 8 0, zeroFill := 0
                 align := 8 }]
  symbols := [{ kind := .function, name := "entry", sectionIndex := some 0, value := 0, size := 6
                binding := .global, visibility := .default },
              { kind := .object, name := "table", sectionIndex := some 1, value := 0, size := 8
                binding := .local, visibility := .default }]
  relocations := [{ sectionIndex := 0, offset := 1, symbol := "external_helper", addend := -4
                    kind := .plt32 },
                  { sectionIndex := 1, offset := 0, symbol := "external_helper", addend := 0
                    kind := .absolute64 }]

theorem read_write_call : ∃ bytes image, write callObject 4096 = .ok bytes ∧
    read bytes = some image ∧ Represents callObject bytes.length image := by
  have hok : (write callObject 4096).isOk = true := by decide +kernel
  cases h : write callObject 4096 with
  | error e =>
      rw [h] at hok
      cases hok
  | ok bytes =>
      obtain ⟨image, hread, hrepresents⟩ := read_write callObject 4096 bytes h
      exact ⟨bytes, image, rfl, hread, hrepresents⟩

end Whale.MachO
