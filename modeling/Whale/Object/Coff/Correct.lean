import Whale.Lib.Collect
import Whale.Object.Coff.Emit

set_option autoImplicit false

/-! # COFF objects are read as they were written

The reader's own rules find in the written bytes the sections, the symbols and the relocations
of the object (`write_represents`). -/

namespace Whale.Coff

/-! ## Headers -/

/-- The file header. -/
def fileHeaderBytes (machine : Machine) (sections symbols count : Nat) : List UInt8 :=
  leBytes 2 (if machine = .x86_64 then 0x8664 else 0xaa64) ++ leBytes 2 sections ++
    List.replicate 4 0 ++ leBytes 4 symbols ++ leBytes 4 count ++ List.replicate 4 0

theorem patches_fileHeader (code sections symbols count : Nat) :
    u32At (u32At (u16At (u16At (List.replicate 20 0) 0 code) 2 sections) 8 symbols) 12 count =
      leBytes 2 code ++ leBytes 2 sections ++ List.replicate 4 0 ++ leBytes 4 symbols ++
        leBytes 4 count ++ List.replicate 4 0 := by
  simp [patch, u16At, u32At, leBytes, List.replicate_succ]

variable {n : Nat}

theorem fileHeader_ok (hroom : 20 ≤ n) (machine : Machine) (sections symbols count : Nat) :
    let out := fileHeader (List.replicate n 0) machine sections symbols count
    SameOutside (fun k => k < 20) (List.replicate n 0) out ∧
      Holds out 0 (fileHeaderBytes machine sections symbols count) := by
  have hzero : Holds (List.replicate n (0 : UInt8)) 0 (List.replicate 20 0) :=
    Holds.replicate (by omega)
  have hlength : (List.replicate n (0 : UInt8)).length = n := List.length_replicate
  have f₁ := frame_u16At (s := List.replicate n (0 : UInt8)) (k := 0) (by omega)
    (if machine = .x86_64 then 0x8664 else 0xaa64)
  have f₂ := frame_u16At (k := 2) (by rw [f₁.length]; omega) sections
  have f₃ := frame_u32At (k := 8) (by rw [f₂.length, f₁.length]; omega) symbols
  have f₄ := frame_u32At (k := 12) (by rw [f₃.length, f₂.length, f₁.length]; omega) count
  refine ⟨(((f₁.mono fun k hk => by omega).trans (f₂.mono fun k hk => by omega)).trans
    (f₃.mono fun k hk => by omega)).trans (f₄.mono fun k hk => by omega), ?_⟩
  have g₁ := holds_u16At (k := 0) hzero (by simp) (if machine = .x86_64 then 0x8664 else 0xaa64)
  have l₁ := length_u16At (s := List.replicate 20 (0 : UInt8)) (k := 0)
    (v := if machine = .x86_64 then 0x8664 else 0xaa64) (by simp)
  rw [List.length_replicate] at l₁
  have g₂ := holds_u16At (k := 2) g₁ (by omega) sections
  have l₂ := length_u16At (k := 2) (v := sections) (s := u16At (List.replicate 20 (0 : UInt8)) 0
    (if machine = .x86_64 then 0x8664 else 0xaa64)) (by omega)
  have g₃ := holds_u32At (k := 8) g₂ (by omega) symbols
  have l₃ := length_u32At (k := 8) (v := symbols) (s := u16At (u16At
    (List.replicate 20 (0 : UInt8)) 0 (if machine = .x86_64 then 0x8664 else 0xaa64)) 2 sections)
    (by omega)
  have g₄ := holds_u32At (k := 12) g₃ (by omega) count
  rw [patches_fileHeader] at g₄
  exact g₄

variable {machine : Machine}

theorem field_fileHeaderBytes {sections symbols count : Nat} (hsections : sections < 2 ^ 16)
    (hsymbols : symbols < 2 ^ 32) (hcount : count < 2 ^ 32) :
    let h := fileHeaderBytes machine sections symbols count
    field h 0 2 = (if machine = .x86_64 then 0x8664 else 0xaa64) ∧ field h 2 2 = sections ∧
      field h 8 4 = symbols ∧ field h 12 4 = count ∧ field h 16 2 = 0 := by
  refine ⟨?_, ?_, ?_, ?_, rfl⟩
  · refine leValue_leBytes_of_lt (n := 2) ?_
    split <;> decide
  · exact leValue_leBytes_of_lt (n := 2) hsections
  · exact leValue_leBytes_of_lt (n := 4) hsymbols
  · exact leValue_leBytes_of_lt (n := 4) hcount

theorem field_sectionHeader {l : SectionLayout} {count : Nat} (hname : l.name.length = 8)
    (hsize : l.size < 2 ^ 32) (hdata : l.data < 2 ^ 32) (hrelocation : l.relocation < 2 ^ 32)
    (hcount : count < 2 ^ 16) (hflags : l.flags < 2 ^ 32) :
    let h := sectionHeader l count
    slice h 0 8 = l.name ∧ field h 16 4 = l.size ∧ field h 20 4 = l.data ∧
      field h 24 4 = l.relocation ∧ field h 32 2 = count ∧ field h 36 4 = l.flags := by
  unfold sectionHeader
  obtain ⟨a, b, c, d, e, f, g, i, hbytes⟩ := eight_bytes hname
  rw [hbytes]
  refine ⟨rfl, ?_, ?_, ?_, ?_, ?_⟩
  · exact leValue_leBytes_of_lt (n := 4) hsize
  · exact leValue_leBytes_of_lt (n := 4) hdata
  · exact leValue_leBytes_of_lt (n := 4) hrelocation
  · exact leValue_leBytes_of_lt (n := 2) hcount
  · exact leValue_leBytes_of_lt (n := 4) hflags

/-! ## The symbols -/

/-- The symbol of a section is none of the object's. -/
theorem section_entry {name : List UInt8} (hname : name.length = 8) (table : List UInt8)
    (index size count : Nat) : Entry table (sectionSymbolRecord name index size count) none := by
  have hlength := length_sectionSymbolRecord hname index size count
  obtain ⟨a, b, c, d, e, f, g, i, rfl⟩ := eight_bytes hname
  constructor
  · rw [hlength]
    rfl
  · refine if_pos ⟨rfl, List.ne_nil_of_length_pos ?_⟩
    rw [length_slice (Nat.le_of_eq hlength.symm)]
    exact Nat.succ_pos 17

theorem numbered_append {indices indices' : List Nat} {images images' : List (Option ImageSymbol)}
    (h : indices.length = images.length) :
    numbered (indices ++ indices') (images ++ images') =
      numbered indices images ++ numbered indices' images' := by
  induction indices generalizing images with
  | nil =>
      cases images with
      | nil => rfl
      | cons image images => cases h
  | cons index indices ih =>
      cases images with
      | nil => cases h
      | cons image images =>
          simp only [List.cons_append, numbered, List.append_assoc]
          rw [ih (Nat.succ.inj h)]

theorem numbered_none (indices : List Nat) (n : Nat) :
    numbered indices (List.replicate n none) = [] := by
  induction indices generalizing n with
  | nil => cases n <;> rfl
  | cons index indices ih =>
      cases n with
      | zero => rfl
      | succ n => exact ih n

theorem numbered_some (indices : List Nat) (images : List ImageSymbol) :
    numbered indices (images.map some) = indices.zip images := by
  induction indices generalizing images with
  | nil => cases images <;> rfl
  | cons index indices ih =>
      cases images with
      | nil => rfl
      | cons image images =>
          simp only [List.map_cons, numbered, List.zip_cons_cons, Option.toList_some,
            List.map_nil, ih]
          rfl

/-- Records of 18 bytes or a multiple of it advance the index by that multiple. -/
theorem recordsEnd_flatten {records : List (List UInt8)} (h : ∀ r ∈ records, 18 ∣ r.length)
    (index : Nat) : 18 * recordsEnd index records = 18 * index + records.flatten.length := by
  induction records generalizing index with
  | nil => rfl
  | cons r records ih =>
      obtain ⟨m, hm⟩ := h r List.mem_cons_self
      rw [recordsEnd, ih fun r' hr' => h r' (List.mem_cons_of_mem _ hr'), List.flatten_cons,
        List.length_append]
      omega

theorem recordsEnd_uniform {records : List (List UInt8)} (h : ∀ r ∈ records, r.length = 36)
    (index : Nat) : recordsEnd index records = index + records.length * 2 := by
  induction records generalizing index with
  | nil => rfl
  | cons r records ih =>
      rw [recordsEnd, ih fun r' hr' => h r' (List.mem_cons_of_mem _ hr'), h r List.mem_cons_self,
        List.length_cons]
      omega

/-- The symbols of the object, with the indices of their records. -/
def tableImage (n : Nat) (t : SymbolTable) (symbols : List ObjectSymbol) :
    List (Nat × ImageSymbol) :=
  (recordIndices (n * 2) t.records).zip (symbols.map symbolImage)

variable {o : ObjectFile} {t : SymbolTable}

theorem map_tableImage (h : t.Inv (n * 2) (outputSymbols o)) :
    (tableImage n t (outputSymbols o)).map Prod.snd =
      o.symbols.map symbolImage ++ (undeclared o).map undefinedImage := by
  have hlength := (h.entries _ (List.prefix_refl _)).length_eq
  unfold tableImage
  rw [List.map_snd_zip (by rw [length_recordIndices, hlength, List.length_map])]
  unfold outputSymbols
  rw [List.map_append, List.map_map]
  rfl

variable {out : List UInt8}

/-- Reading behind the symbols of the sections gives the symbols of the object. -/
theorem readSymbols_table {symbols : List ObjectSymbol} (h : t.Inv (n * 2) symbols)
    {table out : List UInt8} (hwithin : t.strings.Within table) {start : Nat}
    (hsections : ∀ i < n, ∃ bytes, Holds out (start + i * 36) bytes ∧
      bytes.length = 36 ∧ Entry table bytes none)
    (hrecords : Holds out (start + n * 36) t.records.flatten) :
    readSymbols table 0 (slice out start (18 * t.count)) = some (tableImage n t symbols) := by
  have hentries := h.entries table hwithin
  have hdivides : ∀ r ∈ t.records, 18 ∣ r.length := fun r hr => by
    obtain ⟨s, -, hs⟩ := exists_of_forall₂ hentries hr
    exact ⟨_, hs.length⟩
  have hcount : 18 * t.count = n * 36 + t.records.flatten.length := by
    rw [h.count, recordsEnd_flatten hdivides]
    omega
  have hchunk : ∀ i < n, (slice out (start + i * 36) 36).length = 36 ∧
      Entry table (slice out (start + i * 36) 36) none := fun i hi => by
    obtain ⟨bytes, hholds, hlength, hentry⟩ := hsections i hi
    have hslice := hholds.2
    rw [hlength] at hslice
    rw [hslice]
    exact ⟨hlength, hentry⟩
  rw [hcount, slice_add, slice_chunks, hrecords.2, ← List.flatten_append]
  generalize hchunks : (List.range n).map (fun i => slice out (start + i * 36) 36) = chunks
  have hlength : chunks.length = n := by rw [← hchunks, List.length_map, List.length_range]
  have hmem : ∀ r ∈ chunks, r.length = 36 ∧ Entry table r none := fun r hr => by
    rw [← hchunks, List.mem_map] at hr
    obtain ⟨i, hi, rfl⟩ := hr
    exact hchunk i (List.mem_range.mp hi)
  -- The symbols of the sections come first, then those of the object.
  have hfirst : List.Forall₂ (Entry table) chunks (List.replicate n none) := by
    refine List.forall₂_iff_get.mpr ⟨by rw [hlength, List.length_replicate], fun i h₁ h₂ => ?_⟩
    rw [List.get_eq_getElem, List.get_eq_getElem, List.getElem_replicate]
    exact (hmem _ (List.getElem_mem h₁)).2
  have hsecond : List.Forall₂ (Entry table) t.records ((symbols.map symbolImage).map some) := by
    rw [List.map_map, List.forall₂_map_right_iff]
    exact hentries
  have hread := readSymbols_flatten (List.rel_append hfirst hsecond) 0
  have hindex : recordsEnd 0 chunks = n * 2 := by
    rw [recordsEnd_uniform (fun r hr => (hmem r hr).1), hlength, Nat.zero_add]
  rw [recordIndices_append, hindex, numbered_append (by
    rw [length_recordIndices, hlength, List.length_replicate]), numbered_none, numbered_some,
    List.nil_append] at hread
  exact hread

/-! ## The sections -/

theorem field_relocationRecord {indices : AssocMap String Nat} {r : ObjectRelocation}
    {index code : Nat} (hindex : (indices.get r.symbol).getD 0 = index)
    (hoffset : r.offset < 2 ^ 32) (hbound : index < 2 ^ 32) (hcode : code < 2 ^ 16) :
    let bs := relocationRecord indices r code
    field bs 0 4 = r.offset ∧ field bs 4 4 = index ∧ field bs 8 2 = code := by
  subst hindex
  refine ⟨?_, ?_, ?_⟩
  · exact leValue_leBytes_of_lt (n := 4) hoffset
  · exact leValue_leBytes_of_lt (n := 4) hbound
  · exact leValue_leBytes_of_lt (n := 2) hcode

theorem coffEncoding_lt {kind : RelocKind} {e : Nat × Nat} (h : kind.coffEncoding machine = some e) :
    e.1 < 2 ^ 16 := by
  cases kind with
  | coffSpecific m code =>
      cases machine <;> cases m <;> simp only [RelocKind.coffEncoding, reduceCtorEq] at h
      by_cases hcode : code = 3 ∨ code = 5 ∨ code = 15
      · rw [if_pos hcode] at h
        cases h
        exact code.toNat_lt
      · rw [if_neg hcode] at h
        cases h
  | _ => cases machine <;> cases h <;> decide

theorem coffEncoding_pos {kind : RelocKind} {e : Nat × Nat} (h : kind.coffEncoding machine = some e) :
    0 < e.2 := by
  cases kind with
  | coffSpecific m code =>
      cases machine <;> cases m <;> simp only [RelocKind.coffEncoding, reduceCtorEq] at h
      by_cases hcode : code = 3 ∨ code = 5 ∨ code = 15
      · rw [if_pos hcode] at h
        cases h
        exact Nat.succ_pos 3
      · rw [if_neg hcode] at h
        cases h
  | _ => cases machine <;> cases h <;> decide

theorem readRelocation_ok {out data : List UInt8} {start at' : Nat} {r : ObjectRelocation}
    (htable : t.Inv (n * 2) (outputSymbols o)) (hr : r ∈ o.relocations)
    (h : RelocationHolds o.target.machine t.indices out start at' r)
    (hdata : ∀ e, r.kind.coffEncoding o.target.machine = some e →
      slice (data.drop r.offset) 0 e.2 = slice out (start + r.offset) e.2) :
    ∃ e, readRelocation o.target.machine data (slice out at' 10) = some e ∧
      RelocationMatches o (tableImage n t (outputSymbols o)) r e := by
  obtain ⟨encoding, before, bytes, hencoding, happly, hlength, hfield, hrecord⟩ := h.written
  have hslice := hrecord.2
  rw [length_relocationRecord] at hslice
  -- The symbol is in the table.
  have hknown := (htable.known r.symbol).mpr (by
    rw [map_outputSymbols]
    exact mem_outputNames hr)
  obtain ⟨index, hget⟩ := Option.isSome_iff_exists.mp hknown
  obtain ⟨k, hk, hname⟩ := htable.indices r.symbol index hget
  have hindex : (t.indices.get r.symbol).getD 0 = index := by rw [hget]; rfl
  have hbound : index < 2 ^ 32 := by
    have hle := le_of_mem_recordIndices (List.mem_of_getElem? hk)
    rw [← htable.count] at hle
    exact Nat.lt_of_le_of_lt hle htable.bound
  obtain ⟨h₁, h₂, h₃⟩ := field_relocationRecord hindex h.offset hbound (coffEncoding_lt hencoding)
  have hbytes : slice (data.drop r.offset) 0 encoding.2 = bytes := by
    have hself := hfield.2
    rw [hlength] at hself
    rw [hdata encoding hencoding, hself]
  obtain ⟨a, hread, hmod⟩ := (applyAddend_spec hencoding happly).2 _ hbytes
  refine ⟨{ offset := r.offset, symbol := index, type := encoding.1, addend := a }, ?_, ?_⟩
  · unfold readRelocation
    rw [hslice, h₁, h₂, h₃]
    dsimp only
    rw [hread]
    rfl
  · rw [map_outputSymbols] at hname
    refine ⟨rfl, ⟨encoding.2, hencoding⟩, ⟨k, ?_⟩, hmod⟩
    have hlt : k < (outputSymbols o).length := by
      have hlen := (List.getElem?_eq_some_iff.mp hname).1
      rw [← map_outputSymbols, List.length_map] at hlen
      exact hlen
    refine ⟨symbolImage ((outputSymbols o).get ⟨k, hlt⟩), ?_, hname⟩
    unfold tableImage
    rw [List.getElem?_zip_eq_some]
    refine ⟨hk, ?_⟩
    rw [List.getElem?_map, List.getElem?_eq_getElem hlt]
    rfl

theorem readSection_ok {n index lo hi symbols : Nat} {strings : Strings} {out table : List UInt8}
    {s : Section} {l : SectionLayout} (htable : t.Inv (n * 2) (outputSymbols o))
    (hwithin : strings.Within table) (hpos : 0 < lo) (hroom : hi ≤ out.length)
    (hplanned : Planned strings s
      (o.relocations.filter (·.sectionIndex = index)).length lo hi l)
    (hinside : FieldsInside o.target.machine s (o.relocations.filter (·.sectionIndex = index)))
    (h : SectionHolds o.target.machine t.indices symbols out index s
      (o.relocations.filter (·.sectionIndex = index)) l) :
    ∃ e, readSection o.target.machine out table (sectionHeader l
        (o.relocations.filter (·.sectionIndex = index)).length) = some e ∧
      SectionMatches o (tableImage n t (outputSymbols o)) index s e := by
  have hmem : ∀ r ∈ o.relocations.filter (·.sectionIndex = index),
      r ∈ o.relocations ∧ r.sectionIndex = index := fun r hr => by
    have hfilter := List.mem_filter.mp hr
    exact ⟨hfilter.1, of_decide_eq_true hfilter.2⟩
  generalize hrecords : o.relocations.filter (·.sectionIndex = index) = records
    at hplanned hinside h hmem ⊢
  have hcount := hplanned.few
  obtain ⟨hsize, hsizeBound⟩ := hplanned.size
  obtain ⟨hflagsBound, hkind, halign⟩ := hplanned.flags
  obtain ⟨h₁, h₂, h₃, h₄, h₅, h₆⟩ := @field_sectionHeader l records.length
    hplanned.nameLength hsizeBound hplanned.dataBound hplanned.relocationBound (by omega)
    hflagsBound
  generalize hdata : (if l.data = 0 then [] else slice out l.data l.size) = data
  -- The data in the file is the data of the section.
  have hfull : ¬ NoData s → data = slice out l.data s.data.length ∧ l.size = s.data.length := by
    intro hsome
    have hkindNe : s.kind ≠ .bss := fun hb => hsome (.inl hb)
    have hlength := memorySize_data hsize hkindNe
    have hdataPos := (hplanned.data hsome).1
    rw [if_neg (by omega), hlength] at hdata
    exact ⟨hdata.symm, hlength⟩
  have hempty : NoData s → data = [] := by
    intro hnone
    rw [if_pos (hplanned.noData hnone)] at hdata
    exact hdata.symm
  have hrelocations : ∀ m ∈ List.range records.length, ∃ e,
      readRelocation o.target.machine data (slice out (l.relocation + m * 10) 10) = some e ∧
        ∀ r, records[m]? = some r →
          RelocationMatches o (tableImage n t (outputSymbols o)) r e := by
    intro m hm
    have hlt := List.mem_range.mp hm
    have hget := List.getElem?_eq_getElem hlt
    have hr := List.getElem_mem hlt
    obtain ⟨hsome, hend⟩ := hinside _ hr
    obtain ⟨hslice, -⟩ := hfull hsome
    obtain ⟨e, hread, hmatch⟩ := @readRelocation_ok _ _ _ _ data _ _ _ htable (hmem _ hr).1
      (h.relocations m _ hget) fun e he => by
        have hlast := hend e he
        rw [hslice]
        have hdrop : slice ((slice out l.data s.data.length).drop (records[m]).offset) 0 e.2 =
            slice (slice out l.data s.data.length) (records[m]).offset e.2 := by
          unfold slice
          rw [List.drop_zero]
        rw [hdrop, slice_slice hlast]
    refine ⟨e, hread, fun r hr' => ?_⟩
    rw [hget] at hr'
    cases hr'
    exact hmatch
  obtain ⟨es, hmap, hall⟩ := mapM_some hrelocations
  refine ⟨{ name := asBytes s.name, kind := s.kind, align := max s.align.toNat 1
            size := l.size, data := data, relocations := es }, ?_, ?_⟩
  · unfold readSection
    rw [h₁, h₂, h₃, h₄, h₅, h₆, hplanned.name table hwithin, hkind, halign]
    dsimp only
    rw [hdata, hmap]
    rfl
  · refine ⟨rfl, rfl, rfl, hsize, ?_, fun hkindNe k hk => ?_, ?_⟩
    · by_cases hnone : NoData s
      · rw [hempty hnone]
        unfold Section.fileSize
        rcases hnone with hbss | hnil
        · rw [if_pos hbss]
          rfl
        · rw [hnil]
          split <;> rfl
      · obtain ⟨hslice, -⟩ := hfull hnone
        have hend := (hplanned.data hnone).2.1
        have hkindNe : s.kind ≠ .bss := fun hb => hnone (.inl hb)
        show data.length = s.fileSize
        rw [hslice, length_slice (by omega)]
        unfold Section.fileSize
        rw [if_neg hkindNe]
    · show data[k]? = s.data[k]?
      by_cases hnone : NoData s
      · have hnil := hnone.resolve_left hkindNe
        rw [hempty hnone, hnil]
      · obtain ⟨hslice, -⟩ := hfull hnone
        by_cases hlt : k < s.data.length
        · rw [hslice, getElem?_slice_of_lt hlt]
          refine h.data hnone k hlt fun r hr hin => hk ?_
          obtain ⟨e, he, hfirst, hlast⟩ := hin
          exact ⟨r, (hmem r hr).1, (hmem r hr).2, e, he, by omega, by omega⟩
        · rw [hslice, getElem?_slice, if_neg hlt, List.getElem?_eq_none (by omega)]
    · rw [hrecords]
      exact forall₂_of_range hall

/-! ## The whole object -/

theorem getElem?_grouped (o : ObjectFile) (index : Nat) :
    (grouped o)[index]? = o.sections[index]?.map fun s =>
      (s, o.relocations.filter (·.sectionIndex = index)) := by
  unfold grouped
  rw [List.getElem?_map, List.getElem?_zipIdx]
  cases o.sections[index]? with
  | none => rfl
  | some s =>
      simp only [Option.map_some, Nat.zero_add]

/-- Relocations of one section are apart when their ranges are. -/
theorem apart_of_ranges {relocations : List ObjectRelocation} {ranges : List FieldRange}
    (hfields : List.Forall₂ (fun r range => occupiedField machine r = .ok range) relocations ranges)
    (hranges : ranges.Pairwise FieldsApart) :
    relocations.Pairwise fun a b => a.sectionIndex = b.sectionIndex → Apart machine a b := by
  induction hfields with
  | nil => exact .nil
  | @cons a range as ranges ha hrest ih =>
      obtain ⟨hfirst, htail⟩ := List.pairwise_cons.mp hranges
      refine List.pairwise_cons.mpr ⟨fun b hb hsection e e' he he' => ?_, ih htail⟩
      obtain ⟨range', hmem, hb'⟩ := exists_of_forall₂ hrest hb
      obtain ⟨_, h₁, h₂⟩ := bind_ok_iff.mp ha
      obtain ⟨_, h₃, h₄⟩ := bind_ok_iff.mp hb'
      cases (orThrow_ok_iff.mp h₁).symm.trans he
      cases (orThrow_ok_iff.mp h₃).symm.trans he'
      cases h₂
      cases h₄
      exact hfirst _ hmem hsection

/-- The check of the writer keeps the fields of a section apart. -/
theorem apart_of_occupied {occupied : List FieldRange}
    (h : o.relocations.mapM (occupiedField o.target.machine) = .ok occupied)
    (hdisjoint : neighboursDisjoint (occupied.insertionSort FieldLe) = true) (index : Nat) :
    (o.relocations.filter (·.sectionIndex = index)).Pairwise (Apart o.target.machine) := by
  have hall := apart_of_ranges (mapM_ok h) (pairwise_apart hdisjoint)
  refine (hall.filter _).imp_of_mem fun {a b} ha hb hab => hab ?_
  have ha' := of_decide_eq_true (List.mem_filter.mp ha).2
  have hb' := of_decide_eq_true (List.mem_filter.mp hb).2
  rw [ha', hb']

/-- The fields of the relocations of a section lie in its data. -/
theorem fieldsInside_of_valid (h : o.Valid) (hformat : o.target.format = .coff) {index : Nat}
    {s : Section} (hs : o.sections[index]? = some s) :
    FieldsInside o.target.machine s (o.relocations.filter (·.sectionIndex = index)) := by
  intro r hr
  obtain ⟨hmem, hindex⟩ := List.mem_filter.mp hr
  have hsection := of_decide_eq_true hindex
  obtain ⟨-, s', hs', hkind, e, he, hend⟩ := h.relocations r hmem
  rw [hsection, hs] at hs'
  cases hs'
  have hencoding : r.kind.encoding o.target = r.kind.coffEncoding o.target.machine := by
    unfold RelocKind.encoding
    rw [hformat]
  rw [hencoding] at he
  refine ⟨?_, fun e' he' => ?_⟩
  · rintro (hbss | hnil)
    · exact hkind hbss
    · have hwidth := coffEncoding_pos he
      rw [hnil] at hend
      simp only [List.length_nil] at hend
      omega
  · cases he.symm.trans he'
    exact hend

theorem readMachine_code {target : ObjectTarget} (h : target.validate = .ok ())
    (hformat : target.format = .coff) :
    readMachine (if target.machine = .x86_64 then 0x8664 else 0xaa64) = some target.machine := by
  have hother : target.format ≠ .elf64 := by
    rw [hformat]
    decide
  rcases ObjectTarget.validate_machine h hother with hmachine | hmachine
  all_goals
    rw [hmachine]
    rfl

/-! ## The plan and the bytes -/

/-- All that emission needs besides the object. -/
structure FilePlan where
  layouts : List SectionLayout
  cursor : Nat
  table : SymbolTable
  stringAt : Nat
  stop : Nat

/-- The writer plans the whole file before it puts in a byte. -/
def planFile (o : ObjectFile) (limit : Nat) : Except ObjectError FilePlan := do
  o.validate
  require (o.target.format = .coff) invalid
  require (o.sections.length ≤ 32767) invalid
  discard (grow 0 24 limit)
  require (o.symbols.length + o.relocations.length ≤ limit / 10) outputLimit
  let start ← grow 20 (o.sections.length * 40) limit
  let occupied ← o.relocations.mapM (occupiedField o.target.machine)
  require (neighboursDisjoint (occupied.insertionSort FieldLe) = true) invalid
  let plans ← planSections limit (grouped o) (.new limit) start
  let table ← planSymbols o plans.strings
  let stringAt ← grow plans.cursor (table.count * 18) limit
  let stop ← grow stringAt table.strings.finish.length limit
  return {
    layouts := plans.layouts
    cursor := plans.cursor
    table := table
    stringAt := stringAt
    stop := stop }

def emitFile (o : ObjectFile) (p : FilePlan) : Except ObjectError (List UInt8) := do
  let out := fileHeader (List.replicate p.stop 0) o.target.machine o.sections.length p.cursor
    p.table.count
  let out ← emitSections o.target.machine p.table.indices p.cursor out 0
    ((grouped o).zip p.layouts)
  let out := emitRecords out (p.cursor + o.sections.length * 36) p.table.records
  return patch out p.stringAt p.table.strings.finish

theorem write_eq (o : ObjectFile) (maxOutputSize : UInt64) :
    write o maxOutputSize =
      planFile o (min maxOutputSize.toNat (2 ^ 32 - 1)) >>= emitFile o := by
  simp only [write, planFile, emitFile, bind_assoc, pure_bind]

/-- What the plan of a file says. -/
structure FilePlan.Spec (o : ObjectFile) (p : FilePlan) : Prop where
  valid : o.Valid
  format : o.target.format = .coff
  few : o.sections.length ≤ 32767
  apart : ∀ index, (o.relocations.filter (·.sectionIndex = index)).Pairwise
    (Apart o.target.machine)
  planned : ∃ strings : Strings, strings.Within p.table.strings.bytes ∧
    PlannedAll strings (grouped o) p.layouts (20 + o.sections.length * 40) p.cursor
  cursorLe : 20 + o.sections.length * 40 ≤ p.cursor
  cursorBound : p.cursor < 2 ^ 32
  table : p.table.Inv (o.sections.length * 2) (outputSymbols o)
  stringAt : p.stringAt = p.cursor + p.table.count * 18
  stop : p.stop = p.stringAt + p.table.strings.finish.length

theorem planFile_spec {limit : Nat} {p : FilePlan} (h : planFile o limit = .ok p) : p.Spec o := by
  obtain ⟨_, hvalidate, h₁⟩ := bind_ok_iff.mp h
  obtain ⟨_, hformat, h₂⟩ := bind_ok_iff.mp h₁
  obtain ⟨_, hsections, h₃⟩ := bind_ok_iff.mp h₂
  obtain ⟨_, -, h₄⟩ := bind_ok_iff.mp h₃
  obtain ⟨_, -, h₅⟩ := bind_ok_iff.mp h₄
  obtain ⟨start, hstart, h₆⟩ := bind_ok_iff.mp h₅
  obtain ⟨occupied, hoccupied, h₇⟩ := bind_ok_iff.mp h₆
  obtain ⟨_, hdisjoint, h₈⟩ := bind_ok_iff.mp h₇
  obtain ⟨plans, hplans, h₉⟩ := bind_ok_iff.mp h₈
  obtain ⟨t, htable, h₁₀⟩ := bind_ok_iff.mp h₉
  obtain ⟨at', hat, h₁₁⟩ := bind_ok_iff.mp h₁₀
  obtain ⟨stop, hstop, h₁₂⟩ := bind_ok_iff.mp h₁₁
  cases h₁₂
  have hvalid := ObjectFile.validate_valid hvalidate
  have hfew := require_ok_iff.mp hsections
  obtain ⟨rfl, -, hstartBound⟩ := grow_ok hstart
  obtain ⟨hstrings, -, hcursor, hplanned⟩ :=
    planSections_ok hplans (Strings.inv_new _) hstartBound
  exact {
    valid := hvalid
    format := require_ok_iff.mp hformat
    few := hfew
    apart := apart_of_occupied hoccupied (require_ok_iff.mp hdisjoint)
    planned := ⟨plans.strings, planSymbols_within hstrings htable, hplanned⟩
    cursorLe := hplanned.le
    cursorBound := hcursor
    table := planSymbols_spec hstrings (fun s hs i hi =>
      Nat.lt_of_lt_of_le (hvalid.symbols s hs i hi) hfew) htable
    stringAt := (grow_ok hat).1
    stop := (grow_ok hstop).1 }

/-- The parts of a finished file. -/
structure FileHolds (o : ObjectFile) (p : FilePlan) (names : Strings) (bytes : List UInt8) :
    Prop where
  length : bytes.length = p.stop
  header : Holds bytes 0 (fileHeaderBytes o.target.machine o.sections.length p.cursor p.table.count)
  records : Holds bytes (p.cursor + o.sections.length * 36) p.table.records.flatten
  strings : Holds bytes p.stringAt p.table.strings.finish
  sections : ∀ index s, o.sections[index]? = some s → ∃ l lo hi, 0 < lo ∧ hi ≤ p.cursor ∧
    Planned names s (o.relocations.filter (·.sectionIndex = index)).length lo hi l ∧
      SectionHolds o.target.machine p.table.indices p.cursor bytes index s
        (o.relocations.filter (·.sectionIndex = index)) l

/-- Emission leaves all parts, since none of them touches another one. -/
theorem emitFile_ok {p : FilePlan} {bytes : List UInt8} (hspec : p.Spec o)
    (h : emitFile o p = .ok bytes) : ∃ strings : Strings,
      strings.Within p.table.strings.bytes ∧ FileHolds o p strings bytes := by
  obtain ⟨out, hout, h₁⟩ := bind_ok_iff.mp h
  have hbytes := (Except.ok.inj h₁).symm
  obtain ⟨strings, hwithin, hplanned⟩ := hspec.planned
  have hinv := hspec.table
  have hatEq := hspec.stringAt
  have hstopEq := hspec.stop
  have horder := hspec.cursorLe
  have hgrouped : (grouped o).length = o.sections.length := by
    unfold grouped
    rw [List.length_map, List.length_zipIdx]
  have hcount : o.sections.length * 2 ≤ p.table.count := by
    rw [hinv.count]
    exact le_recordsEnd _ _
  have hflatten : p.table.records.flatten.length =
      18 * p.table.count - o.sections.length * 36 := by
    have hdivides : ∀ r ∈ p.table.records, 18 ∣ r.length := fun r hr => by
      obtain ⟨s, -, hs⟩ := exists_of_forall₂ (hinv.entries _ (List.prefix_refl _)) hr
      exact ⟨_, hs.length⟩
    have hend := recordsEnd_flatten hdivides (o.sections.length * 2)
    rw [← hinv.count] at hend
    omega
  -- Emission, step by step.
  obtain ⟨f₁, hheader⟩ := fileHeader_ok (n := p.stop) (by omega) o.target.machine
    o.sections.length p.cursor p.table.count
  have hzero : ∀ {a m : Nat}, 20 ≤ a → a + m ≤ p.stop →
      Holds (fileHeader (List.replicate p.stop 0) o.target.machine o.sections.length p.cursor
        p.table.count) a (List.replicate m 0) := fun ha hm =>
    (Holds.replicate hm).frame f₁ fun k h₁ h₂ h₃ => by omega
  have hlength₁ := f₁.length
  rw [List.length_replicate] at hlength₁
  generalize fileHeader (List.replicate p.stop 0) o.target.machine o.sections.length p.cursor
    p.table.count = out₀ at hout hheader hzero hlength₁
  have hfields : ∀ e ∈ grouped o, FieldsInside o.target.machine e.1 e.2 ∧
      e.2.Pairwise (Apart o.target.machine) := fun e he => by
    obtain ⟨index, hindex⟩ := List.getElem?_of_mem he
    rw [getElem?_grouped, Option.map_eq_some_iff] at hindex
    obtain ⟨s, hs, rfl⟩ := hindex
    exact ⟨fieldsInside_of_valid hspec.valid hspec.format hs, hspec.apart index⟩
  obtain ⟨f₂, hsectionsHold⟩ := emitSections_ok hout hplanned (by omega) (Nat.le_refl _)
    (fun e he => (hfields e he).1) (fun e he => (hfields e he).2)
    (hzero (by omega) (by omega)) (hzero (by omega) (by omega))
  have hlength₂ := f₂.length
  obtain ⟨f₃, hrecords⟩ := @emitRecords_ok out (p.cursor + o.sections.length * 36)
    p.table.records (by omega)
  have hlength₃ := f₃.length
  generalize emitRecords out (p.cursor + o.sections.length * 36) p.table.records = out₁
    at hbytes f₃ hrecords hlength₃
  have hfits : p.stringAt + p.table.strings.finish.length ≤ out₁.length := by omega
  have f₄ := SameOutside.patch hfits
  have hstringsHold : Holds bytes p.stringAt p.table.strings.finish := by
    rw [hbytes]
    exact Holds.patch_self hfits
  rw [← hbytes] at f₄
  have hlength₄ := f₄.length
  have hheaderLength : (fileHeaderBytes o.target.machine o.sections.length p.cursor
      p.table.count).length = 20 := by simp [fileHeaderBytes]
  refine ⟨strings, hwithin, by omega, ?_, ?_, hstringsHold, fun index s hs => ?_⟩
  · refine ((hheader.frame f₂ ?_).frame f₃ ?_).frame f₄ ?_
    · rintro k h₁ h₂ (h₃ | h₃ | h₃) <;> omega
    · rintro k h₁ h₂ h₃
      omega
    · rintro k h₁ h₂ h₃
      omega
  · exact hrecords.frame f₄ fun k h₁ h₂ h₃ => by omega
  · -- The sections stay as they were emitted.
    have hlt := (List.getElem?_eq_some_iff.mp hs).1
    have he : (grouped o)[index]? = some (s, o.relocations.filter (·.sectionIndex = index)) := by
      rw [getElem?_grouped, hs]
      rfl
    have hlayouts := hplanned.length
    obtain ⟨l, hl⟩ : ∃ l, p.layouts[index]? = some l :=
      ⟨_, List.getElem?_eq_getElem (by omega)⟩
    obtain ⟨lo, hi, hlo, hhi, hpart⟩ := hplanned.get he hl
    have hinside := fieldsInside_of_valid hspec.valid hspec.format hs
    have hholds := hsectionsHold index _ l he hl
    rw [Nat.zero_add] at hholds
    refine ⟨l, lo, hi, by omega, hhi, hpart, (hholds.frame hpart hinside f₃ ?_ ?_ ?_).frame hpart
      hinside f₄ ?_ ?_ ?_⟩
    · rintro k h₁ h₂ h₃
      omega
    · rintro k h₁ h₂ h₃
      omega
    · rintro k h₁ h₂ h₃
      omega
    · rintro k h₁ h₂ h₃
      omega
    · rintro k h₁ h₂ h₃
      omega
    · rintro k h₁ h₂ h₃
      omega

/-- The finished file is read as what the format has of the object. -/
theorem represents_of_fileHolds {p : FilePlan} {strings : Strings} {bytes : List UInt8}
    (hspec : p.Spec o) (hwithin : strings.Within p.table.strings.bytes)
    (h : FileHolds o p strings bytes) : ∃ image, read bytes = some image ∧ Represents o image := by
  have hinv := hspec.table
  have hfew := hspec.few
  have hatEq := hspec.stringAt
  have hroom : p.cursor ≤ bytes.length := by
    rw [h.length, hspec.stop]
    omega
  have hheaderLength : (fileHeaderBytes o.target.machine o.sections.length p.cursor
      p.table.count).length = 20 := by simp [fileHeaderBytes]
  obtain ⟨g₁, g₂, g₃, g₄, g₅⟩ := @field_fileHeaderBytes o.target.machine
    o.sections.length _ _ (by omega) hspec.cursorBound hinv.bound
  have hfield : ∀ {a n : Nat}, a + n ≤ 20 → field bytes a n = field (fileHeaderBytes
      o.target.machine o.sections.length p.cursor p.table.count) a n := fun hle => by
    have hslice := h.header.slice (Nat.le_trans hle (Nat.le_of_eq hheaderLength.symm))
    rw [Nat.zero_add] at hslice
    unfold field
    rw [hslice]
  have htableAt : p.cursor + 18 * p.table.count = p.stringAt := by omega
  have htableBytes : slice bytes p.stringAt (field bytes p.stringAt 4) = p.table.strings.finish := by
    have hsize := hinv.strings.size
    have hlengthFinish := Strings.length_finish hinv.strings
    have hsizeField := Strings.field_finish hinv.strings
    have hslice := h.strings.slice (a := 0) (n := 4) (by omega)
    unfold field at hsizeField ⊢
    rw [Nat.add_zero] at hslice
    rw [hslice, hsizeField, ← hlengthFinish, h.strings.2]
  have hfinish := Strings.within_finish p.table.strings
  have hsectionsRead : ∀ i ∈ List.range o.sections.length, ∃ e,
      readSection o.target.machine bytes p.table.strings.finish (slice bytes (20 + 0 + 40 * i) 40) =
        some e ∧ ∀ s, o.sections[i]? = some s →
          SectionMatches o (tableImage o.sections.length p.table (outputSymbols o)) i s e := by
    intro i hi
    have hs := List.getElem?_eq_getElem (List.mem_range.mp hi)
    obtain ⟨l, lo, hiBound, hpos, hle, hpart, hholds⟩ := h.sections i _ hs
    obtain ⟨e, hread, hmatch⟩ := readSection_ok hinv (hwithin.trans hfinish) hpos
      (by omega) hpart (fieldsInside_of_valid hspec.valid hspec.format hs) hholds
    have hslice := hholds.header.2
    rw [length_sectionHeader hpart.nameLength, Nat.mul_comm i 40] at hslice
    refine ⟨e, ?_, fun s hs' => ?_⟩
    · rw [Nat.add_zero, hslice, hread]
    · rw [hs] at hs'
      cases hs'
      exact hmatch
  obtain ⟨es, hmap, hall⟩ := mapM_some hsectionsRead
  have hsymbolsRead := @readSymbols_table _ _ _ hinv _ bytes hfinish p.cursor
    (fun i hi => by
      obtain ⟨l, lo, hiBound, hpos, hle, hpart, hholds⟩ := h.sections i _
        (List.getElem?_eq_getElem hi)
      exact ⟨_, hholds.symbol, length_sectionSymbolRecord hpart.symbolNameLength _ _ _,
        section_entry hpart.symbolNameLength _ _ _ _⟩) h.records
  refine ⟨{ machine := o.target.machine, sections := es
            symbols := tableImage o.sections.length p.table (outputSymbols o) }, ?_, ?_⟩
  · unfold read
    rw [hfield (by decide), hfield (by decide), hfield (by decide), hfield (by decide),
      hfield (by decide), g₁, g₂, g₃, g₄, g₅, readMachine_code hspec.valid.target hspec.format]
    dsimp only
    rw [htableAt, htableBytes]
    show ((List.range o.sections.length).mapM (fun i => readSection o.target.machine bytes
      p.table.strings.finish (slice bytes (20 + 0 + 40 * i) 40)) >>= fun sections => _) = _
    rw [hmap]
    show (readSymbols p.table.strings.finish 0 (slice bytes p.cursor (18 * p.table.count)) >>= fun _ =>
      _) = _
    rw [hsymbolsRead]
    rfl
  · obtain ⟨hlength, hget⟩ := List.forall₂_iff_get.mp hall
    rw [List.length_range] at hlength
    refine ⟨rfl, hlength.symm, fun index s e hs he => ?_, ?_⟩
    · obtain ⟨h₂, rfl⟩ := List.getElem?_eq_some_iff.mp he
      have hlt := (List.getElem?_eq_some_iff.mp hs).1
      have hindex := hget index (by rwa [List.length_range]) h₂
      simp only [List.get_eq_getElem, List.getElem_range] at hindex
      exact hindex s hs
    · exact map_tableImage hinv

/-- Whatever the writer accepts, the bytes are read as what the format has of the object. -/
theorem write_represents (o : ObjectFile) (maxOutputSize : UInt64) (bytes : List UInt8)
    (h : write o maxOutputSize = .ok bytes) : ∃ image, read bytes = some image ∧
      Represents o image := by
  rw [write_eq] at h
  obtain ⟨p, hplan, hemit⟩ := bind_ok_iff.mp h
  have hspec := planFile_spec hplan
  obtain ⟨strings, hwithin, hholds⟩ := emitFile_ok hspec hemit
  exact represents_of_fileHolds hspec hwithin hholds

/-- A call of a function that another object defines. -/
def callObject : ObjectFile where
  target := { format := .coff, machine := .x86_64, endian := .little, addressBits := 64 }
  sections := [{ name := ".text", kind := .text, data := [0xe8, 0, 0, 0, 0, 0xc3], zeroFill := 0
                 align := 16 }]
  symbols := [{ kind := .function, name := "entry", sectionIndex := some 0, value := 0, size := 6
                binding := .global, visibility := .default }]
  relocations := [{ sectionIndex := 0, offset := 1, symbol := "external_helper", addend := -4
                    kind := .plt32 }]

theorem write_represents_call : ∃ bytes image, write callObject 4096 = .ok bytes ∧
    read bytes = some image ∧ Represents callObject image := by
  have hok : (write callObject 4096).isOk = true := by decide +kernel
  cases h : write callObject 4096 with
  | error e =>
      rw [h] at hok
      cases hok
  | ok bytes =>
      obtain ⟨image, hread, hrepresents⟩ := write_represents callObject 4096 bytes h
      exact ⟨bytes, image, rfl, hread, hrepresents⟩

/-- Eight bytes of data with a symbol of the given size. -/
def sizedData (size : UInt64) : ObjectFile where
  target := { format := .coff, machine := .x86_64, endian := .little, addressBits := 64 }
  sections := [{ name := ".data", kind := .data, data := List.replicate 8 0, zeroFill := 0
                 align := 8 }]
  symbols := [{ kind := .object, name := "table", sectionIndex := some 0, value := 0, size := size
                binding := .global, visibility := .default }]
  relocations := []

/-- No rule gives the sizes of all symbols: objects that differ in the size of a symbol that is
no function are written alike. -/
theorem no_symbol_sizes : ¬ ∃ sizes : List UInt8 → List UInt64,
    ∀ (o : ObjectFile) (maxOutputSize : UInt64) (bytes : List UInt8),
      write o maxOutputSize = .ok bytes → sizes bytes = o.symbols.map ObjectSymbol.size := by
  rintro ⟨sizes, hsizes⟩
  have hok : (write (sizedData 8) 4096).isOk = true := by decide +kernel
  have hsame : (write (sizedData 8) 4096).toOption = (write (sizedData 4) 4096).toOption := by
    decide +kernel
  cases h₈ : write (sizedData 8) 4096 with
  | error e =>
      rw [h₈] at hok
      cases hok
  | ok bytes =>
      cases h₄ : write (sizedData 4) 4096 with
      | error e =>
          rw [h₈, h₄] at hsame
          cases hsame
      | ok bytes' =>
          rw [h₈, h₄] at hsame
          cases hsame
          have height := hsizes _ _ _ h₈
          have hfour := hsizes _ _ _ h₄
          rw [height] at hfour
          exact absurd hfour (by decide)

end Whale.Coff
