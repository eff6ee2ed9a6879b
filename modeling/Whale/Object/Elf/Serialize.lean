import Whale.Object.Elf.Preflight

set_option autoImplicit false

/-! # The serializer of the ELF writer

What the writer does behind its preflight. The bytes it puts out are as many as the preflight
computes, and its limit says only whether that is too many (`writeElf_preflight_exact`). -/

namespace Whale.Elf

/-- What the writer does behind its preflight. -/
def serialize (o : ObjectFile) (limit machine : Nat) : Except ObjectError (List UInt8) := do
  o.validate
  let t ← o.sections.foldlM addSection ⟨[0], [(ElfSectionHeader.blank, none)]⟩
  let symbols ← buildSymbols o limit
  let t ← addMetadata o limit symbols t
  let (entries, stop) ← place 64 (t.entries.drop 1)
  let sectionOffset ← alignUp stop 8
  let bytes ← checkedTableBytes t.entries.length 64 limit
  let total ← advance sectionOffset bytes
  let _ ← checkedOutputSize total limit
  let count ← checkedSectionCount o.sections.length (relocationSections o)
  let stringSection := t.entries.length - 1
  require (stringSection < 2 ^ 16) (writeError .overflow)
  let out := emitPayloads (headerBytes machine o.target.elfFlags sectionOffset count stringSection)
    entries
  return padTo out sectionOffset ++
    ((t.entries.take 1 ++ entries).flatMap fun e => e.1.toBytes)

theorem writeElf_eq (o : ObjectFile) (limit : Nat) :
    writeElf o limit = (do
      let machine ← o.target.elfMachine.mapError fun _ => writeError .invalidTarget
      let _ ← checkedSectionCount o.sections.length (relocationSections o)
      preflight o limit
      serialize o limit machine) := rfl

/-! ## Checks that succeeded -/

theorem alignUp_ok {offset align r k : Nat} (hk : k ≤ 64) (halign : align = 2 ^ k)
    (h : alignUp offset align = .ok r) : r = roundUp offset align := by
  subst halign
  obtain ⟨-, h⟩ := require_then_ok_iff.mp h
  exact ((checkedAlignUp_iff hk).mp (orThrow_ok_iff.mp h)).1.symm

theorem advance_ok {offset size stop : Nat} (h : advance offset size = .ok stop) :
    stop = offset + size := (checkedAdd_eq_some.mp (orThrow_ok_iff.mp h)).1.symm

theorem checkedU32_ok {value v : Nat} (h : checkedU32 value = .ok v) : v = value ∧ v < 2 ^ 32 := by
  obtain ⟨hlt, h⟩ := require_then_ok_iff.mp h
  cases h
  exact ⟨rfl, hlt⟩

variable {limit : Nat}

theorem checkedOutputSize_ok {size limit v : Nat} (h : checkedOutputSize size limit = .ok v) :
    v = size ∧ size ≤ limit ∧ size < 2 ^ 63 := by
  obtain ⟨hlimit, h⟩ := require_then_ok_iff.mp h
  obtain ⟨hword, h⟩ := require_then_ok_iff.mp h
  cases h
  exact ⟨rfl, hlimit, hword⟩

theorem checkedTableBytes_ok {count stride limit v : Nat}
    (h : checkedTableBytes count stride limit = .ok v) : v = count * stride := by
  obtain ⟨size, hsize, h⟩ := bind_ok_iff.mp h
  obtain ⟨rfl, -⟩ := checkedMul_eq_some.mp (orThrow_ok_iff.mp hsize)
  exact (checkedOutputSize_ok h).1

/-- The limit does not matter where the table is within it. -/
theorem checkedTableBytes_congr {count stride limit limit' : Nat} (h : count * stride ≤ limit)
    (h' : count * stride ≤ limit') :
    checkedTableBytes count stride limit' = checkedTableBytes count stride limit := by
  unfold checkedTableBytes
  cases hsize : checkedMul count stride with
  | none => rfl
  | some size =>
      obtain ⟨rfl, -⟩ := checkedMul_eq_some.mp hsize
      rw [orThrow_some, ok_bind, ok_bind]
      unfold checkedOutputSize
      rw [require_of h, require_of h']

theorem pushName_ok {table table' : List UInt8} {name : String} {index : Nat}
    (h : pushName table name = .ok (index, table')) :
    table'.length = table.length + nameSize name ∧ table'.length < 2 ^ 32 := by
  obtain ⟨stop, hstop, h⟩ := bind_ok_iff.mp h
  obtain ⟨index', -, h⟩ := bind_ok_iff.mp h
  obtain ⟨sum, hsum, hstop⟩ := bind_ok_iff.mp hstop
  obtain ⟨first, hfirst, hsum⟩ := Option.bind_eq_some_iff.mp (orThrow_ok_iff.mp hsum)
  obtain ⟨rfl, -⟩ := checkedAdd_eq_some.mp hfirst
  obtain ⟨rfl, -⟩ := checkedAdd_eq_some.mp hsum
  obtain ⟨rfl, hlt⟩ := checkedU32_ok hstop
  cases h
  unfold nameSize
  rw [List.length_append, List.length_append, List.length_singleton]
  exact ⟨Nat.add_assoc _ _ _, hlt⟩

/-! ## Lengths of records -/

theorem length_headerBytes (machine flags sectionOffset sectionCount stringSection : Nat) :
    (headerBytes machine flags sectionOffset sectionCount stringSection).length = 64 := by
  simp [headerBytes, ident]

theorem ElfSectionHeader.length_toBytes (h : ElfSectionHeader) : h.toBytes.length = 64 := by
  simp [ElfSectionHeader.toBytes]

theorem ElfSym.length_toBytes (s : ElfSym) : s.toBytes.length = 24 := by
  simp [ElfSym.toBytes]

theorem ElfRela.length_toBytes (r : ElfRela) : r.toBytes.length = 24 := by
  simp [ElfRela.toBytes]

theorem length_flatMap_of_length {α : Type} {f : α → List UInt8} {n : Nat}
    (h : ∀ a, (f a).length = n) (as : List α) : (as.flatMap f).length = as.length * n := by
  induction as with
  | nil => simp
  | cons a as ih =>
      rw [List.flatMap_cons, List.length_append, h, ih, List.length_cons, Nat.succ_mul, Nat.add_comm]

/-! ## Entries -/

/-- The end of an entry in the file. -/
def entryEnd (offset : Nat) (e : Entry) : Nat :=
  if e.1.kind = 8 then offset
  else roundUp offset (max e.1.align 1) + (e.2.map List.length).getD 0

/-- The alignment of an entry is one that the rounding is exact for. -/
def AlignPow (e : Entry) : Prop := ∃ k ≤ 64, max e.1.align 1 = 2 ^ k

variable {t t' : Tables}

theorem addSection_ok {s : Section} (hvalid : s.Valid) (h : addSection t s = .ok t') :
    ∃ e, t'.entries = t.entries ++ [e] ∧ (∀ offset, entryEnd offset e = sectionEnd offset s) ∧
      AlignPow e ∧ t'.names.length = t.names.length + nameSize s.name := by
  obtain ⟨⟨index, names⟩, hname, h⟩ := bind_ok_iff.mp h
  obtain ⟨hsize, -⟩ := pushName_ok hname
  obtain ⟨k, hk, hpow⟩ := hvalid.align_pow
  have hmax : max (max s.align.toNat 1) 1 = max s.align.toNat 1 := by omega
  have ht := Except.ok.inj h
  refine ⟨_, (congrArg Tables.entries ht).symm, ?_, ⟨k, hk, hmax.trans hpow⟩, ?_⟩
  · intro offset
    unfold entryEnd sectionEnd
    simp only [hmax]
    cases s.kind <;> rfl
  · rw [← congrArg Tables.names ht]
    exact hsize

/-- Sections, as entries behind those that are there already. -/
theorem addSections_ok {sections : List Section} (hvalid : ∀ s ∈ sections, s.Valid)
    (h : sections.foldlM addSection t = .ok t') :
    ∃ es, t'.entries = t.entries ++ es ∧ es.length = sections.length ∧
      (∀ offset, es.foldl entryEnd offset = sections.foldl sectionEnd offset) ∧
      (∀ e ∈ es, AlignPow e) ∧
      t'.names.length = t.names.length + (sections.map fun s => nameSize s.name).sum := by
  induction sections generalizing t with
  | nil =>
      cases h
      exact ⟨[], (List.append_nil _).symm, rfl, fun _ => rfl, nofun, rfl⟩
  | cons s sections ih =>
      obtain ⟨t₁, hfirst, hrest⟩ := foldlM_cons_ok.mp h
      obtain ⟨es, hentries, hlength, hfold, halign, hnames⟩ :=
        ih (fun s' hs' => hvalid s' (List.mem_cons_of_mem _ hs')) hrest
      obtain ⟨e, hentry, hend, hpow, hname⟩ := addSection_ok (hvalid s List.mem_cons_self) hfirst
      refine ⟨e :: es, ?_, ?_, ?_, ?_, ?_⟩
      · rw [hentries, hentry, List.append_assoc, List.singleton_append]
      · rw [List.length_cons, hlength, List.length_cons]
      · intro offset
        rw [List.foldl_cons, List.foldl_cons, hfold, hend]
      · exact List.forall_mem_cons.mpr ⟨hpow, halign⟩
      · rw [hnames, hname, List.map_cons, List.sum_cons, Nat.add_assoc]

theorem length_asBytes_append (a b : String) :
    (asBytes (a ++ b)).length = (asBytes a).length + (asBytes b).length := by
  unfold asBytes
  rw [String.toList_append, List.flatMap_append, List.length_append]

/-- The size of the name of a relocation table, if there is one. -/
def relocationNameSize (o : ObjectFile) (e : Section × Nat) : Nat :=
  if relocationsOf o e.2 = [] then 0 else nameSize e.1.name + 5

/-- The numbers of relocations of those entries that have any. -/
def countsOf (o : ObjectFile) (entries : List (Section × Nat)) : List Nat :=
  (entries.map fun e => (relocationsOf o e.2).length).filter (· ≠ 0)

variable {o : ObjectFile}

theorem addRelocations_ok {limit symbolTable : Nat} {indexByName : AssocMap String Nat}
    {e : Section × Nat} (hne : relocationsOf o e.2 ≠ [])
    (h : addRelocations o limit symbolTable indexByName t e = .ok t') :
    ∃ entry, t'.entries = t.entries ++ [entry] ∧
      (∀ offset, entryEnd offset entry = tableEnd offset (relocationsOf o e.2).length) ∧
      AlignPow entry ∧ t'.names.length = t.names.length + (nameSize e.1.name + 5) := by
  obtain ⟨s, index⟩ := e
  unfold addRelocations at h
  simp only at h hne
  rw [if_neg hne] at h
  obtain ⟨⟨name, names⟩, hname, h⟩ := bind_ok_iff.mp h
  obtain ⟨_, -, h⟩ := bind_ok_iff.mp h
  obtain ⟨records, hrecords, h⟩ := bind_ok_iff.mp h
  obtain ⟨target, -, h⟩ := bind_ok_iff.mp h
  obtain ⟨hsize, -⟩ := pushName_ok hname
  have hdata := length_flatMap_of_length ElfRela.length_toBytes records
  rw [← (mapM_ok hrecords).length_eq] at hdata
  have ht := Except.ok.inj h
  refine ⟨_, (congrArg Tables.entries ht).symm, ?_, ⟨3, by decide, rfl⟩, ?_⟩
  · intro offset
    show roundUp offset 8 + (records.flatMap ElfRela.toBytes).length = _
    rw [hdata]
    rfl
  · have hrela : (asBytes (".rela" ++ s.name)).length = 5 + (asBytes s.name).length := by
      rw [length_asBytes_append]
      rfl
    rw [← congrArg Tables.names ht]
    unfold nameSize at hsize ⊢
    simp only
    omega

theorem addAllRelocations_ok {limit symbolTable : Nat} {indexByName : AssocMap String Nat}
    {entries : List (Section × Nat)}
    (h : entries.foldlM (addRelocations o limit symbolTable indexByName) t = .ok t') :
    ∃ es, t'.entries = t.entries ++ es ∧ es.length = (countsOf o entries).length ∧
      (∀ offset, es.foldl entryEnd offset = (countsOf o entries).foldl tableEnd offset) ∧
      (∀ e ∈ es, AlignPow e) ∧
      t'.names.length = t.names.length + (entries.map (relocationNameSize o)).sum := by
  induction entries generalizing t with
  | nil =>
      cases h
      exact ⟨[], (List.append_nil _).symm, rfl, fun _ => rfl, nofun, rfl⟩
  | cons e entries ih =>
      obtain ⟨t₁, hfirst, hrest⟩ := foldlM_cons_ok.mp h
      obtain ⟨es, hentries, hlength, hfold, halign, hnames⟩ := ih hrest
      rw [List.map_cons, List.sum_cons]
      -- Only a section with relocations adds a table and its name.
      by_cases hempty : relocationsOf o e.2 = []
      · have hcounts : countsOf o (e :: entries) = countsOf o entries := by
          simp [countsOf, hempty]
        have hsame : t₁ = t := by
          unfold addRelocations at hfirst
          simp only at hfirst
          rw [if_pos hempty] at hfirst
          exact (Except.ok.inj hfirst).symm
        have hzero : relocationNameSize o e = 0 := if_pos hempty
        rw [hcounts, hzero, Nat.zero_add]
        rw [hsame] at hentries hnames
        exact ⟨es, hentries, hlength, hfold, halign, hnames⟩
      · have hcounts : countsOf o (e :: entries) =
            (relocationsOf o e.2).length :: countsOf o entries := by
          simp [countsOf, hempty]
        obtain ⟨entry, hentry, hend, hpow, hname⟩ := addRelocations_ok hempty hfirst
        have hsize : relocationNameSize o e = nameSize e.1.name + 5 := if_neg hempty
        rw [hcounts]
        refine ⟨entry :: es, ?_, ?_, ?_, ?_, ?_⟩
        · rw [hentries, hentry, List.append_assoc, List.singleton_append]
        · rw [List.length_cons, hlength, List.length_cons]
        · intro offset
          rw [List.foldl_cons, List.foldl_cons, hfold, hend]
        · exact List.forall_mem_cons.mpr ⟨hpow, halign⟩
        · rw [hnames, hname, hsize, Nat.add_assoc]

/-! ## Symbols -/

theorem addSymbol_ok {sections : Nat} {symbol : ObjectSymbol} {t t' : SymbolTables}
    (hword : t.strings.length < 2 ^ 32) (h : addSymbol sections t symbol = .ok t') :
    t'.records.length = t.records.length + 1 ∧
      t'.strings.length = t.strings.length + symbolNameSize symbol.name ∧
      t'.strings.length < 2 ^ 32 := by
  have hrest : ∀ (name : Nat) (strings : List UInt8),
      (do
        let shndx := sectionOf sections symbol
        require (shndx < 2 ^ 16) (writeError .overflow)
        let index := t.records.length
        return {
          strings := strings
          records := t.records ++
            [{ name := name
               info := (bindingToStb symbol.binding <<< 4) ||| symbolType symbol.kind
               other := visibilityToStv symbol.visibility, shndx := shndx
               value := symbol.value.toNat, size := symbol.size.toNat }]
          indexByName := if (t.indexByName.get symbol.name).isSome then t.indexByName
            else t.indexByName.insert symbol.name index } : Except ObjectError SymbolTables) =
        .ok t' → t'.records.length = t.records.length + 1 ∧ t'.strings = strings := by
    intro name strings h
    obtain ⟨-, h⟩ := require_then_ok_iff.mp h
    have ht := Except.ok.inj h
    rw [← congrArg SymbolTables.records ht, ← congrArg SymbolTables.strings ht]
    exact ⟨by rw [List.length_append]; rfl, rfl⟩
  unfold addSymbol at h
  by_cases hempty : symbol.name = ""
  · rw [if_pos hempty] at h
    obtain ⟨hrecords, hstrings⟩ := hrest 0 t.strings h
    rw [hstrings, hempty, symbolNameSize_empty]
    exact ⟨hrecords, rfl, hword⟩
  · rw [if_neg hempty] at h
    obtain ⟨⟨name, strings⟩, hname, h⟩ := bind_ok_iff.mp h
    obtain ⟨hsize, hlt⟩ := pushName_ok hname
    obtain ⟨hrecords, hstrings⟩ := hrest name strings h
    rw [hstrings, symbolNameSize_of_ne hempty]
    exact ⟨hrecords, hsize, hlt⟩

theorem addSymbols_ok {sections : Nat} {symbols : List ObjectSymbol} {t t' : SymbolTables}
    (hword : t.strings.length < 2 ^ 32) (h : symbols.foldlM (addSymbol sections) t = .ok t') :
    t'.records.length = t.records.length + symbols.length ∧
      t'.strings.length = t.strings.length + (symbols.map fun s => symbolNameSize s.name).sum ∧
      t'.strings.length < 2 ^ 32 := by
  induction symbols generalizing t with
  | nil =>
      cases h
      exact ⟨rfl, rfl, hword⟩
  | cons symbol symbols ih =>
      obtain ⟨t₁, hfirst, hrest⟩ := foldlM_cons_ok.mp h
      obtain ⟨hrecord, hstring, hlt⟩ := addSymbol_ok hword hfirst
      obtain ⟨hrecords, hstrings, hword⟩ := ih hlt hrest
      refine ⟨?_, ?_, hword⟩
      · rw [hrecords, hrecord, List.length_cons]
        omega
      · rw [hstrings, hstring, List.map_cons, List.sum_cons, Nat.add_assoc]

theorem map_name_outputSymbols (o : ObjectFile) :
    (outputSymbols o).map ObjectSymbol.name = outputNames o := by
  unfold outputSymbols outputNames
  rw [List.map_append, List.map_map]
  congr 1
  exact List.map_id _

theorem orderedSymbols_perm (symbols : List ObjectSymbol) :
    (orderedSymbols symbols).Perm symbols := by
  unfold orderedSymbols
  have hperm := List.filter_append_perm (fun s : ObjectSymbol => decide (s.binding = .local)) symbols
  have hrest : (symbols.filter fun s => decide (s.binding ≠ .local)) =
      symbols.filter fun s => !decide (s.binding = .local) :=
    List.filter_congr fun s _ => decide_not
  rw [hrest]
  exact hperm

theorem length_orderedSymbols (o : ObjectFile) :
    (orderedSymbols (outputSymbols o)).length + 1 = symbolCount o := by
  unfold symbolCount
  rw [(orderedSymbols_perm _).length_eq, ← map_name_outputSymbols, List.length_map]

/-- The order of the symbols does not change the size of their string table. -/
theorem sum_orderedSymbols (o : ObjectFile) :
    1 + ((orderedSymbols (outputSymbols o)).map fun s => symbolNameSize s.name).sum =
      stringsSize o := by
  unfold stringsSize
  rw [((orderedSymbols_perm (outputSymbols o)).map _).sum_eq, ← map_name_outputSymbols,
    List.map_map]
  rfl

theorem buildSymbols_ok {t : SymbolTables} (h : buildSymbols o limit = .ok t) :
    t.records.length = symbolCount o ∧ t.strings.length = stringsSize o ∧
      symbolCount o < 2 ^ 32 ∧ stringsSize o < 2 ^ 32 := by
  unfold buildSymbols at h
  obtain ⟨count, hcount, h⟩ := bind_ok_iff.mp h
  obtain ⟨_, hword, h⟩ := bind_ok_iff.mp h
  obtain ⟨_, -, hadd⟩ := bind_ok_iff.mp h
  have hlength := (advance_ok hcount).trans (length_orderedSymbols o)
  obtain ⟨hsame, hlt⟩ := checkedU32_ok hword
  obtain ⟨hrecords, hstrings, hsmall⟩ := addSymbols_ok (by decide) hadd
  rw [List.length_singleton] at hrecords hstrings
  rw [sum_orderedSymbols] at hstrings
  rw [Nat.add_comm, length_orderedSymbols] at hrecords
  rw [hstrings] at hsmall
  rw [hsame, hlength] at hlt
  exact ⟨hrecords, hstrings, hlt, hsmall⟩

theorem buildSymbols_congr {limit limit' : Nat} (h : fileSize o ≤ limit) (h' : fileSize o ≤ limit') :
    buildSymbols o limit' = buildSymbols o limit := by
  have hsymbols := symbols_le_fileSize o
  unfold buildSymbols
  refine bind_congr_ok fun count hcount => ?_
  have hlength := (advance_ok hcount).trans (length_orderedSymbols o)
  subst hlength
  rw [checkedTableBytes_congr (hsymbols.trans h) (hsymbols.trans h')]

/-! ## Placement -/

theorem length_padTo {out : List UInt8} {offset : Nat} (h : out.length ≤ offset) :
    (padTo out offset).length = offset := by
  unfold padTo
  rw [List.length_append, List.length_replicate]
  omega

/-- The entries are placed one behind the other, and put out up to where the last one ends. -/
theorem place_ok {entries placed : List Entry} {current stop : Nat}
    (halign : ∀ e ∈ entries, AlignPow e) (h : place current entries = .ok (placed, stop)) :
    stop = entries.foldl entryEnd current ∧ placed.length = entries.length ∧
      ∀ out : List UInt8, out.length = current → (emitPayloads out placed).length = stop := by
  induction entries generalizing current placed with
  | nil =>
      cases h
      exact ⟨rfl, rfl, fun out hout => hout⟩
  | cons e entries ih =>
      obtain ⟨header, payload⟩ := e
      obtain ⟨hfirst, hrest⟩ := List.forall_mem_cons.mp halign
      obtain ⟨k, hk, hpow⟩ := hfirst
      unfold place at h
      obtain ⟨offset, hoffset, h⟩ := bind_ok_iff.mp h
      have hround := alignUp_ok hk hpow hoffset
      simp only at hround
      have hle : current ≤ offset := by
        rw [hround]
        exact le_roundUp (by omega) current
      -- A section of kind 8 has an offset but no bytes, and the cursor stays before it.
      by_cases hkind : header.kind = 8
      · rw [if_pos hkind] at h
        obtain ⟨⟨rest, last⟩, hplace, h⟩ := bind_ok_iff.mp h
        cases h
        obtain ⟨hstop, hlength, hemit⟩ := ih hrest hplace
        refine ⟨?_, ?_, fun out hout => ?_⟩
        · rw [List.foldl_cons]
          unfold entryEnd at hstop ⊢
          rw [if_pos hkind]
          exact hstop
        · rw [List.length_cons, hlength, List.length_cons]
        · unfold emitPayloads
          rw [if_pos hkind]
          exact hemit out hout
      · rw [if_neg hkind] at h
        obtain ⟨next, hnext, h⟩ := bind_ok_iff.mp h
        obtain ⟨⟨rest, last⟩, hplace, h⟩ := bind_ok_iff.mp h
        cases h
        obtain ⟨hstop, hlength, hemit⟩ := ih hrest hplace
        have hnext := advance_ok hnext
        have hend : entryEnd current (header, payload) = next := by
          unfold entryEnd
          rw [if_neg hkind, hnext, hround]
        refine ⟨?_, ?_, fun out hout => ?_⟩
        · rw [List.foldl_cons, hend]
          exact hstop
        · rw [List.length_cons, hlength, List.length_cons]
        · unfold emitPayloads
          rw [if_neg hkind]
          apply hemit
          rw [List.length_append, length_padTo (by simp only; omega), hnext]
          cases payload <;> rfl

/-! ## Metadata -/

theorem roundUp_one (offset : Nat) : roundUp offset 1 = offset := by
  unfold roundUp
  omega

theorem countsOf_zipIdx (o : ObjectFile) : countsOf o o.sections.zipIdx = relocationCounts o := by
  have hindices : o.sections.zipIdx.map Prod.snd = List.range o.sections.length := by
    rw [List.zipIdx_map_snd, List.range_eq_range']
  unfold countsOf relocationCounts
  rw [← hindices, List.map_map]
  rfl

theorem sum_sectionNames (o : ObjectFile) :
    1 + (o.sections.map fun s => nameSize s.name).sum +
      (o.sections.zipIdx.map (relocationNameSize o)).sum = sectionNamesSize o := by
  have hsections : (o.sections.map fun s => nameSize s.name) =
      o.sections.zipIdx.map fun e => nameSize e.1.name := by
    conv_lhs => rw [← List.zipIdx_map_fst 0 o.sections]
    rw [List.map_map]
    rfl
  unfold sectionNamesSize
  rw [hsections, Nat.add_assoc, ← List.sum_map_add]
  rfl

theorem addMetadata_ok {symbols : SymbolTables} (h : addMetadata o limit symbols t = .ok t')
    (hrecords : symbols.records.length = symbolCount o)
    (hstrings : symbols.strings.length = stringsSize o)
    (hnames : t.names.length = 1 + (o.sections.map fun s => nameSize s.name).sum) :
    sectionNamesSize o + metadataNamesSize < 2 ^ 32 ∧
    ∃ es, t'.entries = t.entries ++ es ∧ es.length = (relocationCounts o).length + 3 ∧
      (∀ e ∈ es, AlignPow e) ∧
      ∀ offset, es.foldl entryEnd offset =
        tableEnd ((relocationCounts o).foldl tableEnd offset) (symbolCount o) + stringsSize o +
          (sectionNamesSize o + metadataNamesSize) := by
  unfold addMetadata at h
  obtain ⟨t₁, hrelocations, h⟩ := bind_ok_iff.mp h
  obtain ⟨es, hentries, hlength, hfold, halign, hsize⟩ := addAllRelocations_ok hrelocations
  rw [hnames, sum_sectionNames] at hsize
  rw [countsOf_zipIdx] at hlength hfold
  obtain ⟨⟨i₁, names₁⟩, hsymtab, h⟩ := bind_ok_iff.mp h
  obtain ⟨_, -, h⟩ := bind_ok_iff.mp h
  obtain ⟨info, -, h⟩ := bind_ok_iff.mp h
  obtain ⟨link, -, h⟩ := bind_ok_iff.mp h
  obtain ⟨⟨i₂, names₂⟩, hstrtab, h⟩ := bind_ok_iff.mp h
  obtain ⟨_, -, h⟩ := bind_ok_iff.mp h
  obtain ⟨⟨i₃, names₃⟩, hshstrtab, h⟩ := bind_ok_iff.mp h
  obtain ⟨hsymtab, -⟩ := pushName_ok hsymtab
  obtain ⟨hstrtab, -⟩ := pushName_ok hstrtab
  obtain ⟨hshstrtab, hword⟩ := pushName_ok hshstrtab
  have hmetadata : metadataNamesSize =
      nameSize ".symtab" + (nameSize ".strtab" + nameSize ".shstrtab") := by decide
  have hall : names₃.length = sectionNamesSize o + metadataNamesSize := by
    rw [hshstrtab, hstrtab, hsymtab, hsize, hmetadata]
    omega
  rw [hall] at hword
  have ht := Except.ok.inj h
  have hdata := length_flatMap_of_length ElfSym.length_toBytes symbols.records
  rw [hrecords] at hdata
  have hbytesEnd : ∀ (offset name : Nat) (data : List UInt8), entryEnd offset
      ({ ElfSectionHeader.blank with name := name, kind := 3, align := 1, size := data.length },
        some data) = offset + data.length := by
    intro offset name data
    show roundUp offset 1 + data.length = _
    rw [roundUp_one]
  -- The symbol table, its strings and the section names come last.
  obtain ⟨last, hlast, hthree, hpow, hends⟩ : ∃ last, t'.entries = t₁.entries ++ last ∧
      last.length = 3 ∧ (∀ e ∈ last, AlignPow e) ∧ ∀ offset, last.foldl entryEnd offset =
        tableEnd offset (symbolCount o) + stringsSize o +
          (sectionNamesSize o + metadataNamesSize) := by
    refine ⟨_, (congrArg Tables.entries ht).symm, rfl, ?_, fun offset => ?_⟩
    · refine List.forall_mem_cons.mpr ⟨⟨3, by decide, rfl⟩, List.forall_mem_cons.mpr ⟨?_, ?_⟩⟩
      · exact ⟨0, by decide, rfl⟩
      · exact List.forall_mem_cons.mpr ⟨⟨0, by decide, rfl⟩, nofun⟩
    · rw [List.foldl_cons, List.foldl_cons, List.foldl_cons, List.foldl_nil, hbytesEnd, hbytesEnd,
        hstrings, hall]
      congr 2
      show roundUp offset 8 + (symbols.records.flatMap ElfSym.toBytes).length = _
      rw [hdata]
      rfl
  refine ⟨hword, es ++ last, ?_, ?_, List.forall_mem_append.mpr ⟨halign, hpow⟩, ?_⟩
  · rw [hlast, hentries, List.append_assoc]
  · rw [List.length_append, hlength, hthree]
  · intro offset
    rw [List.foldl_append, hfold, hends]

theorem addMetadata_congr {limit limit' : Nat} {symbols : SymbolTables} (h : fileSize o ≤ limit)
    (h' : fileSize o ≤ limit') (hrecords : symbols.records.length = symbolCount o) :
    addMetadata o limit' symbols t = addMetadata o limit symbols t := by
  have hsymbols := symbols_le_fileSize o
  have hloop : ∀ symbolTable,
      o.sections.zipIdx.foldlM (addRelocations o limit' symbolTable symbols.indexByName) t =
        o.sections.zipIdx.foldlM (addRelocations o limit symbolTable symbols.indexByName) t := by
    intro symbolTable
    refine foldlM_congr_mem (fun e he t => ?_) t
    have hlt := (List.getElem?_eq_some_iff.mp (List.mem_zipIdx_iff_getElem?.mp he)).1
    unfold addRelocations
    simp only
    by_cases hempty : relocationsOf o e.2 = []
    · rw [if_pos hempty, if_pos hempty]
    · have hle := relocations_le_fileSize o (mem_relocationCounts hlt hempty)
      rw [if_neg hempty, if_neg hempty, checkedTableBytes_congr (hle.trans h) (hle.trans h')]
  unfold addMetadata
  simp only
  rw [hloop, hrecords, checkedTableBytes_congr (hsymbols.trans h) (hsymbols.trans h')]

/-! ## The file -/

/-- What a successful serializer says of its object and its output. -/
structure Serialized (o : ObjectFile) (limit machine : Nat) (bytes : List UInt8) : Prop where
  valid : o.validate = .ok ()
  length : bytes.length = fileSize o
  fits : Fits o limit
  /-- The limit does not change the output. -/
  others : ∀ limit', fileSize o ≤ limit' → serialize o limit' machine = .ok bytes

theorem serialize_ok {limit machine : Nat} {bytes : List UInt8}
    (h : serialize o limit machine = .ok bytes) : Serialized o limit machine bytes := by
  unfold serialize at h
  obtain ⟨_, hvalid, h⟩ := bind_ok_iff.mp h
  have hobject := ObjectFile.validate_valid hvalid
  obtain ⟨t, hsections, h⟩ := bind_ok_iff.mp h
  obtain ⟨es, hentries, hlength, hfold, halign, hnames⟩ :=
    addSections_ok (ObjectFile.validate_sections hvalid) hsections
  obtain ⟨symbols, hsymbols, h⟩ := bind_ok_iff.mp h
  obtain ⟨hrecords, hstrings, hcount, hsmall⟩ := buildSymbols_ok hsymbols
  obtain ⟨t', hmetadata, h⟩ := bind_ok_iff.mp h
  obtain ⟨hword, es', hentries', hlength', halign', hfold'⟩ :=
    addMetadata_ok hmetadata hrecords hstrings hnames
  have hall : t'.entries = (ElfSectionHeader.blank, none) :: (es ++ es') := by
    rw [hentries', hentries, List.append_assoc]
    rfl
  have htotal : t'.entries.length = headerCount o := by
    unfold headerCount
    rw [hall, List.length_cons, List.length_append, hlength, hlength']
    omega
  obtain ⟨⟨placed, stop⟩, hplace, h⟩ := bind_ok_iff.mp h
  have hrest : t'.entries.drop 1 = es ++ es' := by
    rw [hall]
    rfl
  have hplaceRest := hplace
  rw [hrest] at hplaceRest
  obtain ⟨hstop, hplaced, hemit⟩ :=
    place_ok (List.forall_mem_append.mpr ⟨halign, halign'⟩) hplaceRest
  have hend : stop = tablesEnd o := by
    rw [hstop, List.foldl_append, hfold, hfold']
    rfl
  obtain ⟨sectionOffset, hoffset, h⟩ := bind_ok_iff.mp h
  have hround := alignUp_ok (k := 3) (by decide) rfl hoffset
  obtain ⟨tableBytes, hheaders, h⟩ := bind_ok_iff.mp h
  have hheaders := checkedTableBytes_ok hheaders
  obtain ⟨total, hadvance, h⟩ := bind_ok_iff.mp h
  have hsum := advance_ok hadvance
  obtain ⟨_, houtput, h⟩ := bind_ok_iff.mp h
  obtain ⟨-, hlimit, hmax⟩ := checkedOutputSize_ok houtput
  obtain ⟨count, hsection, h⟩ := bind_ok_iff.mp h
  obtain ⟨hnumber, hreserved⟩ := checkedSectionCount_ok_iff.mp hsection
  obtain ⟨hindex, h⟩ := require_then_ok_iff.mp h
  -- Every length computed on the way is one that `fileSize` sums.
  have hsize : total = fileSize o := by
    rw [hsum, hheaders, htotal, hround, hend]
    rfl
  have hout : (emitPayloads (headerBytes machine o.target.elfFlags sectionOffset count
      (t'.entries.length - 1)) placed).length = tablesEnd o :=
    (hemit _ (length_headerBytes _ _ _ _ _)).trans hend
  have hle : tablesEnd o ≤ sectionOffset := by
    rw [hround, hend]
    exact le_roundUp (by decide) _
  have hbytes : bytes.length = fileSize o := by
    rw [← Except.ok.inj h, List.length_append, length_padTo (by rw [hout]; exact hle),
      length_flatMap_of_length fun e : Entry => e.1.length_toBytes, List.length_append, hplaced,
      hall, List.take_succ_cons, List.take_zero, List.length_singleton, ← hsize, hsum, hheaders,
      hall, List.length_cons, Nat.add_comm 1]
  rw [hsize] at hlimit hmax
  have hheaderCount : count = headerCount o := by
    rw [hnumber, ← length_relocationCounts hobject]
    rfl
  rw [hheaderCount] at hreserved
  refine ⟨hvalid, hbytes, ⟨hlimit, hmax, hword, hsmall, hcount, hreserved⟩, ?_⟩
  intro limit' hlimit'
  have hheadersLe := headers_le_fileSize o
  unfold serialize
  rw [hvalid, ok_bind, hsections, ok_bind, buildSymbols_congr hlimit hlimit', hsymbols, ok_bind,
    addMetadata_congr hlimit hlimit' hrecords, hmetadata, ok_bind, hplace, ok_bind]
  simp only
  rw [hoffset, ok_bind, htotal, checkedTableBytes_eq (hheadersLe.trans hlimit')
    (hheadersLe.trans_lt hmax), ok_bind, ← htotal, ← hheaders, hadvance, ok_bind, hsize,
    checkedOutputSize_eq hlimit' hmax, ok_bind, hsection, ok_bind, require_of hindex, ok_bind]
  exact h

/-- The preflight is exact. For an object that the writer accepts, a limit is enough when the
output is not longer; the size that the preflight computes is the length of the output; and the
preflight succeeds whenever the rest of the writer does. -/
theorem writeElf_preflight_exact (o : ObjectFile) :
    (∀ accepted bytes, writeElf o accepted = .ok bytes → ∀ limit,
      ((∃ out, writeElf o limit = .ok out) ↔ bytes.length ≤ limit) ∧
        ∀ out, writeElf o limit = .ok out → out = bytes) ∧
    ∀ limit machine bytes, serialize o limit machine = .ok bytes →
      preflight o limit = .ok () ∧
        preflightSizes o limit = .ok (headerCount o, symbolCount o, bytes.length) := by
  constructor
  · intro accepted bytes h limit
    rw [writeElf_eq] at h
    obtain ⟨machine, hmachine, h⟩ := bind_ok_iff.mp h
    obtain ⟨count, hcount, h⟩ := bind_ok_iff.mp h
    obtain ⟨_, -, hserialize⟩ := bind_ok_iff.mp h
    have hdone := serialize_ok hserialize
    have hlimit : ∀ limit, bytes.length ≤ limit → writeElf o limit = .ok bytes := by
      intro limit hle
      rw [hdone.length] at hle
      have hother := hdone.others limit hle
      rw [writeElf_eq, hmachine, ok_bind, hcount, ok_bind,
        preflight_ok hdone.valid (serialize_ok hother).fits, ok_bind]
      exact hother
    have honly : ∀ out, writeElf o limit = .ok out → out = bytes ∧ bytes.length ≤ limit := by
      intro out hout
      rw [writeElf_eq, hmachine, ok_bind, hcount, ok_bind] at hout
      obtain ⟨_, -, hout⟩ := bind_ok_iff.mp hout
      have hthis := serialize_ok hout
      -- Both outputs are that of the larger limit.
      have hboth := hdone.others (max limit accepted)
        (hdone.fits.limit.trans (Nat.le_max_right _ _))
      rw [hthis.others _ (hthis.fits.limit.trans (Nat.le_max_left _ _))] at hboth
      refine ⟨Except.ok.inj hboth, ?_⟩
      rw [hdone.length]
      exact hthis.fits.limit
    refine ⟨⟨?_, fun hle => ⟨bytes, hlimit limit hle⟩⟩, fun out hout => (honly out hout).1⟩
    rintro ⟨out, hout⟩
    exact (honly out hout).2
  · intro limit machine bytes h
    have hdone := serialize_ok h
    rw [hdone.length]
    exact ⟨preflight_ok hdone.valid hdone.fits, preflightSizes_eq hdone.valid hdone.fits⟩

/-! ## A function that calls itself -/

def loopObject : ObjectFile where
  target := ObjectTarget.x86_64WhaleLinux
  sections :=
    [{ name := ".text", kind := .text, data := [0xe8, 0, 0, 0, 0], zeroFill := 0, align := 16 }]
  symbols :=
    [{ kind := .function, name := "f", sectionIndex := some 0, value := 0, size := 5
       binding := .global, visibility := .default }]
  relocations := [{ sectionIndex := 0, offset := 1, symbol := "f", addend := -4, kind := .plt32 }]

def loopFile : List UInt8 := ((writeElf loopObject 1024).toOption).getD []

theorem length_loopFile : loopFile.length = 576 := by decide +kernel

theorem writeElf_loopObject : writeElf loopObject 1024 = .ok loopFile := by
  cases h : writeElf loopObject 1024 with
  | error e =>
      have hempty : loopFile = [] := by
        unfold loopFile
        rw [h]
        rfl
      have hlength := length_loopFile
      rw [hempty] at hlength
      cases hlength
  | ok out =>
      unfold loopFile
      rw [h]
      rfl

theorem writeElf_preflight_exact_loop :
    (∃ out, writeElf loopObject 576 = .ok out) ∧ ¬ ∃ out, writeElf loopObject 575 = .ok out := by
  have hexact := (writeElf_preflight_exact loopObject).1 1024 loopFile writeElf_loopObject
  rw [length_loopFile] at hexact
  exact ⟨(hexact 576).1.mpr le_rfl, fun h => absurd ((hexact 575).1.mp h) (by decide)⟩

end Whale.Elf
