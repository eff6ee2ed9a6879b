import Whale.Object.Object

set_option autoImplicit false

/-! # What validation says of an object -/

namespace Whale

/-- The section has no data in the file. -/
def NoData (s : Section) : Prop := s.kind = .bss ∨ s.data = []

instance (s : Section) : Decidable (NoData s) := inferInstanceAs (Decidable (_ ∨ _))

/-! ## Sections -/

variable {s : Section}

theorem memorySize_eq {n : Nat} (h : s.memorySize = some n) :
    n = s.data.length + s.zeroFill.toNat ∧ (s.kind ≠ .bss → s.zeroFill = 0) := by
  unfold Section.memorySize at h
  split at h
  · cases h
  rename_i hfill
  split at h
  · cases h
  refine ⟨(checkedAdd_eq_some.mp h).1.symm, fun hkind => ?_⟩
  by_contra hne
  exact hfill ⟨hkind, hne⟩

/-- Section data is as long as the section, which has no zeros behind it. -/
theorem memorySize_data {size : Nat} (h : s.memorySize = some size) (hkind : s.kind ≠ .bss) :
    size = s.data.length := by
  obtain ⟨rfl, hfill⟩ := memorySize_eq h
  rw [hfill hkind]
  rfl

/-- What validation says of a section. -/
structure Section.Valid (s : Section) : Prop where
  size : s.memorySize = some (s.data.length + s.zeroFill.toNat)
  fits : s.data.length + s.zeroFill.toNat < wordBound
  filled : s.kind ≠ .bss → s.zeroFill = 0
  zeros : s.kind = .bss → ∀ b ∈ s.data, b = 0
  name : '\x00' ∉ s.name.toList
  align : s.align = 0 ∨ isPowerOfTwo s.align.toNat = true

variable {u : Unit}

theorem Section.validate_ok {index : Nat} (h : s.validate index = .ok u) : s.Valid := by
  obtain ⟨hfill, h₁⟩ := require_then_ok_iff.mp h
  obtain ⟨hzeros, h₂⟩ := require_then_ok_iff.mp h₁
  obtain ⟨hsize, h₃⟩ := require_then_ok_iff.mp h₂
  obtain ⟨hname, h₄⟩ := require_then_ok_iff.mp h₃
  obtain ⟨n, hn⟩ := Option.isSome_iff_exists.mp hsize
  obtain ⟨rfl, hfits⟩ := checkedAdd_eq_some.mp hn
  refine ⟨?_, hfits, fun hkind => ?_, fun hkind b hb => ?_, hname, require_ok_iff.mp h₄⟩
  · rw [Section.memorySize, if_neg hfill, if_neg hzeros, hn]
  · by_contra hne
    exact hfill ⟨hkind, hne⟩
  · by_contra hne
    exact hzeros ⟨hkind, List.any_eq_true.mpr ⟨b, hb, decide_eq_true hne⟩⟩

theorem Section.Valid.align_pow (h : s.Valid) : ∃ k ≤ 64, max s.align.toNat 1 = 2 ^ k := by
  rcases h.align with hzero | hpow
  · exact ⟨0, by decide, by rw [hzero]; rfl⟩
  · obtain ⟨k, hk⟩ := isPowerOfTwo_iff.mp hpow
    have hlt : 2 ^ k < 2 ^ 64 := hk ▸ s.align.toNat_lt
    have hpos : 0 < 2 ^ k := Nat.two_pow_pos k
    have hle := (Nat.pow_lt_pow_iff_right (by decide)).mp hlt
    exact ⟨k, Nat.le_of_lt hle, by rw [hk]; exact Nat.max_eq_left hpos⟩

variable {sections : List Section}

theorem ObjectFile.validateSections_ok {index : Nat} (h : validateSections sections index = .ok u) :
    ∀ s ∈ sections, s.Valid := by
  induction sections generalizing index with
  | nil => exact fun s hs => nomatch hs
  | cons first sections ih =>
      obtain ⟨_, hfirst, hrest⟩ := bind_ok_iff.mp h
      intro s hs
      rcases List.mem_cons.mp hs with rfl | hs
      · exact Section.validate_ok hfirst
      · exact ih hrest s hs

/-! ## Objects -/

/-- What writers rely on in a validated object. -/
structure ObjectFile.Valid (o : ObjectFile) : Prop where
  target : o.target.validate = .ok ()
  names : ∀ s ∈ o.symbols, '\x00' ∉ s.name.toList
  symbols : ∀ s ∈ o.symbols, ∀ i, s.sectionIndex = some i → i < o.sections.length
  relocations : ∀ r ∈ o.relocations, '\x00' ∉ r.symbol.toList ∧
    ∃ s, o.sections[r.sectionIndex]? = some s ∧ s.kind ≠ .bss ∧
      ∃ e, r.kind.encoding o.target = some e ∧ r.offset + e.2 ≤ s.data.length

variable {names : List String}

theorem ObjectSymbol.validate_ok {s : ObjectSymbol} (h : s.validate sections names = .ok u) :
    '\x00' ∉ s.name.toList ∧ ∀ i, s.sectionIndex = some i → i < sections.length := by
  obtain ⟨_, hname, h₁⟩ := bind_ok_iff.mp h
  obtain ⟨_, -, h₂⟩ := bind_ok_iff.mp h₁
  refine ⟨require_ok_iff.mp hname, fun i hi => ?_⟩
  rw [hi] at h₂
  obtain ⟨section', hsection, -⟩ := bind_ok_iff.mp h₂
  exact (List.getElem?_eq_some_iff.mp (orThrow_ok_iff.mp hsection)).1

theorem ObjectSymbol.validate_extent {s : ObjectSymbol} (h : s.validate sections names = .ok u)
    {i : Nat} (hi : s.sectionIndex = some i) :
    ∃ sec, sections[i]? = some sec ∧
      ∀ size, sec.memorySize = some size → s.value.toNat + s.size.toNat ≤ size := by
  obtain ⟨_, -, h₁⟩ := bind_ok_iff.mp h
  obtain ⟨_, -, h₂⟩ := bind_ok_iff.mp h₁
  rw [hi] at h₂
  obtain ⟨sec, hsection, h₃⟩ := bind_ok_iff.mp h₂
  obtain ⟨stop, hstop, h₄⟩ := bind_ok_iff.mp h₃
  obtain ⟨rfl, -⟩ := checkedAdd_eq_some.mp (orThrow_ok_iff.mp hstop)
  exact ⟨sec, orThrow_ok_iff.mp hsection, require_ok_iff.mp h₄⟩

variable {target : ObjectTarget}

theorem ObjectRelocation.validate_ok {r : ObjectRelocation} (h : r.validate target sections = .ok u)
    :
    '\x00' ∉ r.symbol.toList ∧ ∃ s, sections[r.sectionIndex]? = some s ∧ s.kind ≠ .bss ∧
      ∃ e, r.kind.encoding target = some e ∧ r.offset + e.2 ≤ s.data.length := by
  obtain ⟨_, hname, h₁⟩ := bind_ok_iff.mp h
  obtain ⟨section', hsection, h₂⟩ := bind_ok_iff.mp h₁
  obtain ⟨_, hkind, h₃⟩ := bind_ok_iff.mp h₂
  obtain ⟨e, hencoding, h₄⟩ := bind_ok_iff.mp h₃
  obtain ⟨stop, hstop, h₅⟩ := bind_ok_iff.mp h₄
  obtain ⟨rfl, -⟩ := checkedAdd_eq_some.mp (orThrow_ok_iff.mp hstop)
  exact ⟨require_ok_iff.mp hname, section', orThrow_ok_iff.mp hsection, require_ok_iff.mp hkind, e,
    orThrow_ok_iff.mp hencoding, require_ok_iff.mp h₅⟩

variable {symbols : List ObjectSymbol}

theorem ObjectFile.validateSymbols_ok (h : validateSymbols sections symbols names = .ok u) :
    ∀ s ∈ symbols, '\x00' ∉ s.name.toList ∧
      ∀ i, s.sectionIndex = some i → i < sections.length := by
  induction symbols generalizing names with
  | nil => exact fun s hs => nomatch hs
  | cons symbol symbols ih =>
      obtain ⟨_, hsymbol, hrest⟩ := bind_ok_iff.mp h
      intro s hs
      rcases List.mem_cons.mp hs with rfl | hs
      · exact ObjectSymbol.validate_ok hsymbol
      · exact ih hrest s hs

/-- A defined symbol lies in its section. -/
theorem ObjectFile.validateSymbols_extent (h : validateSymbols sections symbols names = .ok u)
    {s : ObjectSymbol} (hs : s ∈ symbols) {i : Nat} (hi : s.sectionIndex = some i) :
    ∃ sec, sections[i]? = some sec ∧
      ∀ size, sec.memorySize = some size → s.value.toNat + s.size.toNat ≤ size := by
  induction symbols generalizing names with
  | nil => cases hs
  | cons symbol symbols ih =>
      obtain ⟨_, hsymbol, hrest⟩ := bind_ok_iff.mp h
      rcases List.mem_cons.mp hs with rfl | hs
      · exact ObjectSymbol.validate_extent hsymbol hi
      · exact ih hrest hs

/-- The names of symbols are different, and none of those before them. -/
theorem ObjectFile.validateSymbols_unique (h : validateSymbols sections symbols names = .ok u) :
    (symbols.map ObjectSymbol.name).Nodup ∧ ∀ s ∈ symbols, s.name ∉ names := by
  induction symbols generalizing names with
  | nil => exact ⟨List.nodup_nil, nofun⟩
  | cons symbol symbols ih =>
      obtain ⟨_, hsymbol, hrest⟩ := bind_ok_iff.mp h
      obtain ⟨hnodup, hnew⟩ := ih hrest
      unfold ObjectSymbol.validate at hsymbol
      obtain ⟨-, hsymbol⟩ := require_then_ok_iff.mp hsymbol
      obtain ⟨hfirst, -⟩ := require_then_ok_iff.mp hsymbol
      constructor
      · rw [List.map_cons, List.nodup_cons]
        refine ⟨fun hmem => ?_, hnodup⟩
        obtain ⟨s, hs, hname⟩ := List.mem_map.mp hmem
        exact hnew s hs (hname ▸ List.mem_cons_self)
      · intro s hs
        rcases List.mem_cons.mp hs with rfl | hs
        · exact hfirst
        · exact fun hmem => hnew s hs (List.mem_cons_of_mem _ hmem)

theorem ObjectFile.validateRelocations_ok {relocations : List ObjectRelocation}
    (h : validateRelocations target sections relocations = .ok u) :
    ∀ r ∈ relocations, '\x00' ∉ r.symbol.toList ∧
      ∃ s, sections[r.sectionIndex]? = some s ∧ s.kind ≠ .bss ∧
        ∃ e, r.kind.encoding target = some e ∧ r.offset + e.2 ≤ s.data.length := by
  induction relocations with
  | nil => exact fun r hr => nomatch hr
  | cons relocation relocations ih =>
      obtain ⟨_, hrelocation, hrest⟩ := bind_ok_iff.mp h
      intro r hr
      rcases List.mem_cons.mp hr with rfl | hr
      · exact ObjectRelocation.validate_ok hrelocation
      · exact ih hrest r hr

/-- Formats other than ELF are for two machines. -/
theorem ObjectTarget.validate_machine (h : target.validate = .ok ())
    (hformat : target.format ≠ .elf64) : target.machine = .x86_64 ∨ target.machine = .aArch64 := by
  unfold ObjectTarget.validate at h
  by_cases hsupported : target.endian = .little ∧ target.addressBits = 64 ∧
      (target.format = .elf64 ∨ target.machine = .x86_64 ∨ target.machine = .aArch64)
  · exact hsupported.2.2.resolve_left hformat
  · rw [if_neg hsupported] at h
    cases h

variable {o : ObjectFile}

/-- What the validation of an object goes over. -/
theorem ObjectFile.validate_parts (h : o.validate = .ok u) :
    o.target.validate = .ok () ∧ validateSections o.sections 0 = .ok () ∧
      validateSymbols o.sections o.symbols [] = .ok () ∧
      validateRelocations o.target o.sections o.relocations = .ok () := by
  unfold ObjectFile.validate at h
  cases htarget : o.target.validate with
  | error e =>
      rw [htarget] at h
      cases h
  | ok v =>
      rw [htarget] at h
      obtain ⟨_, hsections, h₁⟩ := bind_ok_iff.mp h
      obtain ⟨_, hsymbols, hrelocations⟩ := bind_ok_iff.mp h₁
      exact ⟨rfl, hsections, hsymbols, hrelocations⟩

theorem ObjectFile.validate_valid (h : o.validate = .ok u) : o.Valid := by
  obtain ⟨htarget, -, hsymbols, hrelocations⟩ := validate_parts h
  have hall := validateSymbols_ok hsymbols
  exact ⟨htarget, fun s hs => (hall s hs).1, fun s hs => (hall s hs).2,
    validateRelocations_ok hrelocations⟩

theorem ObjectFile.validate_sections (h : o.validate = .ok u) : ∀ s ∈ o.sections, s.Valid :=
  validateSections_ok (validate_parts h).2.1

theorem ObjectFile.validate_unique (h : o.validate = .ok u) :
    (o.symbols.map ObjectSymbol.name).Nodup :=
  (validateSymbols_unique (validate_parts h).2.2.1).1

theorem ObjectFile.validate_extent (h : o.validate = .ok u) {s : ObjectSymbol} (hs : s ∈ o.symbols)
    {i : Nat} (hi : s.sectionIndex = some i) :
    ∃ sec, o.sections[i]? = some sec ∧
      ∀ size, sec.memorySize = some size → s.value.toNat + s.size.toNat ≤ size :=
  validateSymbols_extent (validate_parts h).2.2.1 hs hi

end Whale
