import Whale.Object.Coff.Sections

set_option autoImplicit false

/-! # What emission leaves in the file

Every step writes to its own part of the file. A step lemma says what it wrote and which bytes
it touched, and the induction over the sections keeps what the earlier steps wrote. -/

namespace Whale.Coff

/-! ## Numbers in place -/

variable {s : List UInt8} {k : Nat}

theorem length_u16At {k v : Nat} (h : k + 2 ≤ s.length) :
    (u16At s k v).length = s.length := length_patch (by rw [length_leBytes]; exact h)

theorem length_u32At {k v : Nat} (h : k + 4 ≤ s.length) :
    (u32At s k v).length = s.length := length_patch (by rw [length_leBytes]; exact h)

theorem holds_u16At {xs r : List UInt8} {start k : Nat} (h : Holds xs start r)
    (hk : k + 2 ≤ r.length) (v : Nat) : Holds (u16At xs (start + k) v) start (u16At r k v) :=
  h.patch (by rw [length_leBytes]; exact hk)

theorem holds_u32At {xs r : List UInt8} {start k : Nat} (h : Holds xs start r)
    (hk : k + 4 ≤ r.length) (v : Nat) : Holds (u32At xs (start + k) v) start (u32At r k v) :=
  h.patch (by rw [length_leBytes]; exact hk)

theorem frame_u16At (h : k + 2 ≤ s.length) (v : Nat) :
    SameOutside (fun i => k ≤ i ∧ i < k + 2) s (u16At s k v) := by
  have hframe := SameOutside.patch (s := s) (t := leBytes 2 v) (k := k)
    (by rw [length_leBytes]; exact h)
  rwa [length_leBytes] at hframe

theorem frame_u32At (h : k + 4 ≤ s.length) (v : Nat) :
    SameOutside (fun i => k ≤ i ∧ i < k + 4) s (u32At s k v) := by
  have hframe := SameOutside.patch (s := s) (t := leBytes 4 v) (k := k)
    (by rw [length_leBytes]; exact h)
  rwa [length_leBytes] at hframe

/-! ## Relocations -/

/-- Position `k` is in the field of a relocation of the data at `data`. -/
def InField (machine : Machine) (data : Nat) (r : ObjectRelocation) (k : Nat) : Prop :=
  ∃ e, r.kind.coffEncoding machine = some e ∧ data + r.offset ≤ k ∧ k < data + r.offset + e.2

/-- The fields do not overlap. -/
def Apart (machine : Machine) (a b : ObjectRelocation) : Prop :=
  ∀ e e', a.kind.coffEncoding machine = some e → b.kind.coffEncoding machine = some e' →
    a.offset + e.2 ≤ b.offset ∨ b.offset + e'.2 ≤ a.offset

/-- The bytes of a relocation. -/
def relocationRecord (indices : AssocMap String Nat) (r : ObjectRelocation) (code : Nat) :
    List UInt8 :=
  leBytes 4 r.offset ++ leBytes 4 ((indices.get r.symbol).getD 0) ++ leBytes 2 code

@[simp] theorem length_relocationRecord (indices : AssocMap String Nat) (r : ObjectRelocation)
    (code : Nat) : (relocationRecord indices r code).length = 10 := by
  simp [relocationRecord]

theorem patches_relocation {bs : List UInt8} (h : bs.length = 10) (offset index code : Nat) :
    u16At (u32At (u32At bs 0 offset) 4 index) 8 code =
      leBytes 4 offset ++ leBytes 4 index ++ leBytes 2 code := by
  match bs, h with
  | [a, b, c, d, e, f, g, i, j, k], _ => simp [patch, u16At, u32At, leBytes]

/-- What one relocation leaves: its field and its record. -/
structure RelocationHolds (machine : Machine) (indices : AssocMap String Nat) (out : List UInt8)
    (data at' : Nat) (r : ObjectRelocation) : Prop where
  offset : r.offset < 2 ^ 32
  written : ∃ e before field, r.kind.coffEncoding machine = some e ∧
    applyAddend before r.kind r.addend = some field ∧ field.length = e.2 ∧
    Holds out (data + r.offset) field ∧ Holds out at' (relocationRecord indices r e.1)

variable {machine : Machine} {indices : AssocMap String Nat} {out out' : List UInt8}

variable {at' : Nat}

theorem RelocationHolds.frame {data at' : Nat} {r : ObjectRelocation} {touched : Nat → Prop}
    (h : RelocationHolds machine indices out data at' r) (hframe : SameOutside touched out out')
    (hfield : ∀ k, InField machine data r k → ¬ touched k)
    (hrecord : ∀ k, at' ≤ k → k < at' + 10 → ¬ touched k) :
    RelocationHolds machine indices out' data at' r where
  offset := h.offset
  written := by
    obtain ⟨e, before, field, hencoding, happly, hlength, hholds, hrec⟩ := h.written
    refine ⟨e, before, field, hencoding, happly, hlength, ?_, ?_⟩
    · exact hholds.frame hframe fun k h₁ h₂ => hfield k ⟨e, hencoding, h₁, by omega⟩
    · refine hrec.frame hframe fun k h₁ h₂ => hrecord k h₁ ?_
      rwa [length_relocationRecord] at h₂

theorem emitRelocation_ok {data at' : Nat} {r : ObjectRelocation}
    (h : emitRelocation out data at' machine indices r = .ok out')
    (hfield : ∀ e, r.kind.coffEncoding machine = some e → data + r.offset + e.2 ≤ at')
    (hroom : at' + 10 ≤ out.length) :
    SameOutside (fun k => InField machine data r k ∨ at' ≤ k ∧ k < at' + 10) out out' ∧
      RelocationHolds machine indices out' data at' r := by
  obtain ⟨e, hencoding, h₁⟩ := bind_ok_iff.mp h
  obtain ⟨field, happly, h₂⟩ := bind_ok_iff.mp h₁
  obtain ⟨offset, hoffset, h₃⟩ := bind_ok_iff.mp h₂
  obtain ⟨rfl, hbound⟩ := number_ok hoffset
  have henc := orThrow_ok_iff.mp hencoding
  have hwrite := orThrow_ok_iff.mp happly
  have hlength : field.length = e.2 := (applyAddend_spec henc hwrite).1
  have hend := hfield e henc
  have hout := Except.ok.inj h₃
  subst hout
  -- First the field, then the three parts of the record.
  have hframe₁ := SameOutside.patch (s := out) (t := field) (k := data + r.offset) (by omega)
  have hlength₁ := hframe₁.length
  have hfield₁ : Holds (patch out (data + r.offset) field) (data + r.offset) field :=
    Holds.patch_self (by omega)
  generalize patch out (data + r.offset) field = out₁ at hframe₁ hlength₁ hfield₁
  have hrecord : Holds (u16At (u32At (u32At out₁ at' r.offset) (at' + 4)
      ((indices.get r.symbol).getD 0)) (at' + 8) e.1) at' (relocationRecord indices r e.1) := by
    have hslice : (slice out₁ at' 10).length = 10 := length_slice (by omega)
    have hbase : Holds out₁ at' (slice out₁ at' 10) := ⟨by omega, by rw [hslice]⟩
    have h₄ := holds_u32At (k := 0) hbase (by omega) r.offset
    have h₅ := holds_u32At (k := 4) h₄ (by rw [length_u32At (by omega)]; omega)
      ((indices.get r.symbol).getD 0)
    have hlength₅ : (u32At (u32At (slice out₁ at' 10) 0 r.offset) 4
        ((indices.get r.symbol).getD 0)).length = 10 := by
      rw [length_u32At (by rw [length_u32At (by omega)]; omega), length_u32At (by omega), hslice]
    have h₆ := holds_u16At (k := 8) h₅ (by omega) e.1
    rw [patches_relocation hslice] at h₆
    exact h₆
  have hframe₂ : SameOutside (fun k => at' ≤ k ∧ k < at' + 10) out₁ (u16At (u32At (u32At out₁ at'
      r.offset) (at' + 4) ((indices.get r.symbol).getD 0)) (at' + 8) e.1) := by
    have h₄ := frame_u32At (s := out₁) (k := at') (by omega) r.offset
    have h₅ := frame_u32At (k := at' + 4) (by rw [h₄.length]; omega)
      ((indices.get r.symbol).getD 0)
    have h₆ := frame_u16At (k := at' + 8) (by rw [h₅.length, h₄.length]; omega) e.1
    exact ((h₄.mono fun k hk => by omega).trans (h₅.mono fun k hk => by omega)).trans
      (h₆.mono fun k hk => by omega)
  refine ⟨(hframe₁.mono fun k hk => .inl ⟨e, henc, by omega⟩).trans
    (hframe₂.mono fun k hk => .inr hk), hbound, e, _, field, henc, hwrite, hlength, ?_, hrecord⟩
  exact hfield₁.frame hframe₂ fun k h₁ h₂ h₃ => by omega

variable {records : List ObjectRelocation}

/-- All relocations of a section, by induction on them; later fields and records do not touch
earlier ones. -/
theorem emitEntries_ok {data : Nat}
    (h : emitEntries data machine indices out at' records = .ok out')
    (hfields : ∀ r ∈ records, ∀ e, r.kind.coffEncoding machine = some e →
      data + r.offset + e.2 ≤ at') (hapart : records.Pairwise (Apart machine))
    (hroom : at' + records.length * 10 ≤ out.length) :
    SameOutside (fun k => (∃ r ∈ records, InField machine data r k) ∨
        at' ≤ k ∧ k < at' + records.length * 10) out out' ∧
      ∀ (n : Nat) (r : ObjectRelocation), records[n]? = some r →
        RelocationHolds machine indices out' data (at' + n * 10) r := by
  induction records generalizing out at' with
  | nil =>
      cases h
      exact ⟨SameOutside.refl _ _, fun n r hr => nomatch hr⟩
  | cons r records ih =>
      obtain ⟨out₁, hstep, hrest⟩ := bind_ok_iff.mp h
      obtain ⟨hapartHead, hapartTail⟩ := List.pairwise_cons.mp hapart
      rw [List.length_cons] at hroom
      have hend := hfields r List.mem_cons_self
      obtain ⟨hframe₁, hholds₁⟩ := emitRelocation_ok hstep hend (by omega)
      have hfieldsTail : ∀ r' ∈ records, ∀ e, r'.kind.coffEncoding machine = some e →
          data + r'.offset + e.2 ≤ at' + 10 := fun r' hr' e he => by
        have hle := hfields r' (List.mem_cons_of_mem _ hr') e he
        omega
      obtain ⟨hframe₂, hholds₂⟩ := ih hrest hfieldsTail hapartTail (by rw [hframe₁.length]; omega)
      refine ⟨(hframe₁.mono ?_).trans (hframe₂.mono ?_), fun n r' hr' => ?_⟩
      · rintro k (hk | hk)
        · exact .inl ⟨r, List.mem_cons_self, hk⟩
        · exact .inr ⟨hk.1, by rw [List.length_cons]; omega⟩
      · rintro k (⟨r', hr', hk⟩ | hk)
        · exact .inl ⟨r', List.mem_cons_of_mem _ hr', hk⟩
        · exact .inr ⟨by omega, by rw [List.length_cons]; omega⟩
      · cases n with
        | zero =>
            cases hr'
            rw [Nat.zero_mul, Nat.add_zero]
            refine hholds₁.frame hframe₂ ?_ ?_
            · rintro k ⟨e, he, h₁, h₂⟩ (⟨r', hr', e', he', h₃, h₄⟩ | hk)
              · have hdisjoint := hapartHead r' hr' e e' he he'
                omega
              · have hle := hend e he
                omega
            · rintro k h₁ h₂ (⟨r', hr', e', he', h₃, h₄⟩ | hk)
              · have hle := hfields r' (List.mem_cons_of_mem _ hr') e' he'
                omega
              · omega
        | succ n =>
            have hnext := hholds₂ n r' hr'
            have hat : at' + 10 + n * 10 = at' + (n + 1) * 10 := by omega
            rwa [hat] at hnext

/-! ## One section -/

/-- The header of a section. -/
def sectionHeader (l : SectionLayout) (count : Nat) : List UInt8 :=
  l.name ++ List.replicate 8 0 ++ leBytes 4 l.size ++ leBytes 4 l.data ++
    leBytes 4 l.relocation ++ List.replicate 4 0 ++ leBytes 2 count ++ List.replicate 2 0 ++
    leBytes 4 l.flags

/-- The symbol of a section and its auxiliary record. -/
def sectionSymbolRecord (name : List UInt8) (index size count : Nat) : List UInt8 :=
  name ++ List.replicate 4 0 ++ leBytes 2 (index + 1) ++ [0, 0, 3, 1] ++ leBytes 4 size ++
    leBytes 2 count ++ List.replicate 12 0

variable {l : SectionLayout}

theorem length_sectionHeader (hname : l.name.length = 8) (count : Nat) :
    (sectionHeader l count).length = 40 := by simp [sectionHeader, hname]

variable {name : List UInt8}

theorem length_sectionSymbolRecord (hname : name.length = 8) (index size count : Nat) :
    (sectionSymbolRecord name index size count).length = 36 := by
  simp [sectionSymbolRecord, hname]

/-- The header before the number of relocations is known. -/
def headerFields (l : SectionLayout) : List UInt8 :=
  u32At (u32At (u32At (u32At (patch (List.replicate 40 0) 0 l.name) 16 l.size) 20 l.data) 24
    l.relocation) 36 l.flags

theorem length_headerFields (hname : l.name.length = 8) : (headerFields l).length = 40 := by
  unfold headerFields
  obtain ⟨a, b, c, d, e, f, g, i, hbytes⟩ := eight_bytes hname
  rw [hbytes]
  simp [patch, u32At, leBytes, List.replicate_succ]

theorem patches_header (hname : l.name.length = 8) (count : Nat) :
    u16At (headerFields l) 32 count = sectionHeader l count := by
  unfold sectionHeader headerFields
  obtain ⟨a, b, c, d, e, f, g, i, hbytes⟩ := eight_bytes hname
  rw [hbytes]
  simp [patch, u16At, u32At, leBytes, List.replicate_succ]

theorem patches_sectionSymbol (hname : name.length = 8) (index size count : Nat) :
    u16At (u32At (patch (patch (u16At (patch (List.replicate 36 0) 0 name) 12 (index + 1)) 16 [3])
      17 [1]) 18 size) 22 count = sectionSymbolRecord name index size count := by
  unfold sectionSymbolRecord
  obtain ⟨a, b, c, d, e, f, g, i, rfl⟩ := eight_bytes hname
  simp [patch, u16At, u32At, leBytes, List.replicate_succ]

/-- What emission leaves of a section. -/
structure SectionHolds (machine : Machine) (indices : AssocMap String Nat) (symbols : Nat)
    (out : List UInt8) (index : Nat) (s : Section) (records : List ObjectRelocation)
    (l : SectionLayout) : Prop where
  header : Holds out (20 + index * 40) (sectionHeader l records.length)
  symbol : Holds out (symbols + index * 36)
    (sectionSymbolRecord l.symbolName index l.size records.length)
  data : ¬ NoData s → ∀ k < s.data.length,
    (∀ r ∈ records, ¬ InField machine l.data r (l.data + k)) → out[l.data + k]? = s.data[k]?
  relocations : ∀ (n : Nat) (r : ObjectRelocation), records[n]? = some r →
    RelocationHolds machine indices out l.data (l.relocation + n * 10) r

/-- The fields of the relocations lie in the data. -/
def FieldsInside (machine : Machine) (s : Section) (records : List ObjectRelocation) : Prop :=
  ∀ r ∈ records, ¬ NoData s ∧
    ∀ e, r.kind.coffEncoding machine = some e → r.offset + e.2 ≤ s.data.length

variable {index : Nat} {strings : Strings}

theorem SectionHolds.frame {symbols : Nat} {index lo hi : Nat} {s : Section} {touched : Nat → Prop}
    (h : SectionHolds machine indices symbols out index s records l)
    (hplanned : Planned strings s records.length lo hi l) (hinside : FieldsInside machine s records)
    (hframe : SameOutside touched out out')
    (hheader : ∀ k, 20 + index * 40 ≤ k → k < 20 + index * 40 + 40 → ¬ touched k)
    (hsymbol : ∀ k, symbols + index * 36 ≤ k → k < symbols + index * 36 + 36 → ¬ touched k)
    (hpart : ∀ k, lo ≤ k → k < hi → ¬ touched k) :
    SectionHolds machine indices symbols out' index s records l where
  header := h.header.frame hframe fun k h₁ h₂ => hheader k h₁ (by
    rwa [length_sectionHeader hplanned.nameLength] at h₂)
  symbol := h.symbol.frame hframe fun k h₁ h₂ => hsymbol k h₁ (by
    rwa [length_sectionSymbolRecord hplanned.symbolNameLength] at h₂)
  data := fun hdata k hk hout => by
    obtain ⟨hlo, hhi, -⟩ := hplanned.data hdata
    rw [hframe.agree _ (hpart _ (by omega) (by omega))]
    exact h.data hdata k hk hout
  relocations := fun n r hr => by
    have hmem := List.mem_of_getElem? hr
    have hn := (List.getElem?_eq_some_iff.mp hr).1
    obtain ⟨hdata, hfits⟩ := hinside r hmem
    obtain ⟨hlo, hhi, -⟩ := hplanned.data hdata
    obtain ⟨hlo', hhi'⟩ := hplanned.relocation (by omega)
    refine (h.relocations n r hr).frame hframe ?_ fun k h₁ h₂ => hpart k (by omega) (by omega)
    rintro k ⟨e, he, h₁, h₂⟩
    have hend := hfits e he
    exact hpart k (by omega) (by omega)

/-- The header without the number of relocations, and the data. -/
theorem emit_ok {index lo hi count : Nat} {s : Section} (h : emit out index l s = .ok out')
    (hplanned : Planned strings s count lo hi l) (hlo : 20 + index * 40 + 40 ≤ lo)
    (hroom : hi ≤ out.length) (hheader : Holds out (20 + index * 40) (List.replicate 40 0)) :
    SameOutside (fun k => (20 + index * 40 ≤ k ∧ k < 20 + index * 40 + 40) ∨ lo ≤ k ∧ k < hi)
        out out' ∧
      Holds out' (20 + index * 40) (headerFields l) ∧
      (¬ NoData s → Holds out' l.data s.data) := by
  obtain ⟨data, hdata, h₁⟩ := bind_ok_iff.mp h
  obtain ⟨relocation, hrelocation, h₂⟩ := bind_ok_iff.mp h₁
  obtain ⟨rfl, -⟩ := number_ok hdata
  obtain ⟨rfl, -⟩ := number_ok hrelocation
  have hout := (Except.ok.inj h₂).symm
  have hname := hplanned.nameLength
  have horder := hplanned.order
  -- The fields of the header, from left to right.
  have hlength₀ : (patch (List.replicate 40 (0 : UInt8)) 0 l.name).length = 40 := by
    rw [length_patch (by simp [hname]), List.length_replicate]
  have g₁ := hheader.patch (k := 0) (t := l.name) (by simp [hname])
  have g₂ := holds_u32At (k := 16) g₁ (by omega) l.size
  have hlength₂ := length_u32At (s := patch (List.replicate 40 (0 : UInt8)) 0 l.name) (k := 16)
    (v := l.size) (by omega)
  have g₃ := holds_u32At (k := 20) g₂ (by omega) l.data
  have hlength₃ := length_u32At (k := 20) (v := l.data)
    (s := u32At (patch (List.replicate 40 (0 : UInt8)) 0 l.name) 16 l.size) (by omega)
  have g₄ := holds_u32At (k := 24) g₃ (by omega) l.relocation
  have hlength₄ := length_u32At (k := 24) (v := l.relocation) (s := u32At (u32At
    (patch (List.replicate 40 (0 : UInt8)) 0 l.name) 16 l.size) 20 l.data) (by omega)
  have g₅ := holds_u32At (k := 36) g₄ (by omega) l.flags
  -- They touch the header only.
  have f₁ := SameOutside.patch (s := out) (t := l.name) (k := 20 + index * 40) (by omega)
  have f₂ := frame_u32At (k := 20 + index * 40 + 16) (by rw [f₁.length]; omega) l.size
  have f₃ := frame_u32At (k := 20 + index * 40 + 20) (by rw [f₂.length, f₁.length]; omega) l.data
  have f₄ := frame_u32At (k := 20 + index * 40 + 24)
    (by rw [f₃.length, f₂.length, f₁.length]; omega) l.relocation
  have f₅ := frame_u32At (k := 20 + index * 40 + 36)
    (by rw [f₄.length, f₃.length, f₂.length, f₁.length]; omega) l.flags
  have hframe : SameOutside (fun k => 20 + index * 40 ≤ k ∧ k < 20 + index * 40 + 40) out _ :=
    ((((f₁.mono fun k hk => by omega).trans (f₂.mono fun k hk => by omega)).trans
      (f₃.mono fun k hk => by omega)).trans (f₄.mono fun k hk => by omega)).trans
      (f₅.mono fun k hk => by omega)
  have hcomplete := length_headerFields hname
  unfold headerFields at hcomplete ⊢
  generalize u32At (u32At (u32At (u32At (patch out (20 + index * 40) l.name)
    (20 + index * 40 + 16) l.size) (20 + index * 40 + 20) l.data) (20 + index * 40 + 24)
    l.relocation) (20 + index * 40 + 36) l.flags = out₁ at hout hframe g₅
  by_cases hno : NoData s
  · rw [if_pos (hplanned.noData hno)] at hout
    subst hout
    exact ⟨hframe.mono fun k hk => .inl hk, g₅, fun hdata => absurd hno hdata⟩
  · obtain ⟨hdata, hend, -⟩ := hplanned.data hno
    rw [if_neg (by omega)] at hout
    subst hout
    have hfits : l.data + s.data.length ≤ out₁.length := by
      rw [hframe.length]
      omega
    have hpatch := SameOutside.patch (s := out₁) (t := s.data) (k := l.data) hfits
    refine ⟨(hframe.mono fun k hk => .inl hk).trans (hpatch.mono fun k hk => .inr (by omega)), ?_,
      fun _ => Holds.patch_self hfits⟩
    exact g₅.frame hpatch fun k h₃ h₄ h₅ => by omega

/-- The symbol of a section touches its own records only. -/
theorem sectionSymbol_ok (hname : name.length = 8) (index size count : Nat)
    (hzero : Holds out at' (List.replicate 36 0)) :
    SameOutside (fun k => at' ≤ k ∧ k < at' + 36) out
        (sectionSymbol out at' name index size count) ∧
      Holds (sectionSymbol out at' name index size count) at'
        (sectionSymbolRecord name index size count) := by
  have hroom : at' + 36 ≤ out.length := by
    have hbound := hzero.1
    rwa [List.length_replicate] at hbound
  unfold sectionSymbol
  -- The frames first: each patch stays inside the record's 36 bytes.
  have f₁ := SameOutside.patch (s := out) (t := name) (k := at') (by omega)
  have f₂ := frame_u16At (k := at' + 12) (by rw [f₁.length]; omega) (index + 1)
  have f₃ := SameOutside.patch (t := [(3 : UInt8)]) (k := at' + 16)
    (by rw [f₂.length, f₁.length, List.length_singleton]; omega)
  have f₄ := SameOutside.patch (t := [(1 : UInt8)]) (k := at' + 17)
    (by rw [f₃.length, f₂.length, f₁.length, List.length_singleton]; omega)
  have f₅ := frame_u32At (k := at' + 18)
    (by rw [f₄.length, f₃.length, f₂.length, f₁.length]; omega) size
  have f₆ := frame_u16At (k := at' + 22)
    (by rw [f₅.length, f₄.length, f₃.length, f₂.length, f₁.length]; omega) count
  rw [List.length_singleton] at f₃ f₄
  have hframe : SameOutside (fun k => at' ≤ k ∧ k < at' + 36) out _ :=
    (((((f₁.mono fun k hk => by omega).trans (f₂.mono fun k hk => by omega)).trans
      (f₃.mono fun k hk => by omega)).trans (f₄.mono fun k hk => by omega)).trans
      (f₅.mono fun k hk => by omega)).trans (f₆.mono fun k hk => by omega)
  refine ⟨hframe, ?_⟩
  have l₁ : (patch (List.replicate 36 (0 : UInt8)) 0 name).length = 36 := by
    rw [length_patch (by simp [hname]), List.length_replicate]
  -- Then the bytes: the zeros take the six fields one after another.
  have g₁ := hzero.patch (k := 0) (t := name) (by simp [hname])
  have l₂ := length_u16At (s := patch (List.replicate 36 (0 : UInt8)) 0 name) (k := 12)
    (v := index + 1) (by omega)
  have g₂ := holds_u16At (k := 12) g₁ (by omega) (index + 1)
  have g₃ := g₂.patch (k := 16) (t := [3]) (by rw [List.length_singleton]; omega)
  have l₃ : (patch (u16At (patch (List.replicate 36 (0 : UInt8)) 0 name) 12 (index + 1)) 16
      [3]).length = 36 := by
    rw [length_patch (by rw [List.length_singleton]; omega)]
    omega
  have g₄ := g₃.patch (k := 17) (t := [1]) (by rw [List.length_singleton]; omega)
  have l₄ : (patch (patch (u16At (patch (List.replicate 36 (0 : UInt8)) 0 name) 12 (index + 1)) 16
      [3]) 17 [1]).length = 36 := by
    rw [length_patch (by rw [List.length_singleton]; omega)]
    omega
  have g₅ := holds_u32At (k := 18) g₄ (by omega) size
  have l₅ := length_u32At (k := 18) (v := size) (s := patch (patch (u16At
    (patch (List.replicate 36 (0 : UInt8)) 0 name) 12 (index + 1)) 16 [3]) 17 [1]) (by omega)
  have g₆ := holds_u16At (k := 22) g₅ (by omega) count
  rw [patches_sectionSymbol hname] at g₆
  exact g₆

/-- The part of the file that section `index` may write to. -/
def SectionPart (symbols index lo hi : Nat) (k : Nat) : Prop :=
  (20 + index * 40 ≤ k ∧ k < 20 + index * 40 + 40) ∨ (lo ≤ k ∧ k < hi) ∨
    symbols + index * 36 ≤ k ∧ k < symbols + index * 36 + 36

theorem emitSection_ok {out out₁ out₂ : List UInt8} {index lo hi symbols : Nat} {s : Section}
    (hemit : emit out index l s = .ok out₁)
    (hrelocations : emitRelocations out₁ index l machine records indices = .ok out₂)
    (hplanned : Planned strings s records.length lo hi l) (hlo : 20 + index * 40 + 40 ≤ lo)
    (hhi : hi ≤ symbols + index * 36) (hinside : FieldsInside machine s records)
    (hapart : records.Pairwise (Apart machine))
    (hheader : Holds out (20 + index * 40) (List.replicate 40 0))
    (hsymbol : Holds out (symbols + index * 36) (List.replicate 36 0)) :
    let out₃ := sectionSymbol out₂ (symbols + index * 36) l.symbolName index l.size records.length
    SameOutside (SectionPart symbols index lo hi) out out₃ ∧
      SectionHolds machine indices symbols out₃ index s records l := by
  have horder := hplanned.order
  have hroom : symbols + index * 36 + 36 ≤ out.length := by
    have hbound := hsymbol.1
    rwa [List.length_replicate] at hbound
  obtain ⟨f₁, hhead, hdata⟩ := emit_ok hemit hplanned hlo (by omega) hheader
  -- The number of relocations completes the header.
  have hname := hplanned.nameLength
  have hcountRoom : 20 + index * 40 + 32 + 2 ≤ out₁.length := by
    rw [f₁.length]
    omega
  have f₂ := frame_u16At hcountRoom records.length
  have hheadLength := length_headerFields hname
  have hheader₂ := holds_u16At (k := 32) hhead (by omega) records.length
  rw [patches_header hname] at hheader₂
  have hfits : ∀ r ∈ records, ∀ e, r.kind.coffEncoding machine = some e →
      l.data + r.offset + e.2 ≤ l.relocation := fun r hr e he => by
    obtain ⟨hsome, hend⟩ := hinside r hr
    have hne : records.length ≠ 0 := by
      have hpos := List.length_pos_of_mem hr
      omega
    have hbefore := (hplanned.data hsome).2.2 hne
    have hlast := hend e he
    omega
  have hentriesRoom : l.relocation + records.length * 10 ≤ hi := by
    rcases Nat.eq_zero_or_pos records.length with hzero | hpos
    · rw [hzero, Nat.zero_mul]
      exact hplanned.relocationLe
    · exact (hplanned.relocation (by omega)).2
  obtain ⟨f₃, hrecords⟩ := emitEntries_ok hrelocations hfits hapart
    (by rw [f₂.length, f₁.length]; omega)
  -- Fields and records lie in the part between `lo` and `hi`.
  have f₃' := f₃.mono (p := fun k => lo ≤ k ∧ k < hi) (by
    rintro k (⟨r, hr, e, he, h₁, h₂⟩ | hk)
    · obtain ⟨hsome, hend⟩ := hinside r hr
      obtain ⟨hdataLo, hdataHi, -⟩ := hplanned.data hsome
      have hlast := hend e he
      omega
    · have hne : records.length ≠ 0 := by
        intro hzero
        rw [hzero] at hk
        omega
      obtain ⟨hrelLo, hrelHi⟩ := hplanned.relocation hne
      omega)
  have hzero₂ : Holds out₂ (symbols + index * 36) (List.replicate 36 0) := by
    refine ((hsymbol.frame f₁ ?_).frame f₂ ?_).frame f₃' ?_
    · rw [List.length_replicate]
      rintro k h₁ h₂ (h₃ | h₃) <;> omega
    · rw [List.length_replicate]
      rintro k h₁ h₂ h₃
      omega
    · rw [List.length_replicate]
      rintro k h₁ h₂ h₃
      omega
  obtain ⟨f₄, hsymbolRecord⟩ := sectionSymbol_ok hplanned.symbolNameLength index l.size
    records.length hzero₂
  refine ⟨?_, ?_⟩
  · refine (((f₁.mono ?_).trans (f₂.mono ?_)).trans (f₃'.mono ?_)).trans (f₄.mono ?_)
    · rintro k (hk | hk)
      · exact .inl hk
      · exact .inr (.inl hk)
    · intro k hk
      exact .inl (by omega)
    · exact fun k hk => .inr (.inl hk)
    · exact fun k hk => .inr (.inr hk)
  · refine ⟨?_, hsymbolRecord, fun hsome k hk hout => ?_, fun n r hr => ?_⟩
    · have hheaderLength := length_sectionHeader hname records.length
      refine (hheader₂.frame f₃' ?_).frame f₄ ?_
      · rintro k h₁ h₂ h₃
        omega
      · rintro k h₁ h₂ h₃
        omega
    · obtain ⟨hdataLo, hdataHi, hbefore⟩ := hplanned.data hsome
      rw [f₄.agree _ (by omega), f₃.agree _ ?_, f₂.agree _ (by omega)]
      · exact (hdata hsome).getElem? hk
      · rintro (⟨r, hr, hin⟩ | hin)
        · exact hout r hr hin
        · have hne : records.length ≠ 0 := by
            intro hzero
            rw [hzero] at hin
            omega
          have hstart := hbefore hne
          omega
    · have hn := (List.getElem?_eq_some_iff.mp hr).1
      obtain ⟨hsome, hend⟩ := hinside r (List.mem_of_getElem? hr)
      obtain ⟨hdataLo, hdataHi, -⟩ := hplanned.data hsome
      refine (hrecords n r hr).frame f₄ ?_ ?_
      · rintro k ⟨e, he, h₁, h₂⟩ h₃
        have hlast := hend e he
        omega
      · rintro k h₁ h₂ h₃
        omega

/-! ## All sections -/

/-- The parts of the file that the sections from `index` on may write to. -/
def SectionParts (symbols index count lo hi : Nat) (k : Nat) : Prop :=
  (20 + index * 40 ≤ k ∧ k < 20 + (index + count) * 40) ∨ (lo ≤ k ∧ k < hi) ∨
    symbols + index * 36 ≤ k ∧ k < symbols + (index + count) * 36

/-- By induction on the sections; a section keeps what it left while later ones are emitted. -/
theorem emitSections_ok {symbols hi : Nat} {es : List (Section × List ObjectRelocation)}
    {ls : List SectionLayout} {index lo : Nat}
    (h : emitSections machine indices symbols out index (es.zip ls) = .ok out')
    (hplanned : PlannedAll strings es ls lo hi) (hlo : 20 + (index + es.length) * 40 ≤ lo)
    (hhi : hi ≤ symbols) (hinside : ∀ e ∈ es, FieldsInside machine e.1 e.2)
    (hapart : ∀ e ∈ es, e.2.Pairwise (Apart machine))
    (hheader : Holds out (20 + index * 40) (List.replicate (es.length * 40) 0))
    (hsymbol : Holds out (symbols + index * 36) (List.replicate (es.length * 36) 0)) :
    SameOutside (SectionParts symbols index es.length lo hi) out out' ∧
      ∀ (n : Nat) (e : Section × List ObjectRelocation) (l : SectionLayout), es[n]? = some e →
        ls[n]? = some l → SectionHolds machine indices symbols out' (index + n) e.1 e.2 l := by
  induction es generalizing ls out index lo with
  | nil =>
      cases h
      exact ⟨SameOutside.refl _ _, fun n e l he => nomatch he⟩
  | cons e es ih =>
      cases ls with
      | nil => exact hplanned.elim
      | cons l ls =>
          obtain ⟨mid, hfirst, hrest⟩ := hplanned
          rw [List.length_cons] at hlo hheader hsymbol
          have horder := hfirst.order
          have hmid := hrest.le
          rw [List.zip_cons_cons] at h
          obtain ⟨out₁, h₁, h⟩ := bind_ok_iff.mp h
          obtain ⟨out₂, h₂, h⟩ := bind_ok_iff.mp h
          obtain ⟨hframe, hholds⟩ := emitSection_ok h₁ h₂ hfirst (by omega) (by omega)
            (hinside e List.mem_cons_self) (hapart e List.mem_cons_self)
            (hheader.replicate_part (i := 0) (by omega))
            (hsymbol.replicate_part (i := 0) (by omega))
          dsimp only at hframe hholds h
          generalize sectionSymbol out₂ (symbols + index * 36) l.symbolName index l.size
            e.2.length = out₃ at hframe hholds h
          -- The header and the symbol of the next section are still zero after this one.
          have hzeroHeader : Holds out₃ (20 + (index + 1) * 40)
              (List.replicate (es.length * 40) 0) := by
            have hpart := hheader.replicate_part (i := 40) (n := es.length * 40) (by omega)
            have hat : 20 + index * 40 + 40 = 20 + (index + 1) * 40 := by omega
            rw [hat] at hpart
            refine hpart.frame hframe ?_
            rw [List.length_replicate]
            rintro k h₃ h₄ (h₅ | h₅ | h₅) <;> omega
          have hzeroSymbol : Holds out₃ (symbols + (index + 1) * 36)
              (List.replicate (es.length * 36) 0) := by
            have hpart := hsymbol.replicate_part (i := 36) (n := es.length * 36) (by omega)
            have hat : symbols + index * 36 + 36 = symbols + (index + 1) * 36 := by omega
            rw [hat] at hpart
            refine hpart.frame hframe ?_
            rw [List.length_replicate]
            rintro k h₃ h₄ (h₅ | h₅ | h₅) <;> omega
          obtain ⟨hframe', hholds'⟩ := ih h hrest (by omega)
            (fun e' he' => hinside e' (List.mem_cons_of_mem _ he'))
            (fun e' he' => hapart e' (List.mem_cons_of_mem _ he')) hzeroHeader hzeroSymbol
          refine ⟨(hframe.mono ?_).trans (hframe'.mono ?_), fun n e' l' he' hl' => ?_⟩
          · rw [List.length_cons]
            rintro k (hk | hk | hk)
            · exact .inl (by omega)
            · exact .inr (.inl (by omega))
            · exact .inr (.inr (by omega))
          · rw [List.length_cons]
            rintro k (hk | hk | hk)
            · exact .inl (by omega)
            · exact .inr (.inl (by omega))
            · exact .inr (.inr (by omega))
          · cases n with
            | zero =>
                cases he'
                cases hl'
                refine hholds.frame hfirst (hinside e List.mem_cons_self) hframe' ?_ ?_ ?_
                · rintro k h₃ h₄ (h₅ | h₅ | h₅) <;> omega
                · rintro k h₃ h₄ (h₅ | h₅ | h₅) <;> omega
                · rintro k h₃ h₄ (h₅ | h₅ | h₅) <;> omega
            | succ n =>
                have hnext := hholds' n e' l' he' hl'
                have hat : index + 1 + n = index + (n + 1) := by omega
                rwa [hat] at hnext

/-! ## Symbols behind the sections -/

/-- The records lie one after the other. -/
theorem emitRecords_ok {records : List (List UInt8)}
    (hroom : at' + records.flatten.length ≤ out.length) :
    SameOutside (fun k => at' ≤ k ∧ k < at' + records.flatten.length) out
        (emitRecords out at' records) ∧
      Holds (emitRecords out at' records) at' records.flatten := by
  induction records generalizing out at' with
  | nil =>
      refine ⟨SameOutside.refl _ _, ⟨hroom, ?_⟩⟩
      exact slice_zero _ _
  | cons r records ih =>
      rw [List.flatten_cons, List.length_append] at hroom
      have hpatch := SameOutside.patch (s := out) (t := r) (k := at') (by omega)
      obtain ⟨hframe, hholds⟩ := @ih (patch out at' r) (at' + r.length)
        (by rw [hpatch.length]; omega)
      rw [List.flatten_cons]
      refine ⟨(hpatch.mono fun k hk => ?_).trans (hframe.mono fun k hk => ?_), ?_⟩
      · rw [List.length_append]
        omega
      · rw [List.length_append]
        omega
      · have hself : Holds (patch out at' r) at' r := Holds.patch_self (by omega)
        have hfirst := hself.frame hframe fun k h₁ h₂ h₃ => by omega
        refine ⟨?_, ?_⟩
        · rw [List.length_append]
          have hbound := hholds.1
          show at' + (r.length + records.flatten.length) ≤
            (emitRecords (patch out at' r) (at' + r.length) records).length
          omega
        · rw [List.length_append, slice_add]
          show slice (emitRecords (patch out at' r) (at' + r.length) records) at' r.length ++
            slice (emitRecords (patch out at' r) (at' + r.length) records) (at' + r.length)
              records.flatten.length = _
          rw [hfirst.2, hholds.2]

end Whale.Coff
