import Whale.Object.Elf.ReadParts
import Whale.Object.Elf.Serialize

set_option autoImplicit false

/-! # The ELF reader on any input

Whatever the bytes and the limits are, the reader comes to an end without a panic. An object it
returns is valid and was read from parts inside the input, at the cost it reports, which is
within the limits (`readElfWithUsage_bounded`). -/

namespace Whale.Elf

/-! ## Names of section symbols -/

theorem triesCost_succ (length dollars : Nat) :
    triesCost length (dollars + 1) = ⟨length + 1, 0, 0⟩ + triesCost (length + 1) dollars := by
  unfold triesCost
  rw [List.range_succ_eq_map, List.map_cons, List.sum_cons, List.map_map]
  refine Cost.ext ?_ rfl rfl
  simp only [Cost.add_work, Nat.add_zero]
  congr 2
  refine List.map_congr_left fun i _ => ?_
  simp only [Function.comp_apply]
  omega

/-- A name that is taken costs at least one, so that the fuel lasts. -/
theorem freshName_spec (taken : List String) (fuel : Nat) (name : String) (b : Budget)
    (hwork : 1 ≤ b.work) (hname : name.utf8ByteSize + 1 < wordBound)
    (hfuel : b.limits.maxWork - b.work ≤ fuel) :
    Concludes (fun s t => ∃ dollars, s.utf8ByteSize = name.utf8ByteSize + dollars ∧
      Spent (triesCost name.utf8ByteSize dollars) b t) Reported (freshName taken fuel name) b := by
  induction fuel generalizing name b with
  | zero =>
      unfold freshName
      split
      · have hplus : plus name.utf8ByteSize 1 = .ok (name.utf8ByteSize + 1) :=
          orThrow_ok_iff.mpr (checkedAdd_eq_some.mpr ⟨rfl, hname⟩)
        refine (view_ok hplus b).bind fun length t h => ?_
        obtain ⟨rfl, rfl⟩ := h
        refine (charge_spec _ t).bind fun _ u h => ?_
        -- Nothing was left of the work, but something was charged.
        exfalso
        have hspent := h.1.work
        have hlimits := h.1.limits
        have hle := h.2.1
        rw [hlimits] at hle
        simp only at hspent
        omega
      · exact Concludes.pure ⟨0, rfl, Spent.refl b⟩
  | succ fuel ih =>
      unfold freshName
      split
      · have hplus : plus name.utf8ByteSize 1 = .ok (name.utf8ByteSize + 1) :=
          orThrow_ok_iff.mpr (checkedAdd_eq_some.mpr ⟨rfl, hname⟩)
        refine (view_ok hplus b).bind fun length t h => ?_
        obtain ⟨rfl, rfl⟩ := h
        refine (charge_spec _ t).bind fun _ u h => ?_
        obtain ⟨hspent, hle, hbound⟩ := h
        have hpaid := hspent.work
        have hlimits := hspent.limits
        simp only at hpaid
        have hsize : (name.push '$').utf8ByteSize = name.utf8ByteSize + 1 :=
          String.utf8ByteSize_push
        have hleft : u.limits.maxWork - u.work ≤ fuel := by
          rw [hlimits] at hle ⊢
          omega
        refine (ih (name.push '$') u (by omega) (by omega) hleft).mono fun s w h => ?_
        obtain ⟨dollars, hdollars, htries⟩ := h
        refine ⟨dollars + 1, by omega, ?_⟩
        rw [triesCost_succ, ← hsize]
        rw [← hsize] at hspent
        exact hspent.trans htries
      · exact Concludes.pure ⟨0, rfl, Spent.refl b⟩

theorem utf8ByteSize_ofList_le (cs : List Char) :
    (String.ofList cs).utf8ByteSize ≤ 4 * cs.length := by
  induction cs with
  | nil => exact Nat.zero_le _
  | cons c cs ih =>
      have hc := c.utf8Size_le_four
      rw [String.ofList_cons, String.utf8ByteSize_append, String.utf8ByteSize_singleton,
        List.length_cons]
      omega

theorem helperName_le {index : Nat} (h : index < wordBound) :
    (helperName index).utf8ByteSize ≤ 100 := by
  have hdigits : (Nat.toDigits 10 index).length ≤ 20 :=
    (Nat.length_toDigits_le_iff (by decide) (by decide)).mpr (h.trans (by decide))
  have hnumber : (toString index).utf8ByteSize ≤ 80 := by
    rw [Nat.toString_eq_ofList_toDigits]
    exact (utf8ByteSize_ofList_le _).trans (by omega)
  have hname : helperName index = "__whale_elf_section_" ++ toString index := by
    unfold helperName
    simp [toString]
  have hprefix : "__whale_elf_section_".utf8ByteSize = 20 := by decide
  rw [hname, String.utf8ByteSize_append, hprefix]
  omega

/-! ## Symbols -/

/-- The records among these that have a symbol. -/
def recordsOf (entries : List (RawSymbol × Nat)) : List (RawSymbol × Nat) :=
  entries.filter fun e => e.1.kind ≠ 4

/-- The loop over the symbols has the records `done` behind it. -/
structure Resolving (headers : List ElfSectionHeader) (b : Budget)
    (done : List (RawSymbol × Nat)) (r : Resolved) (t : Budget) : Prop where
  symbols : List.Forall₂ (fun e s => SymbolFrom headers e.1 s) (recordsOf done) r.symbols
  mapping : ∀ i j : Nat, r.mapping[i]? = some (some j) →
    (recordsOf done)[j]?.map Prod.snd = some i
  spent : Spent (((recordsOf done).zip r.symbols).map symbolCost).sum b t

variable {headers : List ElfSectionHeader}

variable {b t : Budget} {done : List (RawSymbol × Nat)}

/-- The record of a file has no symbol. -/
theorem Resolving.skip {r : Resolved} (h : Resolving headers b done r t) {e : RawSymbol × Nat}
    (hkind : e.1.kind = 4) : Resolving headers b (done ++ [e]) r t := by
  have hrecords : recordsOf (done ++ [e]) = recordsOf done := by
    simp [recordsOf, hkind]
  refine ⟨?_, ?_, ?_⟩
  · rw [hrecords]
    exact h.symbols
  · rw [hrecords]
    exact h.mapping
  · rw [hrecords]
    exact h.spent

theorem Resolving.push {b t u : Budget} {r : Resolved} (h : Resolving headers b done r t)
    {e : RawSymbol × Nat} (hkind : e.1.kind ≠ 4) {s : ObjectSymbol}
    (hsymbol : SymbolFrom headers e.1 s) (hspent : Spent (symbolCost (e, s)) t u)
    (helpers : List String) :
    Resolving headers b (done ++ [e]) { r.push e.2 s with helperNames := helpers } u := by
  have hrecords : recordsOf (done ++ [e]) = recordsOf done ++ [e] := by
    simp [recordsOf, hkind]
  refine ⟨?_, ?_, ?_⟩
  · rw [hrecords]
    exact List.rel_append h.symbols (.cons hsymbol .nil)
  · rw [hrecords]
    exact mapping_set h.mapping h.symbols.length_eq
  · rw [hrecords]
    simp only [Resolved.push]
    rw [List.zip_append h.symbols.length_eq, List.map_append, List.sum_append]
    simp only [List.zip_cons_cons, List.zip_nil_right, List.map_singleton, List.sum_singleton]
    exact h.spent.trans hspent

/-- The sections that the mapping answers are those of the headers. -/
def MapsSections (headers : List ElfSectionHeader) (mapping : List (Option Nat)) : Prop :=
  ∀ i j : Nat, mapping[i]? = some (some j) → (payloads headers)[j]?.map Prod.snd = some i

variable {mapping : List (Option Nat)}

theorem join_eq_some {i j : Nat} (h : mapping[i]?.join = some j) : mapping[i]? = some (some j) :=
  Option.join_eq_some_iff.mp h

theorem resolveSymbol_spec (hmapping : MapsSections headers mapping) (usedNames : List String)
    {r : Resolved} (h : Resolving headers b done r t) (hwork : 1 ≤ b.work) (e : RawSymbol × Nat)
    (hindex : e.2 < wordBound) :
    Concludes (fun r' u => Resolving headers b (done ++ [e]) r' u) Reported
      (resolveSymbol mapping usedNames r e) t := by
  obtain ⟨symbol, index⟩ := e
  unfold resolveSymbol
  simp only
  refine (get_spec _ _ t).bind fun binding u hbinding => ?_
  obtain ⟨hbinding, rfl⟩ := hbinding
  refine (get_spec _ _ u).bind fun visibility t hvisibility => ?_
  obtain ⟨hvisibility, rfl⟩ := hvisibility
  -- A file symbol is skipped, a section symbol gets a helper name, any other its own.
  by_cases hfile : symbol.kind = 4
  · rw [if_pos hfile]
    refine (check_spec _ t).bind fun _ u hcheck => ?_
    obtain ⟨-, rfl⟩ := hcheck
    exact Concludes.pure (h.skip hfile)
  rw [if_neg hfile]
  by_cases hsection : symbol.kind = 3
  · rw [if_pos hsection]
    refine (check_spec _ t).bind fun _ u hcheck => ?_
    obtain ⟨-, rfl⟩ := hcheck
    refine (get_spec _ _ u).bind fun owner t howner => ?_
    obtain ⟨howner, rfl⟩ := howner
    refine Concludes.get_bind ?_
    have hpaid : 1 ≤ t.work := by
      have := h.spent.work
      omega
    have hsize := helperName_le hindex
    have hshort : (helperName index).utf8ByteSize + 1 < wordBound :=
      lt_of_le_of_lt (Nat.succ_le_succ hsize) (by decide)
    refine (freshName_spec _ _ (helperName index) t hpaid hshort le_rfl).bind fun name u hname => ?_
    obtain ⟨dollars, hdollars, htries⟩ := hname
    refine (get_spec _ _ u).bind fun cost w hcost => ?_
    obtain ⟨hcost, rfl⟩ := hcost
    obtain ⟨rfl, -⟩ := checkedMul_eq_some.mp hcost
    refine (chargeStrings_spec _ w).bind fun _ x hstrings => ?_
    refine Concludes.pure ?_
    refine h.push (e := (symbol, index)) hfile ⟨.inr ⟨hsection, rfl⟩, fun hne => absurd hsection hne,
      hbinding, hvisibility, rfl, rfl, fun hnone => ?_, fun i hi => ?_⟩ ?_ _
    · cases hnone
    · cases hi
      exact hmapping _ _ (join_eq_some howner)
    · have hspent := htries.trans hstrings
      unfold symbolCost
      rw [if_pos hsection]
      simp only
      rw [hdollars, Nat.add_sub_cancel_left, ← hdollars]
      exact hspent
  rw [if_neg hsection]
  refine (get_spec _ _ t).bind fun kind u hkind => ?_
  obtain ⟨hkind, rfl⟩ := hkind
  have hrest : ∀ owner : Option Nat, (owner = none → symbol.section = 0) →
      (∀ i, owner = some i → (payloads headers)[i]?.map Prod.snd = some symbol.section) →
      Concludes (fun r' w => Resolving headers b (done ++ [(symbol, index)]) r' w) Reported
        (do
          let name ← own symbol.name
          return r.push index
            { kind := kind, name := name, sectionIndex := owner
              value := UInt64.ofNat symbol.value, size := UInt64.ofNat symbol.size
              binding := binding, visibility := visibility }) u := by
    intro owner hnone hsome
    refine (own_spec symbol.name u).bind fun name x hown => ?_
    obtain ⟨rfl, hspent⟩ := hown
    refine Concludes.pure (h.push (e := (symbol, index)) hfile ⟨.inl hkind, fun _ => rfl, hbinding,
      hvisibility, rfl, rfl, hnone, hsome⟩ ?_ _)
    unfold symbolCost
    rw [if_neg hsection]
    exact hspent
  by_cases hzero : symbol.section = 0
  · rw [if_pos hzero, pure_bind]
    apply hrest
    · exact fun _ => hzero
    · intro i hi
      cases hi
  · rw [if_neg hzero, map_eq_pure_bind, bind_assoc]
    refine (get_spec _ _ u).bind fun owner w howner => ?_
    obtain ⟨howner, rfl⟩ := howner
    rw [pure_bind]
    apply hrest
    · intro hnone
      cases hnone
    · intro i hi
      cases hi
      exact hmapping _ _ (join_eq_some howner)

theorem resolveSymbols_spec (hmapping : MapsSections headers mapping) (usedNames : List String)
    (b : Budget) (hwork : 1 ≤ b.work) (entries : List (RawSymbol × Nat)) (n : Nat)
    (hindices : ∀ e ∈ entries, e.2 < wordBound) :
    Concludes (fun r t => Resolving headers b entries r t) Reported
      (entries.foldlM (resolveSymbol mapping usedNames) ⟨[], List.replicate n none, []⟩) b := by
  refine Concludes.foldlM (I := fun done r t => Resolving headers b done r t) ?_ ?_
  · refine ⟨.nil, fun i j hij => ?_, Spent.refl b⟩
    rw [List.getElem?_replicate] at hij
    split at hij <;> cases hij
  · intro done e rest r t hsplit h
    refine resolveSymbol_spec hmapping usedNames h hwork e (hindices e ?_)
    rw [hsplit]
    exact List.mem_append_right _ List.mem_cons_self

/-- The symbol records and the symbols that come from them. -/
structure SymbolsRead (bytes : List UInt8) (headers : List ElfSectionHeader)
    (symtab strings : ElfSectionHeader) (b : Budget) (raw : List RawSymbol) (r : Resolved)
    (t : Budget) : Prop where
  records : List.Forall₂ (fun k s => RecordFrom bytes symtab strings k s)
    (List.range (symtab.size / 24)) raw
  symbols : List.Forall₂ (fun e s => SymbolFrom headers e.1 s) (symbolRecords raw) r.symbols
  mapping : ∀ i j : Nat, r.mapping[i]? = some (some j) →
    (symbolRecords raw)[j]?.map Prod.snd = some i
  spent : Spent ((raw.map recordCost).sum + (((symbolRecords raw).zip r.symbols).map symbolCost).sum)
    b t

theorem readSymbols_spec {view : ElfView} (hlength : view.bytes.length < wordBound)
    (hmapping : MapsSections headers mapping) {symtab : ElfSectionHeader}
    (strings : ElfSectionHeader) (hinside : Inside view.bytes symtab) (b : Budget)
    (hwork : 1 ≤ b.work) :
    Concludes (fun r t => ∃ raw, SymbolsRead view.bytes headers symtab strings b raw r t) Reported
      (readSymbols view mapping symtab strings (symtab.size / 24)) b := by
  unfold readSymbols
  refine (readRaws_spec hlength strings hinside b).bind fun raw t h => ?_
  obtain ⟨hrecords, hspent⟩ := h
  have hpaid : 1 ≤ t.work := by
    have := hspent.work
    omega
  have hcount : raw.length = symtab.size / 24 := by
    rw [← hrecords.length_eq, List.length_range]
  refine (resolveSymbols_spec hmapping _ t hpaid _ _ fun e he => ?_).mono fun r u h => ?_
  · have hget := List.mem_zipIdx_iff_getElem?.mp (List.mem_of_mem_drop he)
    have hlt := (List.getElem?_eq_some_iff.mp hget).1
    unfold Inside at hinside
    omega
  · exact ⟨raw, hrecords, h.symbols, h.mapping, hspent.trans h.spent⟩

/-! ## Relocations -/

theorem readRelocation_spec {view : ElfView} (hlength : view.bytes.length < wordBound)
    {raw : List RawSymbol} {symbols : Resolved}
    (hrecords : (symbolRecords raw).length = symbols.symbols.length)
    (hsymbols : ∀ i j : Nat, symbols.mapping[i]? = some (some j) →
      (symbolRecords raw)[j]?.map Prod.snd = some i) (table : ElfSectionHeader)
    (index target n : Nat) (htarget : (payloads headers)[target]?.map Prod.snd = some table.info)
    (hinside : RecordInside view.bytes table n) (b : Budget) :
    Concludes (fun r t => RelocationFrom view.bytes headers raw symbols.symbols table n r ∧
      Spent (relocationCost r) b t) Reported (readRelocation view symbols table index target n)
      b := by
  have hpos : table.offset + n * 24 + 24 ≤ view.bytes.length := by
    obtain ⟨hle, hinside⟩ := hinside
    unfold Inside at hinside
    omega
  unfold readRelocation
  -- One charge, three reads at fixed places of the record, and the symbol's name copied.
  refine (charge_spec 1 b).bind fun _ t hcharge => ?_
  refine (view_ok (recordAt_eq hlength hinside) t).bind fun pos u h => ?_
  obtain ⟨rfl, rfl⟩ := h
  refine (view_ok (ElfView.plus_eq hlength (by omega)) u).bind fun place t h => ?_
  obtain ⟨rfl, rfl⟩ := h
  have hinfo : view.u64 (table.offset + n * 24 + 8) =
      .ok (field view.bytes (table.offset + n * 24 + 8) 8) :=
    ElfView.number_eq hlength (by omega)
  refine (view_ok hinfo t).bind fun info u h => ?_
  obtain ⟨rfl, rfl⟩ := h
  refine (get_spec _ _ u).bind fun symbol t hsymbol => ?_
  obtain ⟨hsymbol, rfl⟩ := hsymbol
  refine (get_spec _ _ t).bind fun kind u hkind => ?_
  obtain ⟨hkind, rfl⟩ := hkind
  have hoffset : view.u64 (table.offset + n * 24) =
      .ok (field view.bytes (table.offset + n * 24) 8) :=
    ElfView.number_eq hlength (by omega)
  refine (view_ok hoffset u).bind fun offset t h => ?_
  obtain ⟨rfl, rfl⟩ := h
  have hrecord := hsymbols _ _ (join_eq_some hsymbol)
  obtain ⟨e, he, hedge⟩ := Option.map_eq_some_iff.mp hrecord
  have hlt : symbol < symbols.symbols.length := by
    rw [← hrecords]
    exact (List.getElem?_eq_some_iff.mp he).1
  refine (index_spec (List.getElem?_eq_getElem hlt) t).bind fun found u h => ?_
  obtain ⟨rfl, rfl⟩ := h
  refine (own_spec _ u).bind fun name t hown => ?_
  obtain ⟨rfl, hown⟩ := hown
  have haddend : (plus (table.offset + n * 24) 16 >>= view.i64) =
      .ok (Int64.ofNat (field view.bytes (table.offset + n * 24 + 16) 8)) := by
    unfold ElfView.i64
    rw [ElfView.plus_eq hlength (by omega), ok_bind, ElfView.number_eq hlength (by omega)]
    rfl
  refine (view_ok haddend t).bind fun addend u h => ?_
  obtain ⟨rfl, rfl⟩ := h
  refine Concludes.pure ⟨⟨hinside, htarget, rfl, hkind, ⟨symbol, hrecord, ?_⟩, rfl⟩, ?_⟩
  · rw [List.getElem?_eq_getElem hlt]
    rfl
  · exact hcharge.1.trans hown

/-- The loop over the tables has `done` behind it. -/
structure Relocating (bytes : List UInt8) (limits : ObjectReadLimits)
    (headers : List ElfSectionHeader) (raw : List RawSymbol) (symbols : List ObjectSymbol)
    (b : Budget) (done : List (ElfSectionHeader × Nat)) (rs : List ObjectRelocation) (t : Budget) :
    Prop where
  records : List.Forall₂ (fun e r => RelocationFrom bytes headers raw symbols e.1 e.2 r)
    (relocationRecords done) rs
  count : rs.length ≤ limits.maxRelocations
  spent : Spent (rs.map relocationCost).sum b t

theorem readRelocations_spec {view : ElfView} (hlength : view.bytes.length < wordBound)
    {limits : ObjectReadLimits} (hmapping : MapsSections headers mapping) {raw : List RawSymbol}
    {symbols : Resolved} (hrecords : (symbolRecords raw).length = symbols.symbols.length)
    (hsymbols : ∀ i j : Nat, symbols.mapping[i]? = some (some j) →
      (symbolRecords raw)[j]?.map Prod.snd = some i) (symbolTable : Nat)
    {done : List (ElfSectionHeader × Nat)} {rs : List ObjectRelocation}
    (h : Relocating view.bytes limits headers raw symbols.symbols b done rs t)
    (e : ElfSectionHeader × Nat) (hinside : Inside view.bytes e.1) :
    Concludes (fun rs' u => Relocating view.bytes limits headers raw symbols.symbols b (done ++ [e])
      rs' u) Reported (readRelocations view limits mapping symbolTable symbols rs e) t := by
  obtain ⟨table, index⟩ := e
  unfold readRelocations
  simp only
  refine (check_spec _ t).bind fun _ u hcheck => ?_
  obtain ⟨-, rfl⟩ := hcheck
  refine (get_spec _ _ u).bind fun target t htarget => ?_
  obtain ⟨htarget, rfl⟩ := htarget
  refine (get_spec _ _ t).bind fun total u htotal => ?_
  obtain ⟨htotal, rfl⟩ := htotal
  obtain ⟨rfl, -⟩ := checkedAdd_eq_some.mp htotal
  refine (check_spec _ u).bind fun _ t hcheck => ?_
  obtain ⟨hcount, rfl⟩ := hcheck
  have hloop : Concludes (fun new w =>
      List.Forall₂ (fun n r => RelocationFrom view.bytes headers raw symbols.symbols table n r)
        (List.range (table.size / 24)) new ∧ Spent (new.map relocationCost).sum t w) Reported
      ((List.range (table.size / 24)).mapM (readRelocation view symbols table index target)) t := by
    -- The relocations read and what was spent on them grow together.
    refine Concludes.mapM (I := fun done new w =>
      List.Forall₂ (fun n r => RelocationFrom view.bytes headers raw symbols.symbols table n r)
        done new ∧ Spent (new.map relocationCost).sum t w) ⟨.nil, Spent.refl t⟩ ?_
    intro done n rest new w hsplit h
    have hn : n < table.size / 24 := by
      refine List.mem_range.mp ?_
      rw [hsplit]
      exact List.mem_append_right _ List.mem_cons_self
    have hrecord : RecordInside view.bytes table n := ⟨by omega, hinside⟩
    refine (readRelocation_spec hlength hrecords hsymbols table index target n
      (hmapping _ _ (join_eq_some htarget)) hrecord w).mono fun r x hr => ?_
    refine ⟨List.rel_append h.1 (.cons hr.1 .nil), ?_⟩
    rw [List.map_append, List.sum_append, List.map_singleton, List.sum_singleton]
    exact h.2.trans hr.2
  refine hloop.bind fun new w hnew => ?_
  have hlen := hnew.1.length_eq
  rw [List.length_range] at hlen
  refine Concludes.pure ⟨?_, ?_, ?_⟩
  · unfold relocationRecords
    rw [List.flatMap_append, List.flatMap_singleton]
    refine List.rel_append h.records ?_
    rw [List.forall₂_map_left_iff]
    exact hnew.1
  · rw [List.length_append, ← hlen]
    exact hcount
  · rw [List.map_append, List.sum_append]
    exact h.spent.trans hnew.2

/-! ## The object -/

/-- The symbol table and its strings are headers, and the number of symbols is within the limit. -/
theorem symbolTables_spec (limits : ObjectReadLimits) (headers : List ElfSectionHeader)
    (symbolTable : Option Nat) (b : Budget)
    (hindex : ∀ i, symbolTable = some i → i < headers.length) :
    Concludes (fun r t => symbolTable = some r.1 ∧ headers[r.1]? = some r.2.1 ∧
      r.2.2.1 ∈ headers ∧ r.2.2.2 = r.2.1.size / 24 ∧ 1 ≤ r.2.2.2 ∧
      r.2.2.2 ≤ limits.maxSymbols ∧ t = b) Reported
      (symbolTables limits headers symbolTable) b := by
  unfold symbolTables
  refine (get_spec _ _ b).bind fun index t h => ?_
  obtain ⟨hsome, rfl⟩ := h
  have hlt := hindex index hsome
  refine (index_spec (List.getElem?_eq_getElem hlt) t).bind fun symtab u h => ?_
  obtain ⟨rfl, rfl⟩ := h
  refine (check_spec _ u).bind fun _ t h => ?_
  obtain ⟨⟨-, -, -, hlink⟩, rfl⟩ := h
  refine (index_spec (List.getElem?_eq_getElem hlink) t).bind fun strings u h => ?_
  obtain ⟨rfl, rfl⟩ := h
  refine (check_spec _ u).bind fun _ t h => ?_
  obtain ⟨-, rfl⟩ := h
  refine (check_spec _ t).bind fun _ u h => ?_
  obtain ⟨⟨hne, hle⟩, rfl⟩ := h
  refine (check_spec _ u).bind fun _ t h => ?_
  obtain ⟨-, rfl⟩ := h
  exact Concludes.pure ⟨hsome, List.getElem?_eq_getElem hlt, List.getElem_mem hlink, rfl,
    Nat.one_le_iff_ne_zero.mpr hne, hle, rfl⟩

/-- A header in use has its bytes in the input. -/
theorem inside_of_checked {view : ElfView}
    (hchecked : ∀ i < view.header.sectionCount, HeaderChecked view i)
    {e : ElfSectionHeader × Nat} (he : e ∈ (headersOf view).zipIdx) (hkind : e.1.kind ≠ 0)
    (hdata : e.1.kind ≠ 8) : Inside view.bytes e.1 := by
  have hget := List.mem_zipIdx_iff_getElem?.mp he
  unfold headersOf at hget
  rw [List.getElem?_map, Option.map_eq_some_iff] at hget
  obtain ⟨i, hi, heq⟩ := hget
  obtain ⟨hlt, hrange⟩ := List.getElem?_eq_some_iff.mp hi
  rw [List.getElem_range] at hrange
  rw [List.length_range] at hlt
  subst hrange
  rw [← heq] at hkind hdata ⊢
  have h := hchecked e.2 hlt
  refine h.inside (fun hzero => hkind (h.null hzero)) hkind hdata

theorem steps_work (n : Nat) : (n • stepCost).work = n := by
  induction n with
  | zero => rfl
  | succ n ih =>
      rw [succ_nsmul, Cost.add_work, ih]
      rfl

/-- What has been read when the object is there. -/
structure ObjectRead (bytes : List UInt8) (limits : ObjectReadLimits) (header : ElfHeader)
    (b : Budget) (object : ObjectFile) (symbols relocations : Nat) (t : Budget) (p : Parts) :
    Prop where
  parts : PartsOf bytes object p
  valid : object.validate = .ok ()
  sections : p.headers.length = header.sectionCount
  programs : header.programCount = 0
  symbols : symbols = p.raw.length ∧ symbols ≤ limits.maxSymbols
  relocations : relocations = object.relocations.length ∧ relocations ≤ limits.maxRelocations
  spent : Spent (totalCost p.headers p.names p.raw object) b t

theorem readObject_spec {view : ElfView} (limits : ObjectReadLimits)
    (hlength : view.bytes.length < wordBound) (htable : 0 < view.header.sectionCount →
      view.header.sectionOffset + view.header.sectionCount * 64 ≤ view.bytes.length)
    (hnames : 0 < view.header.sectionCount →
      view.header.stringSection < view.header.sectionCount) (b : Budget) :
    Concludes (fun r t => ∃ p, p.headers = headersOf view ∧
        ObjectRead view.bytes limits view.header b r.1 r.2.1 r.2.2 t p)
      Reported (readObject view limits) b := by
  unfold readObject
  simp only
  refine (check_spec _ b).bind fun _ t h => ?_
  obtain ⟨-, rfl⟩ := h
  refine (check_spec _ t).bind fun _ u h => ?_
  obtain ⟨⟨-, hprograms, -⟩, rfl⟩ := h
  refine (check_spec _ u).bind fun _ t h => ?_
  obtain ⟨⟨hcount, -⟩, rfl⟩ := h
  have hpos : 0 < view.header.sectionCount := Nat.pos_of_ne_zero hcount
  refine (readHeaders_spec hlength (htable hpos) t).bind fun headers u h => ?_
  obtain ⟨rfl, hchecked, hheaders⟩ := h
  have hlen : (headersOf view).length = view.header.sectionCount := by
    unfold headersOf
    rw [List.length_map, List.length_range]
  have hstring : view.header.stringSection < (headersOf view).length := by
    rw [hlen]
    exact hnames hpos
  refine (index_spec (List.getElem?_eq_getElem hstring) u).bind fun names w h => ?_
  obtain ⟨rfl, rfl⟩ := h
  refine (check_spec _ w).bind fun _ u h => ?_
  obtain ⟨-, rfl⟩ := h
  refine (range_spec _ _ u).bind fun table w h => ?_
  obtain ⟨-, -, rfl⟩ := h
  refine (check_spec _ w).bind fun _ u h => ?_
  obtain ⟨-, rfl⟩ := h
  refine (collectSections_spec hlength _ _ _ u).bind fun c w h => ?_
  obtain ⟨used, hc⟩ := h
  have hentry : ∀ i, c.symbolTable = some i → ∃ e ∈ (headersOf view).zipIdx,
      e.1.kind = 2 ∧ e.2 = i :=
    fun i hi => (hc.symbolTable i hi).imp fun e he => ⟨List.mem_of_mem_drop he.1, he.2⟩
  refine (symbolTables_spec limits _ _ w fun i hi => ?_).bind fun r x h => ?_
  · obtain ⟨e, he, -, rfl⟩ := hentry i hi
    exact (List.getElem?_eq_some_iff.mp (List.mem_zipIdx_iff_getElem?.mp he)).1
  obtain ⟨symbolTable, symtab, strings, count⟩ := r
  simp only at h ⊢
  obtain ⟨hsome, hsymtab, hstrings, rfl, -, hsymbols, rfl⟩ := h
  have hinside : Inside view.bytes symtab := by
    obtain ⟨e, he, hkind, hi⟩ := hentry _ hsome
    have hget := List.mem_zipIdx_iff_getElem?.mp he
    rw [hi, hsymtab, Option.some.injEq] at hget
    rw [hget]
    exact inside_of_checked hchecked he (by omega) (by omega)
  have hpaid : 1 ≤ x.work := by
    have hwork := hheaders.work
    have hmore := hc.spent.work
    rw [steps_work] at hwork
    omega
  have hmapping : MapsSections (headersOf view) c.mapping := hc.mapping
  refine (readSymbols_spec hlength hmapping strings hinside x hpaid).bind fun symbols y h => ?_
  obtain ⟨raw, hraw⟩ := h
  have hrelocations : Concludes (fun rs z => Relocating view.bytes limits (headersOf view) raw
      symbols.symbols y (relocationTables (headersOf view)) rs z) Reported
      ((relocationTables (headersOf view)).foldlM
        (readRelocations view limits c.mapping symbolTable symbols) []) y := by
    refine Concludes.foldlM (I := fun done rs z => Relocating view.bytes limits (headersOf view) raw
      symbols.symbols y done rs z) ⟨.nil, Nat.zero_le _, Spent.refl y⟩ ?_
    intro done e rest rs z hsplit h
    have he : e ∈ relocationTables (headersOf view) := by
      rw [hsplit]
      exact List.mem_append_right _ List.mem_cons_self
    unfold relocationTables at he
    obtain ⟨hmem, hkind⟩ := List.mem_filter.mp he
    have hkind := of_decide_eq_true hkind
    exact readRelocations_spec hlength hmapping hraw.symbols.length_eq hraw.mapping symbolTable h e
      (inside_of_checked hchecked hmem (by omega) (by omega))
  refine hrelocations.bind fun rs z h => ?_
  split
  · exact fail_spec _ z
  rename_i hvalid
  have hlenRaw := hraw.records.length_eq
  rw [List.length_range] at hlenRaw
  refine Concludes.pure ⟨⟨view.header.sectionOffset, headersOf view, used, raw,
    (headersOf view)[view.header.stringSection], symtab, strings⟩, rfl, ?_, hvalid, hlen, hprograms,
    ⟨hlenRaw, hsymbols⟩, ⟨rfl, h.count⟩, ?_⟩
  · refine ⟨?_, ?_, ?_, ?_, hc.inUse, hc.sections, hraw.records, hraw.symbols, h.records⟩
    · rw [hlen]
      exact htable hpos
    · rw [hlen]
      rfl
    · intro e he hdata
      obtain ⟨hmem, hkind⟩ := List.mem_filter.mp he
      exact inside_of_checked hchecked (List.mem_of_mem_drop hmem) (of_decide_eq_true hkind) hdata
    · exact ⟨List.getElem_mem hstring, List.mem_of_getElem? hsymtab, hstrings⟩
  · have hspent := ((hheaders.trans hc.spent).trans hraw.spent).trans h.spent
    unfold totalCost
    rw [hlen]
    simp only [← add_assoc] at hspent
    exact hspent

/-! ## The header -/

/-- A computation that fails only with an error to report. -/
def Safe {α : Type} (x : Except ReadAbort α) : Prop := ∀ e, x = .error e → Reported e

section

variable {α β : Type}

theorem Safe.ok (a : α) : Safe (.ok a : Except ReadAbort α) := nofun

theorem Safe.bind {x : Except ReadAbort α} {f : α → Except ReadAbort β} (hx : Safe x)
    (hf : ∀ a, x = .ok a → Safe (f a)) : Safe (x >>= f) := by
  intro e h
  rcases bind_error_iff.mp h with h | ⟨a, ha, h⟩
  · exact hx e h
  · exact hf a ha e h

theorem Safe.require {c : Prop} [Decidable c] (e : ObjectError) :
    Safe (require c (ReadAbort.error e) : Except ReadAbort Unit) := by
  intro e' h
  unfold Whale.require at h
  split at h
  · cases h
  · cases h
    exact reported_error e

theorem Safe.orThrow {o : Option α} (e : ObjectError) :
    Safe (orThrow o (ReadAbort.error e) : Except ReadAbort α) := by
  intro e' h
  cases o with
  | none =>
      cases h
      exact reported_error e
  | some a => cases h

end

section

variable (view : ElfView) (limits : ObjectReadLimits)

theorem range_safe (offset size : Nat) : Safe (view.range offset size) :=
  fun _ => range_reported

theorem number_safe (n pos : Nat) : Safe (view.number n pos) :=
  (range_safe view _ _).bind fun _ _ => Safe.ok _

theorem table_safe (offset count stride : Nat) : Safe (view.table offset count stride) :=
  (Safe.orThrow _).bind fun _ _ => (range_safe view _ _).bind fun _ _ => Safe.ok _

theorem readHeader_safe : Safe (ElfView.readHeader view) := by
  unfold ElfView.readHeader ElfView.u16 ElfView.u64
  repeat refine (number_safe view _ _).bind fun _ _ => ?_
  exact Safe.ok _

theorem checkTables_safe : Safe (ElfView.checkTables view limits) := by
  have hprograms : Safe (if view.header.programCount > 0 then do
      Whale.require (view.header.programEntrySize = 56)
        (ReadAbort.error ((readError .invalidEncoding).at 54))
      view.table view.header.programOffset view.header.programCount 56
    else return ()) := by
    split
    · exact (Safe.require _).bind fun _ _ => table_safe view _ _ _
    · exact Safe.ok _
  unfold ElfView.checkTables
  simp only
  refine (Safe.require _).bind fun _ _ => ?_
  refine (Safe.require _).bind fun _ _ => ?_
  refine (Safe.require _).bind fun _ _ => ?_
  by_cases hpos : view.header.sectionCount > 0
  · rw [if_pos hpos]
    refine (Safe.require _).bind fun _ _ => ?_
    exact (table_safe view _ _ _).bind fun _ _ => hprograms
  · rw [if_neg hpos]
    exact (Safe.require _).bind fun _ _ => hprograms

end

theorem parse_safe (bytes : List UInt8) (limits : ObjectReadLimits) :
    Safe (ElfView.parse bytes limits) := by
  unfold ElfView.parse ElfView.checkIdent ElfView.u16 ElfView.u32
  refine (Safe.require _).bind fun _ _ => ?_
  refine (Safe.require _).bind fun _ _ => ?_
  refine Safe.bind ?_ fun _ _ => ?_
  · exact (Safe.require _).bind fun _ _ => (Safe.require _).bind fun _ _ => Safe.require _
  refine (number_safe _ _ _).bind fun _ _ => (Safe.require _).bind fun _ _ => ?_
  refine (number_safe _ _ _).bind fun _ _ => (Safe.require _).bind fun _ _ => ?_
  refine (number_safe _ _ _).bind fun _ _ => (Safe.require _).bind fun _ _ => ?_
  refine (number_safe _ _ _).bind fun _ _ => (Safe.require _).bind fun _ _ => ?_
  refine (readHeader_safe _).bind fun _ _ => ?_
  exact (checkTables_safe _ limits).bind fun _ _ => Safe.ok _

/-- What is known of a view. -/
structure Parsed (input : List UInt8) (limits : ObjectReadLimits) (view : ElfView) : Prop where
  bytes : view.bytes = input
  length : input.length ≤ limits.maxInputBytes
  sections : view.header.sectionCount ≤ limits.maxSections
  table : 0 < view.header.sectionCount →
    view.header.sectionOffset + view.header.sectionCount * 64 ≤ view.bytes.length
  names : 0 < view.header.sectionCount → view.header.stringSection < view.header.sectionCount

variable {bytes : List UInt8}

theorem parse_tables {limits : ObjectReadLimits} {view : ElfView}
    (h : ElfView.parse bytes limits = .ok view) :
    view.bytes = bytes ∧ bytes.length ≤ limits.maxInputBytes ∧
      ElfView.checkTables view limits = .ok () := by
  unfold ElfView.parse at h
  obtain ⟨hlength, h⟩ := require_then_ok_iff.mp h
  obtain ⟨-, h⟩ := require_then_ok_iff.mp h
  obtain ⟨_, -, h⟩ := bind_ok_iff.mp h
  simp only at h
  obtain ⟨_, -, h⟩ := bind_ok_iff.mp h
  obtain ⟨-, h⟩ := require_then_ok_iff.mp h
  obtain ⟨_, -, h⟩ := bind_ok_iff.mp h
  obtain ⟨-, h⟩ := require_then_ok_iff.mp h
  obtain ⟨_, -, h⟩ := bind_ok_iff.mp h
  obtain ⟨-, h⟩ := require_then_ok_iff.mp h
  obtain ⟨_, -, h⟩ := bind_ok_iff.mp h
  obtain ⟨-, h⟩ := require_then_ok_iff.mp h
  obtain ⟨header, -, h⟩ := bind_ok_iff.mp h
  obtain ⟨_, htables, h⟩ := bind_ok_iff.mp h
  cases h
  exact ⟨rfl, hlength, htables⟩

theorem table_ok {view : ElfView} {offset count stride : Nat} {u : Unit}
    (h : view.table offset count stride = .ok u) :
    offset + count * stride ≤ view.bytes.length := by
  unfold ElfView.table at h
  obtain ⟨size, hsize, h⟩ := bind_ok_iff.mp h
  obtain ⟨rfl, -⟩ := checkedMul_eq_some.mp (orThrow_ok_iff.mp hsize)
  obtain ⟨_, hrange, -⟩ := bind_ok_iff.mp h
  exact (ElfView.range_ok_iff.mp hrange).2.1

theorem parse_spec {limits : ObjectReadLimits} {view : ElfView}
    (h : ElfView.parse bytes limits = .ok view) : Parsed bytes limits view := by
  obtain ⟨rfl, hlength, htables⟩ := parse_tables h
  unfold ElfView.checkTables at htables
  obtain ⟨-, htables⟩ := require_then_ok_iff.mp htables
  obtain ⟨hsections, htables⟩ := require_then_ok_iff.mp htables
  obtain ⟨-, htables⟩ := require_then_ok_iff.mp htables
  have hnonempty : 0 < view.header.sectionCount →
      view.header.sectionOffset + view.header.sectionCount * 64 ≤ view.bytes.length ∧
        view.header.stringSection < view.header.sectionCount := by
    intro hpos
    rw [if_pos hpos] at htables
    obtain ⟨⟨-, hstring⟩, htables⟩ := require_then_ok_iff.mp htables
    obtain ⟨_, htable, -⟩ := bind_ok_iff.mp htables
    exact ⟨table_ok htable, hstring⟩
  exact ⟨rfl, hlength, hsections, fun hpos => (hnonempty hpos).1, fun hpos => (hnonempty hpos).2⟩

/-- The table of program headers lies in the input too. -/
theorem parse_programs {limits : ObjectReadLimits} {view : ElfView}
    (h : ElfView.parse bytes limits = .ok view) (hpos : 0 < view.header.programCount) :
    view.header.programOffset + view.header.programCount * 56 ≤ view.bytes.length := by
  obtain ⟨-, -, htables⟩ := parse_tables h
  unfold ElfView.checkTables at htables
  obtain ⟨-, htables⟩ := require_then_ok_iff.mp htables
  obtain ⟨-, htables⟩ := require_then_ok_iff.mp htables
  obtain ⟨-, htables⟩ := require_then_ok_iff.mp htables
  simp only [if_pos hpos] at htables
  -- Whether there are sections or not, the check of the program headers is the last one.
  split at htables
  · obtain ⟨-, htables⟩ := require_then_ok_iff.mp htables
    obtain ⟨_, -, htables⟩ := bind_ok_iff.mp htables
    obtain ⟨-, htables⟩ := require_then_ok_iff.mp htables
    exact table_ok htables
  · obtain ⟨-, htables⟩ := require_then_ok_iff.mp htables
    obtain ⟨-, htables⟩ := require_then_ok_iff.mp htables
    exact table_ok htables

/-! ## The reader -/

theorem Spent.within_of_fresh {c : Cost} {limits : ObjectReadLimits}
    (h : Spent c ⟨limits, 0, 0, 0⟩ t) :
    c.work ≤ limits.maxWork ∧ c.strings ≤ limits.maxStringBytes ∧
      c.payload ≤ limits.maxPayloadBytes := by
  have hwithin := h.within ⟨Nat.zero_le _, Nat.zero_le _, Nat.zero_le _⟩
  unfold Budget.Within at hwithin
  rw [h.limits, h.work, h.strings, h.payload] at hwithin
  simpa using hwithin

/-- The reader does not panic, and what it returns is valid, was read from inside the input and
cost what the usage says. -/
theorem readElfWithUsage_bounded (bytes : List UInt8) (limits : ObjectReadLimits)
    (hlength : bytes.length < wordBound) :
    readElfWithUsage bytes limits ≠ .error .panic ∧
      ∀ object usage, readElfWithUsage bytes limits = .ok (object, usage) →
        object.validate = .ok () ∧ ReadFrom bytes object usage ∧ usage.Within limits := by
  unfold readElfWithUsage
  cases hparse : ElfView.parse bytes limits with
  | error e =>
      rw [error_bind]
      constructor
      · intro h
        cases h
        exact parse_safe bytes limits _ hparse rfl
      · intro object usage h
        cases h
  | ok view =>
      rw [ok_bind]
      have hview := parse_spec hparse
      have hspec := readObject_spec limits (hview.bytes ▸ hlength) hview.table hview.names
        ⟨limits, 0, 0, 0⟩
      cases hread : readObject view limits ⟨limits, 0, 0, 0⟩ with
      | error e t =>
          constructor
          · intro h
            cases h
            exact hspec.of_error hread rfl
          · intro object usage h
            cases h
      | ok r t =>
          obtain ⟨object, symbols, relocations⟩ := r
          constructor
          · intro h
            cases h
          · intro object' usage h
            cases h
            obtain ⟨p, -, hp⟩ := hspec.of_ok hread
            rw [hview.bytes] at hp
            simp only at hp
            have hcost := hp.spent.within_of_fresh
            have hwork := hp.spent.work
            have hstrings := hp.spent.strings
            have hpayload := hp.spent.payload
            simp only [Nat.zero_add] at hwork hstrings hpayload
            refine ⟨hp.valid, ⟨p, hp.parts, ?_⟩, ?_⟩
            · rw [hwork, hstrings, hpayload, ← hp.sections, hp.programs, hp.symbols.1,
                hp.relocations.1]
            · refine ⟨hview.length, hview.sections, ?_, hp.symbols.2, hp.relocations.2, ?_, ?_, ?_⟩
              · rw [hp.programs]
                exact Nat.zero_le _
              · rw [hpayload]
                exact hcost.2.2
              · rw [hstrings]
                exact hcost.2.1
              · rw [hwork]
                exact hcost.1

/-- The parts an object was read from are those of the view. -/
theorem readElfWithUsage_parts {limits : ObjectReadLimits} {view : ElfView}
    (hlength : bytes.length < wordBound) (hparse : ElfView.parse bytes limits = .ok view)
    {object : ObjectFile} {usage : ObjectReadUsage}
    (h : readElfWithUsage bytes limits = .ok (object, usage)) :
    object.validate = .ok () ∧ ∃ p, p.headers = headersOf view ∧ PartsOf bytes object p := by
  have hview := parse_spec hparse
  have hspec := readObject_spec limits (hview.bytes ▸ hlength) hview.table hview.names
    ⟨limits, 0, 0, 0⟩
  unfold readElfWithUsage at h
  rw [hparse, ok_bind] at h
  cases hread : readObject view limits ⟨limits, 0, 0, 0⟩ with
  | error e t =>
      rw [hread] at h
      cases h
  | ok r t =>
      rw [hread] at h
      obtain ⟨object', symbols, relocations⟩ := r
      obtain ⟨p, hheaders, hp⟩ := hspec.of_ok hread
      cases h
      rw [hview.bytes] at hp
      exact ⟨hp.valid, p, hheaders, hp.parts⟩

def loopUsage : ObjectReadUsage where
  inputBytes := 576
  sections := 6
  programHeaders := 0
  symbols := 2
  relocations := 1
  payloadBytes := 5
  stringBytes := 46
  work := 67

theorem readElfWithUsage_loopFile :
    (readElfWithUsage loopFile .default).toOption.map Prod.snd = some loopUsage := by
  decide +kernel

theorem readElfWithUsage_bounded_loopFile : ∃ object, object.validate = .ok () ∧
    ReadFrom loopFile object loopUsage ∧ loopUsage.Within .default := by
  have hread := readElfWithUsage_loopFile
  have hbounded := readElfWithUsage_bounded loopFile .default (by decide +kernel)
  cases hresult : readElfWithUsage loopFile .default with
  | error e =>
      rw [hresult] at hread
      cases hread
  | ok r =>
      rw [hresult] at hread
      have husage : r.2 = loopUsage := Option.some.inj hread
      rw [← husage]
      exact ⟨r.1, hbounded.2 r.1 r.2 hresult⟩

end Whale.Elf
