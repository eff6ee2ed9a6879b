import Whale.Object.Elf.ReadSpec

set_option autoImplicit false

/-! # Reading the parts of an ELF file

What the reader does with names, section headers, sections and symbol records, whatever the bytes
and the limits are: it reports an error, or it has read the part from inside the input and has
charged what that costs. It never panics. -/

namespace Whale.Elf

/-! ## The budget -/

/-- An error that the reader may report. -/
def Reported (e : ReadAbort) : Prop := e ≠ .panic

def Budget.Within (b : Budget) : Prop :=
  b.work ≤ b.limits.maxWork ∧ b.strings ≤ b.limits.maxStringBytes ∧
    b.payload ≤ b.limits.maxPayloadBytes

/-- From `b` to `t` the cost `c` was charged. -/
structure Spent (c : Cost) (b t : Budget) : Prop where
  limits : t.limits = b.limits
  work : t.work = b.work + c.work
  strings : t.strings = b.strings + c.strings
  payload : t.payload = b.payload + c.payload
  within : b.Within → t.Within

theorem Spent.refl (b : Budget) : Spent 0 b b := ⟨rfl, rfl, rfl, rfl, id⟩

variable {b t : Budget}

theorem Spent.trans {c d : Cost} {b t u : Budget} (h : Spent c b t) (h' : Spent d t u) :
    Spent (c + d) b u where
  limits := h'.limits.trans h.limits
  work := by rw [h'.work, h.work, Cost.add_work, Nat.add_assoc]
  strings := by rw [h'.strings, h.strings, Cost.add_strings, Nat.add_assoc]
  payload := by rw [h'.payload, h.payload, Cost.add_payload, Nat.add_assoc]
  within hb := h'.within (h.within hb)

theorem reported_error (e : ObjectError) : Reported (.error e) := nofun

theorem check_spec {c : Prop} [Decidable c] (e : ObjectError) (b : Budget) :
    Concludes (fun _ t => c ∧ t = b) Reported (Reading.check c e) b :=
  Concludes.require fun _ => reported_error e

theorem get_spec {α : Type} (o : Option α) (e : ObjectError) (b : Budget) :
    Concludes (fun a t => o = some a ∧ t = b) Reported (Reading.get o e) b :=
  Concludes.orThrow fun _ => reported_error e

theorem fail_spec {α : Type} {Q : α → Budget → Prop} (e : ObjectError) (b : Budget) :
    Concludes Q Reported (Reading.fail e) b := reported_error e

theorem view_spec {α : Type} {x : Except ReadAbort α} (hx : ∀ e, x = .error e → Reported e)
    (b : Budget) : Concludes (fun a t => x = .ok a ∧ t = b) Reported (Reading.view x) b :=
  Concludes.orRaise hx

theorem index_spec {α : Type} {o : Option α} {a : α} (h : o = some a) (b : Budget) :
    Concludes (fun c t => c = a ∧ t = b) Reported (Reading.index o) b := by
  rw [h]
  exact ⟨rfl, rfl⟩

theorem view_ok {α : Type} {x : Except ReadAbort α} {a : α} (h : x = .ok a) (b : Budget) :
    Concludes (fun c t => c = a ∧ t = b) Reported (Reading.view x) b := by
  rw [h]
  exact ⟨rfl, rfl⟩

theorem charge_spec (n : Nat) (b : Budget) :
    Concludes (fun _ t => Spent ⟨n, 0, 0⟩ b t ∧ t.work ≤ t.limits.maxWork ∧ t.work < wordBound)
      Reported (charge n) b := by
  unfold charge
  refine Concludes.get_bind ?_
  refine (get_spec _ _ b).bind fun work t h => ?_
  obtain ⟨hwork, rfl⟩ := h
  obtain ⟨rfl, hbound⟩ := checkedAdd_eq_some.mp hwork
  refine Concludes.set_bind ?_
  refine (check_spec _ _).mono fun _ u h => ?_
  obtain ⟨hle, rfl⟩ := h
  exact ⟨⟨rfl, rfl, rfl, rfl, fun hb => ⟨hle, hb.2⟩⟩, hle, hbound⟩

theorem chargeStrings_spec (n : Nat) (b : Budget) :
    Concludes (fun _ t => Spent ⟨0, n, 0⟩ b t) Reported (chargeStrings n) b := by
  unfold chargeStrings
  refine Concludes.get_bind ?_
  refine (get_spec _ _ b).bind fun strings t h => ?_
  obtain ⟨hstrings, rfl⟩ := h
  obtain ⟨rfl, -⟩ := checkedAdd_eq_some.mp hstrings
  refine Concludes.set_bind ?_
  refine (check_spec _ _).mono fun _ u h => ?_
  obtain ⟨hle, rfl⟩ := h
  exact ⟨rfl, rfl, rfl, rfl, fun hb => ⟨hb.1, hle, hb.2.2⟩⟩

theorem chargePayload_spec (n : Nat) (b : Budget) :
    Concludes (fun _ t => Spent ⟨0, 0, n⟩ b t) Reported (chargePayload n) b := by
  unfold chargePayload
  refine Concludes.get_bind ?_
  refine (get_spec _ _ b).bind fun payload t h => ?_
  obtain ⟨hpayload, rfl⟩ := h
  obtain ⟨rfl, -⟩ := checkedAdd_eq_some.mp hpayload
  refine Concludes.set_bind ?_
  refine (check_spec _ _).mono fun _ u h => ?_
  obtain ⟨hle, rfl⟩ := h
  exact ⟨rfl, rfl, rfl, rfl, fun hb => ⟨hb.1, hb.2.1, hle⟩⟩

theorem own_spec (s : String) (b : Budget) :
    Concludes (fun name t => name = s ∧ Spent (copyCost s) b t) Reported (own s) b := by
  unfold own
  refine (chargeStrings_spec _ b).bind fun _ t h => ?_
  refine (charge_spec _ t).bind fun _ u h' => ?_
  have hspent := h.trans h'.1
  have hcost : (⟨0, s.utf8ByteSize, 0⟩ + ⟨s.utf8ByteSize, 0, 0⟩ : Cost) = copyCost s :=
    Cost.ext (Nat.zero_add _) (Nat.add_zero _) rfl
  rw [hcost] at hspent
  exact Concludes.pure ⟨rfl, hspent⟩

/-! ## The view -/

section

variable {view : ElfView}

theorem range_reported {offset size : Nat} {e : ReadAbort} (h : view.range offset size = .error e) :
    Reported e := by
  unfold ElfView.range at h
  rcases bind_error_iff.mp h with h | ⟨stop, -, h⟩
  · cases hstop : checkedAdd offset size with
    | none =>
        rw [hstop] at h
        cases h
        exact reported_error _
    | some stop =>
        rw [hstop] at h
        cases h
  · rcases bind_error_iff.mp h with h | ⟨_, -, h⟩
    · unfold require at h
      split at h
      · cases h
      · cases h
        exact reported_error _
    · cases h

theorem range_spec (offset size : Nat) (b : Budget) :
    Concludes (fun bs t => offset + size ≤ view.bytes.length ∧ bs = slice view.bytes offset size ∧
      t = b) Reported (Reading.view (view.range offset size)) b := by
  refine (view_spec (fun e => range_reported) b).mono fun bs t h => ?_
  obtain ⟨hrange, rfl⟩ := h
  obtain ⟨-, hle, rfl⟩ := ElfView.range_ok_iff.mp hrange
  exact ⟨hle, rfl, rfl⟩

variable (hlength : view.bytes.length < wordBound)

include hlength

/-- A header of the table that lies in the input is what its record says. -/
theorem section_eq {index : Nat} (hindex : index < view.header.sectionCount)
    (htable : view.header.sectionOffset + view.header.sectionCount * 64 ≤ view.bytes.length) :
    view.section index = .ok (headerAt view.bytes view.header.sectionOffset index) := by
  have hlast : view.header.sectionOffset + (index * 64 + 64) ≤ view.bytes.length := by omega
  have hoffset : index * 64 < wordBound := by omega
  have hpos : view.header.sectionOffset + index * 64 < wordBound := by omega
  unfold ElfView.section
  rw [require_of hindex, ok_bind, orThrow_ok_iff.mpr (checkedMul_eq_some.mpr ⟨rfl, hoffset⟩),
    ok_bind, orThrow_ok_iff.mpr (checkedAdd_eq_some.mpr ⟨rfl, hpos⟩), ok_bind]
  simp (disch := omega) only [ElfView.u32, ElfView.u64, ElfView.plus_eq hlength,
    ElfView.number_eq hlength, ok_bind]
  rfl

/-! ## Names -/

omit hlength in
/-- The first zero byte behind `start` ends the string there. -/
theorem nameAt_of_findIdx {table : ElfSectionHeader} {index k stop : Nat} {name : String}
    (hinside : Inside view.bytes table) (hindex : index ≤ table.size)
    (hfind : ((slice view.bytes (table.offset + index) (table.size - index)).take k).findIdx?
      (· == 0) = some stop)
    (hname : ofBytes ((slice view.bytes (table.offset + index) (table.size - index)).take stop) =
      some name) :
    name.utf8ByteSize = stop ∧ NameAt view.bytes table index name := by
  have hle : table.offset + index + (table.size - index) ≤ view.bytes.length := by
    unfold Inside at hinside
    omega
  obtain ⟨hstop, hzero, hfirst⟩ := List.findIdx?_eq_some_iff_getElem.mp hfind
  rw [List.length_take, length_slice hle] at hstop
  rw [List.getElem_take] at hzero
  have hslice : (slice view.bytes (table.offset + index) (table.size - index)).take stop =
      slice view.bytes (table.offset + index) stop := by
    unfold slice
    rw [List.take_take, Nat.min_eq_left (by omega)]
  rw [hslice] at hname
  have hsize := utf8ByteSize_of_ofBytes hname
  rw [length_slice (by omega)] at hsize
  refine ⟨hsize, hinside, by omega, ?_, ?_, ?_⟩
  · rw [hsize]
    have hget : (slice view.bytes (table.offset + index) (table.size - index))[stop]? =
        some 0 := by
      rw [List.getElem?_eq_getElem]
      · exact congrArg some (beq_iff_eq.mp hzero)
      · rw [length_slice hle]
        omega
    rw [getElem?_slice, if_pos (by omega)] at hget
    exact hget
  · rw [hsize, ← hslice]
    intro hmem
    obtain ⟨i, hi, hget⟩ := List.mem_iff_getElem.mp hmem
    rw [List.length_take] at hi
    refine hfirst i (by omega) ?_
    rw [List.getElem_take] at hget ⊢
    rw [hget]
    rfl
  · rw [hsize]
    exact hname

theorem readName_spec (table : ElfSectionHeader) (index : Nat) (b : Budget) :
    Concludes (fun name t => NameAt view.bytes table index name ∧ Spent (nameCost name) b t) Reported
      (readName view table index) b := by
  unfold readName
  refine (check_spec _ b).bind fun _ t h => ?_
  obtain ⟨⟨-, hindex⟩, rfl⟩ := h
  refine (get_spec _ _ t).bind fun start u h => ?_
  obtain ⟨hstart, rfl⟩ := h
  obtain ⟨rfl, -⟩ := checkedAdd_eq_some.mp hstart
  refine (range_spec _ _ u).bind fun tail t h => ?_
  obtain ⟨hinside, rfl, rfl⟩ := h
  refine Concludes.get_bind ?_
  cases hfind : ((slice view.bytes (table.offset + index) (table.size - index)).take
      (t.limits.maxWork - t.work + 1)).findIdx? (· == 0) with
  | none =>
      simp only [hfind]
      split
      · exact fail_spec _ t
      · exact fail_spec _ t
  | some stop =>
      simp only [hfind]
      have hstop := (List.findIdx?_eq_some_iff_getElem.mp hfind).1
      rw [List.length_take, length_slice hinside] at hstop
      have hsucc : stop + 1 ≤ view.bytes.length := by omega
      refine (view_ok (ElfView.plus_eq hlength hsucc) t).bind fun length u h => ?_
      obtain ⟨rfl, rfl⟩ := h
      refine (charge_spec _ u).bind fun _ t h => ?_
      refine (chargeStrings_spec _ t).bind fun _ w h' => ?_
      refine (get_spec _ _ w).mono fun name x h'' => ?_
      obtain ⟨hname, rfl⟩ := h''
      have hwhole : Inside view.bytes table := by
        unfold Inside
        omega
      obtain ⟨hsize, hat⟩ := nameAt_of_findIdx hwhole hindex.le hfind hname
      have hspent := h.1.trans h'
      have hcost : (⟨stop + 1, 0, 0⟩ + ⟨0, stop, 0⟩ : Cost) = nameCost name := by
        unfold nameCost
        rw [hsize]
        exact Cost.ext rfl (Nat.zero_add _) rfl
      rw [hcost] at hspent
      exact ⟨hat, hspent⟩

/-! ## Section headers -/

omit hlength in
theorem leValue_zeros {bs : List UInt8} (h : ∀ b ∈ bs, b = 0) : leValue bs = 0 := by
  induction bs with
  | nil => rfl
  | cons b bs ih =>
      rw [leValue, h b List.mem_cons_self, ih fun c hc => h c (List.mem_cons_of_mem b hc)]
      rfl

/-- What the reader knows of the header at `index`. -/
structure HeaderChecked (view : ElfView) (index : Nat) : Prop where
  null : index = 0 → (headerAt view.bytes view.header.sectionOffset index).kind = 0
  inside : index ≠ 0 → (headerAt view.bytes view.header.sectionOffset index).kind ≠ 0 →
    (headerAt view.bytes view.header.sectionOffset index).kind ≠ 8 →
      Inside view.bytes (headerAt view.bytes view.header.sectionOffset index)

omit hlength in
theorem checkHeader_spec (index : Nat) (b : Budget) :
    Concludes (fun _ t => HeaderChecked view index ∧ t = b) Reported
      (checkHeader view index (headerAt view.bytes view.header.sectionOffset index)) b := by
  unfold checkHeader
  split
  · rename_i hzero
    subst hzero
    refine (range_spec _ _ b).bind fun bs t h => ?_
    obtain ⟨hinside, rfl, rfl⟩ := h
    refine (check_spec _ t).mono fun _ u h => ?_
    obtain ⟨hall, rfl⟩ := h
    refine ⟨⟨fun _ => ?_, fun hne => absurd rfl hne⟩, rfl⟩
    refine leValue_zeros fun c hc => ?_
    obtain ⟨i, hi⟩ := List.mem_iff_getElem?.mp hc
    rw [getElem?_slice] at hi
    split at hi
    · rename_i hlt
      have hmem : c ∈ slice view.bytes view.header.sectionOffset 64 := by
        refine List.mem_iff_getElem?.mpr ⟨4 + i, ?_⟩
        rw [getElem?_slice, if_pos (by omega), ← hi]
        congr 1
        omega
      exact beq_iff_eq.mp (List.all_eq_true.mp hall c hmem)
    · cases hi
  · rename_i hindex
    split
    · rename_i hkind
      exact Concludes.pure ⟨⟨fun h => absurd h hindex, fun _ h => absurd hkind h⟩, rfl⟩
    · refine (check_spec _ b).bind fun _ t h => ?_
      obtain ⟨-, rfl⟩ := h
      refine (check_spec _ t).bind fun _ u h => ?_
      obtain ⟨-, rfl⟩ := h
      split
      · rename_i hkind
        exact Concludes.pure ⟨⟨fun h => absurd h hindex, fun _ _ h => absurd hkind h⟩, rfl⟩
      · refine (range_spec _ _ u).bind fun bs t h => ?_
        obtain ⟨hinside, -, rfl⟩ := h
        exact Concludes.pure ⟨⟨fun h => absurd h hindex, fun _ _ _ => hinside⟩, rfl⟩

/-- The headers of the table. -/
def headersOf (view : ElfView) : List ElfSectionHeader :=
  (List.range view.header.sectionCount).map (headerAt view.bytes view.header.sectionOffset)

theorem readHeaders_spec
    (htable : view.header.sectionOffset + view.header.sectionCount * 64 ≤ view.bytes.length)
    (b : Budget) :
    Concludes (fun hs t => hs = headersOf view ∧
      (∀ i < view.header.sectionCount, HeaderChecked view i) ∧
      Spent (view.header.sectionCount • stepCost) b t) Reported (readHeaders view) b := by
  have hloop : Concludes (fun hs t =>
      hs = headersOf view ∧ (∀ i ∈ List.range view.header.sectionCount, HeaderChecked view i) ∧
      Spent ((List.range view.header.sectionCount).length • stepCost) b t) Reported
      (readHeaders view) b := by
    unfold readHeaders
    refine Concludes.mapM (I := fun done hs t =>
      hs = done.map (headerAt view.bytes view.header.sectionOffset) ∧
      (∀ i ∈ done, HeaderChecked view i) ∧ Spent (done.length • stepCost) b t) ?_ ?_
    · exact ⟨rfl, nofun, by rw [List.length_nil, zero_nsmul]; exact Spent.refl b⟩
    · intro done index rest hs t hsplit h
      obtain ⟨rfl, hchecked, hspent⟩ := h
      have hindex : index < view.header.sectionCount := by
        refine List.mem_range.mp ?_
        rw [hsplit]
        exact List.mem_append_right _ List.mem_cons_self
      refine (charge_spec 1 t).bind fun _ u h => ?_
      refine (view_ok (section_eq hlength hindex htable) u).bind fun s w h' => ?_
      obtain ⟨rfl, rfl⟩ := h'
      refine (checkHeader_spec index w).bind fun _ x h' => ?_
      obtain ⟨hheader, rfl⟩ := h'
      refine Concludes.pure ⟨?_, ?_, ?_⟩
      · rw [List.map_append]
        rfl
      · intro i hi
        rcases List.mem_append.mp hi with hi | hi
        · exact hchecked i hi
        · rw [List.mem_singleton.mp hi]
          exact hheader
      · rw [List.length_append, List.length_singleton, succ_nsmul]
        exact hspent.trans h.1
  rw [List.length_range] at hloop
  exact hloop.mono fun hs t h => ⟨h.1, fun i hi => h.2.1 i (List.mem_range.mpr hi), h.2.2⟩

end

/-! ## Sections -/

section

variable {view : ElfView}

theorem readPayload_spec (h : ElfSectionHeader) (b : Budget) :
    Concludes (fun data t => (h.kind = 8 → data = []) ∧
      (h.kind ≠ 8 → Inside view.bytes h ∧ data = slice view.bytes h.offset h.size) ∧
      Spent (dataCost data) b t) Reported (readPayload view h) b := by
  unfold readPayload
  by_cases hkind : h.kind = 8
  · rw [if_pos hkind]
    exact Concludes.pure ⟨fun _ => rfl, fun h => absurd hkind h, Spent.refl b⟩
  · rw [if_neg hkind]
    refine (chargePayload_spec _ b).bind fun _ t hpayload => ?_
    refine (charge_spec _ t).bind fun _ u hwork => ?_
    refine (range_spec _ _ u).mono fun data w hrange => ?_
    obtain ⟨hinside, rfl, rfl⟩ := hrange
    refine ⟨fun h => absurd h hkind, fun _ => ⟨hinside, rfl⟩, ?_⟩
    have hspent := hpayload.trans hwork.1
    have hcost : (⟨0, 0, h.size⟩ + ⟨h.size, 0, 0⟩ : Cost) =
        dataCost (slice view.bytes h.offset h.size) := by
      unfold dataCost
      rw [length_slice hinside]
      exact Cost.ext (Nat.zero_add _) rfl (Nat.add_zero _)
    rw [hcost] at hspent
    exact hspent

/-- The headers among these that become sections. -/
def payloadsOf (entries : List (ElfSectionHeader × Nat)) : List (ElfSectionHeader × Nat) :=
  entries.filter fun e => isPayload e.1

def activeOf (entries : List (ElfSectionHeader × Nat)) : List (ElfSectionHeader × Nat) :=
  entries.filter fun e => e.1.kind ≠ 0

/-- The loop over the sections has the entries `done` behind it. -/
structure Collecting (view : ElfView) (names : ElfSectionHeader) (b : Budget)
    (done : List (ElfSectionHeader × Nat)) (c : Collected) (t : Budget) (used : List String) :
    Prop where
  inUse : List.Forall₂ (fun e name => NameAt view.bytes names e.1.name name) (activeOf done) used
  sections : List.Forall₂ (fun e s => SectionFrom view.bytes names e.1 s) (payloadsOf done)
    c.sections
  mapping : ∀ i j : Nat, c.mapping[i]? = some (some j) →
    (payloadsOf done)[j]?.map Prod.snd = some i
  symbolTable : ∀ i, c.symbolTable = some i → ∃ e ∈ done, e.1.kind = 2 ∧ e.2 = i
  spent : Spent ((used.map nameCost).sum + (c.sections.map sectionCost).sum) b t

variable {names : ElfSectionHeader} {done : List (ElfSectionHeader × Nat)}

variable {c : Collected} {e : ElfSectionHeader × Nat} {used : List String}

/-- An entry that is not in use. -/
theorem Collecting.skip (h : Collecting view names b done c t used) (hkind : e.1.kind = 0) :
    Collecting view names b (done ++ [e]) c t used := by
  have hactive : activeOf (done ++ [e]) = activeOf done := by
    simp [activeOf, hkind]
  have hpayloads : payloadsOf (done ++ [e]) = payloadsOf done := by
    simp [payloadsOf, isPayload, hkind]
  refine ⟨?_, ?_, ?_, ?_, h.spent⟩
  · rw [hactive]
    exact h.inUse
  · rw [hpayloads]
    exact h.sections
  · rw [hpayloads]
    exact h.mapping
  · intro i hi
    obtain ⟨e', he', hkind'⟩ := h.symbolTable i hi
    exact ⟨e', List.mem_append_left _ he', hkind'⟩

/-- An entry in use that becomes no section. -/
theorem Collecting.named {b t u : Budget} (h : Collecting view names b done c t used)
    {name : String} (hkind : e.1.kind ≠ 0) (hpayload : ¬ isPayload e.1)
    (hname : NameAt view.bytes names e.1.name name) (hspent : Spent (nameCost name) t u)
    {symbolTable : Option Nat}
    (htable : ∀ i, symbolTable = some i → ∃ e' ∈ done ++ [e], e'.1.kind = 2 ∧ e'.2 = i) :
    Collecting view names b (done ++ [e]) { c with symbolTable := symbolTable } u
      (used ++ [name]) := by
  have hactive : activeOf (done ++ [e]) = activeOf done ++ [e] := by
    simp [activeOf, hkind]
  have hpayloads : payloadsOf (done ++ [e]) = payloadsOf done := by
    simp [payloadsOf, hpayload]
  refine ⟨?_, ?_, ?_, htable, ?_⟩
  · rw [hactive]
    exact List.rel_append h.inUse (.cons hname .nil)
  · rw [hpayloads]
    exact h.sections
  · rw [hpayloads]
    exact h.mapping
  · rw [List.map_append, List.sum_append, List.map_singleton, List.sum_singleton, add_right_comm]
    exact h.spent.trans hspent

/-- The entries of a mapping lead to the elements that were taken for them, also when the next
element is taken. -/
theorem mapping_set {α : Type} {mapping : List (Option Nat)} {taken : List (α × Nat)} {n : Nat}
    {e : α × Nat} (h : ∀ i j : Nat, mapping[i]? = some (some j) → taken[j]?.map Prod.snd = some i)
    (hn : taken.length = n) (i j : Nat) (hij : (mapping.set e.2 (some n))[i]? = some (some j)) :
    (taken ++ [e])[j]?.map Prod.snd = some i := by
  rw [List.getElem?_set] at hij
  split at hij
  · rename_i hi
    split at hij
    · rw [Option.some.injEq, Option.some.injEq] at hij
      rw [← hij, ← hn, List.getElem?_concat_length, ← hi]
      rfl
    · cases hij
  · obtain ⟨e', he', hi⟩ := Option.map_eq_some_iff.mp (h i j hij)
    rw [List.getElem?_append_left (List.getElem?_eq_some_iff.mp he').1, he', Option.map_some, hi]

theorem Collecting.push {b t u : Budget} (h : Collecting view names b done c t used) {name : String}
    (hpayload : isPayload e.1) (hname : NameAt view.bytes names e.1.name name) {s : Section}
    (hsection : SectionFrom view.bytes names e.1 s)
    (hspent : Spent (nameCost name + sectionCost s) t u) :
    Collecting view names b (done ++ [e])
      { c with
        mapping := c.mapping.set e.2 (some c.sections.length)
        sections := c.sections ++ [s] } u (used ++ [name]) := by
  have hkind : e.1.kind ≠ 0 := by
    rcases hpayload with hkind | hkind <;> omega
  have hactive : activeOf (done ++ [e]) = activeOf done ++ [e] := by
    simp [activeOf, hkind]
  have hpayloads : payloadsOf (done ++ [e]) = payloadsOf done ++ [e] := by
    simp [payloadsOf, hpayload]
  refine ⟨?_, ?_, ?_, ?_, ?_⟩
  · rw [hactive]
    exact List.rel_append h.inUse (.cons hname .nil)
  · rw [hpayloads]
    exact List.rel_append h.sections (.cons hsection .nil)
  · rw [hpayloads]
    exact mapping_set h.mapping h.sections.length_eq
  · intro i hi
    obtain ⟨e', he', hkind'⟩ := h.symbolTable i hi
    exact ⟨e', List.mem_append_left _ he', hkind'⟩
  · have hspent := h.spent.trans hspent
    rw [add_add_add_comm] at hspent
    simp only [List.map_append, List.sum_append, List.map_singleton, List.sum_singleton]
    exact hspent

theorem within_spec {α : Type} {Q : α → Budget → Prop} {x : Reading α}
    (h : Concludes Q Reported x b) (context : ObjectError → ObjectError) :
    Concludes Q Reported (Reading.within context x) b := by
  unfold Concludes Reading.within at *
  cases hrun : x b with
  | ok a t =>
      rw [hrun] at h
      exact h
  | error e t =>
      rw [hrun] at h
      cases e with
      | error e => exact reported_error _
      | panic => exact h

theorem collectSection_spec (hlength : view.bytes.length < wordBound)
    (h : Collecting view names b done c t used) (e : ElfSectionHeader × Nat) :
    Concludes (fun c' u => ∃ used', Collecting view names b (done ++ [e]) c' u used') Reported
      (collectSection view names c e) t := by
  obtain ⟨s, index⟩ := e
  unfold collectSection
  simp only
  by_cases hnull : s.kind = 0
  · rw [if_pos hnull]
    exact Concludes.pure ⟨used, h.skip hnull⟩
  rw [if_neg hnull]
  refine (within_spec (readName_spec hlength names s.name t) _).bind fun name u hname => ?_
  obtain ⟨hname, hspent⟩ := hname
  -- A header that becomes no section leaves everything but the symbol table as it is.
  have hkeep : ¬ isPayload s → Collecting view names b (done ++ [(s, index)]) c u (used ++ [name]) :=
    fun hpayload => h.named (e := (s, index)) hnull hpayload hname hspent fun i hi =>
      (h.symbolTable i hi).imp fun e' he' => ⟨List.mem_append_left _ he'.1, he'.2⟩
  by_cases hpayload : s.kind = 1 ∨ s.kind = 8
  · rw [if_pos hpayload]
    refine (get_spec _ _ u).bind fun kind w hkind => ?_
    obtain ⟨hkind, rfl⟩ := hkind
    refine (check_spec _ w).bind fun _ u hcheck => ?_
    obtain ⟨-, rfl⟩ := hcheck
    refine (readPayload_spec s u).bind fun data w hdata => ?_
    obtain ⟨hzero, hfile, hdata⟩ := hdata
    refine (own_spec name w).bind fun name' x hown => ?_
    obtain ⟨rfl, hown⟩ := hown
    refine Concludes.pure ⟨used ++ [name'], h.push (e := (s, index)) hpayload hname ?_ ?_⟩
    · refine ⟨hkind, hname, fun hne => ?_, fun heq => ⟨hzero heq, ?_⟩, rfl⟩
      · obtain ⟨hinside, hslice⟩ := hfile hne
        exact ⟨hinside, hslice, if_neg hne⟩
      · exact if_pos heq
    · exact hspent.trans (hdata.trans hown)
  rw [if_neg hpayload]
  by_cases hsymtab : s.kind = 2
  · rw [if_pos hsymtab]
    refine (check_spec _ u).bind fun _ w hcheck => ?_
    obtain ⟨-, rfl⟩ := hcheck
    refine Concludes.pure ⟨used ++ [name],
      h.named (e := (s, index)) hnull hpayload hname hspent fun i hi => ?_⟩
    cases hi
    exact ⟨(s, index), List.mem_append_right _ List.mem_cons_self, hsymtab, rfl⟩
  rw [if_neg hsymtab]
  by_cases hstrings : s.kind = 3
  · rw [if_pos hstrings]
    refine (check_spec _ u).bind fun _ w hcheck => ?_
    obtain ⟨-, rfl⟩ := hcheck
    refine (range_spec _ _ w).bind fun bs u hrange => ?_
    obtain ⟨-, -, rfl⟩ := hrange
    refine (check_spec _ u).bind fun _ w hcheck => ?_
    obtain ⟨-, rfl⟩ := hcheck
    exact Concludes.pure ⟨_, hkeep hpayload⟩
  rw [if_neg hstrings]
  by_cases hrela : s.kind = 4
  · rw [if_pos hrela]
    refine (check_spec _ u).bind fun _ w hcheck => ?_
    obtain ⟨-, rfl⟩ := hcheck
    exact Concludes.pure ⟨_, hkeep hpayload⟩
  · rw [if_neg hrela]
    exact fail_spec _ u

theorem collectSections_spec (hlength : view.bytes.length < wordBound) (names : ElfSectionHeader)
    (entries : List (ElfSectionHeader × Nat)) (n : Nat) (b : Budget) :
    Concludes (fun c t => ∃ used, Collecting view names b entries c t used) Reported
      (entries.foldlM (collectSection view names) ⟨[], List.replicate n none, none⟩) b := by
  refine Concludes.foldlM (I := fun done c t => ∃ used, Collecting view names b done c t used) ?_ ?_
  · refine ⟨[], .nil, .nil, fun i j hij => ?_, nofun, Spent.refl b⟩
    rw [List.getElem?_replicate] at hij
    split at hij <;> cases hij
  · rintro done e rest c t - ⟨used, h⟩
    exact collectSection_spec hlength h e

/-! ## Symbol records -/

theorem recordAt_eq (hlength : view.bytes.length < wordBound) {table : ElfSectionHeader} {n : Nat}
    (h : RecordInside view.bytes table n) : recordAt table n = .ok (table.offset + n * 24) := by
  obtain ⟨hle, hinside⟩ := h
  unfold Inside at hinside
  have hoffset : n * 24 < wordBound := by omega
  have hpos : table.offset + n * 24 < wordBound := by omega
  unfold recordAt times plus
  rw [orThrow_ok_iff.mpr (checkedMul_eq_some.mpr ⟨rfl, hoffset⟩), ok_bind]
  exact orThrow_ok_iff.mpr (checkedAdd_eq_some.mpr ⟨rfl, hpos⟩)

theorem field_eq (hlength : view.bytes.length < wordBound) {pos k n : Nat}
    (h : pos + k + n ≤ view.bytes.length) :
    (plus pos k >>= view.number n) = .ok (field view.bytes (pos + k) n) := by
  have hplus : pos + k ≤ view.bytes.length := by omega
  rw [ElfView.plus_eq hlength hplus, ok_bind, ElfView.number_eq hlength h]
  rfl

theorem readRaw_spec (hlength : view.bytes.length < wordBound) {symtab : ElfSectionHeader}
    (strings : ElfSectionHeader) {index : Nat} (hinside : RecordInside view.bytes symtab index)
    (b : Budget) :
    Concludes (fun r t => RecordFrom view.bytes symtab strings index r ∧ Spent (recordCost r) b t)
      Reported (readRaw view symtab strings index) b := by
  have hpos : symtab.offset + index * 24 + 24 ≤ view.bytes.length := by
    obtain ⟨hle, hinside⟩ := hinside
    unfold Inside at hinside
    omega
  unfold readRaw
  refine (charge_spec 1 b).bind fun _ t hcharge => ?_
  refine (view_ok (recordAt_eq hlength hinside) t).bind fun pos u h => ?_
  obtain ⟨rfl, rfl⟩ := h
  have hrecord : Concludes (fun r w => RecordFrom view.bytes symtab strings index r ∧
      Spent (nameCost r.name) u w) Reported
      (readRecord view strings (symtab.offset + index * 24)) u := by
    unfold readRecord
    have hfirst : view.u32 (symtab.offset + index * 24) =
        .ok (field view.bytes (symtab.offset + index * 24) 4) :=
      ElfView.number_eq hlength (by omega)
    refine (view_ok hfirst u).bind fun offset w h => ?_
    obtain ⟨rfl, rfl⟩ := h
    refine (readName_spec hlength strings _ w).bind fun name u hname => ?_
    have hinfo : (plus (symtab.offset + index * 24) 4 >>= view.number 2) =
        .ok (field view.bytes (symtab.offset + index * 24 + 4) 2) := field_eq hlength (by omega)
    refine (view_ok hinfo u).bind fun info w h => ?_
    obtain ⟨rfl, rfl⟩ := h
    have hsection : (plus (symtab.offset + index * 24) 6 >>= view.number 2) =
        .ok (field view.bytes (symtab.offset + index * 24 + 6) 2) := field_eq hlength (by omega)
    refine (view_ok hsection w).bind fun owner u h => ?_
    obtain ⟨rfl, rfl⟩ := h
    have hvalue : (plus (symtab.offset + index * 24) 8 >>= view.number 8) =
        .ok (field view.bytes (symtab.offset + index * 24 + 8) 8) := field_eq hlength (by omega)
    refine (view_ok hvalue u).bind fun value w h => ?_
    obtain ⟨rfl, rfl⟩ := h
    have hsize : (plus (symtab.offset + index * 24) 16 >>= view.number 8) =
        .ok (field view.bytes (symtab.offset + index * 24 + 16) 8) := field_eq hlength hpos
    refine (view_ok hsize w).bind fun size u h => ?_
    obtain ⟨rfl, rfl⟩ := h
    exact Concludes.pure ⟨⟨hinside, hname.1, rfl, rfl, rfl, rfl, rfl, rfl⟩, hname.2⟩
  refine hrecord.bind fun r w h => ?_
  have hspent : Spent (recordCost r) b w := hcharge.1.trans h.2
  split
  · refine (range_spec _ _ w).bind fun bs x hrange => ?_
    obtain ⟨-, -, rfl⟩ := hrange
    refine (check_spec _ x).bind fun _ y hcheck => ?_
    obtain ⟨-, rfl⟩ := hcheck
    exact Concludes.pure ⟨h.1, hspent⟩
  · refine (check_spec _ w).bind fun _ x hcheck => ?_
    obtain ⟨-, rfl⟩ := hcheck
    exact Concludes.pure ⟨h.1, hspent⟩

theorem readRaws_spec (hlength : view.bytes.length < wordBound) {symtab : ElfSectionHeader}
    (strings : ElfSectionHeader) (hinside : Inside view.bytes symtab) (b : Budget) :
    Concludes (fun raw t => List.Forall₂ (fun k r => RecordFrom view.bytes symtab strings k r)
        (List.range (symtab.size / 24)) raw ∧ Spent (raw.map recordCost).sum b t)
      Reported ((List.range (symtab.size / 24)).mapM (readRaw view symtab strings)) b := by
  refine Concludes.mapM (I := fun done raw t =>
    List.Forall₂ (fun k r => RecordFrom view.bytes symtab strings k r) done raw ∧
      Spent (raw.map recordCost).sum b t) ⟨.nil, Spent.refl b⟩ ?_
  intro done index rest raw t hsplit h
  have hindex : index < symtab.size / 24 := by
    refine List.mem_range.mp ?_
    rw [hsplit]
    exact List.mem_append_right _ List.mem_cons_self
  have hrecord : RecordInside view.bytes symtab index := ⟨by omega, hinside⟩
  refine (readRaw_spec hlength strings hrecord t).mono fun r u hr => ?_
  refine ⟨List.rel_append h.1 (.cons hr.1 .nil), ?_⟩
  rw [List.map_append, List.sum_append, List.map_singleton, List.sum_singleton]
  exact h.2.trans hr.2

end

end Whale.Elf
