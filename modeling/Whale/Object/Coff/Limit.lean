import Whale.Object.Coff.Correct

set_option autoImplicit false

/-! # Output limits of COFF objects

A smaller limit keeps the plans whose files fit, and no others: the early estimate counts ten
bytes for each symbol and each relocation, and a file has more (`planFile_restricts`). The string
table remembers its limit, so the plans differ there. -/

namespace Whale.Coff

/-! ## Names -/

namespace Strings

/-- The same strings under another limit. -/
def within (limit : Nat) (s : Strings) : Strings := { s with limit := limit }

variable {s : Strings}

theorem add_restricts {small : Nat} (h : small ≤ s.limit) (name : String) :
    Restricts (s.bytes.length ≤ small) (fun r => (r.1, r.2.within small))
      (fun r => r.2.bytes.length ≤ small) ((s.within small).add name) (s.add name) := by
  unfold add
  refine Restricts.check.bind fun _ _ => ?_
  simp only [within]
  cases s.positions.get name with
  | some position => exact Restricts.ok (b := (position, s)) Iff.rfl
  | none =>
      refine Restricts.check.bind fun stop hstop => ?_
      refine (Restricts.require (c := stop ≤ small ∧ stop < 2 ^ 32)
        fun hle => ⟨Nat.le_trans hle.1 h, hle.2⟩).bind fun _ hbound => ?_
      obtain ⟨hsum, -⟩ := checkedAdd_eq_some.mp (orThrow_ok_iff.mp hstop)
      have hlength : s.bytes.length + ((asBytes name).length + 1) = stop := hsum
      obtain ⟨-, hword⟩ := require_ok_iff.mp hbound
      refine Restricts.ok (b := (s.bytes.length, { s with
        bytes := s.bytes ++ asBytes name ++ [0]
        positions := s.positions.insert name s.bytes.length })) ?_
      simp only [List.length_append, List.length_singleton]
      omega

theorem name_restricts {small : Nat} (h : small ≤ s.limit) (name : String) (section' : Bool) :
    Restricts (s.bytes.length ≤ small) (fun r => (r.1, r.2.within small))
      (fun r => r.2.bytes.length ≤ small) ((s.within small).name name section')
      (s.name name section') := by
  unfold Strings.name
  refine Restricts.check.bind fun _ _ => ?_
  by_cases hshort : (asBytes name).length ≤ 8 ∧
      ¬ (section' = true ∧ name.toList.head? = some '/')
  · rw [if_pos hshort, if_pos hshort]
    exact Restricts.ok (b := (patch (List.replicate 8 0) 0 (asBytes name), s)) Iff.rfl
  · rw [if_neg hshort, if_neg hshort]
    refine (add_restricts h name).bind fun added _ => ?_
    cases section' with
    | false =>
        exact Restricts.ok
          (b := (patch (List.replicate 8 0) 4 (leBytes 4 added.1), added.2)) Iff.rfl
    | true =>
        refine Restricts.check.bind fun _ _ => ?_
        exact Restricts.ok
          (b := (patch (List.replicate 8 0) 0 (0x2f :: decimal added.1), added.2)) Iff.rfl

/-- The table only grows, and its limit stays. -/
def Extends (s s' : Strings) : Prop := s'.limit = s.limit ∧ s.bytes.length ≤ s'.bytes.length

theorem Extends.trans {s s' s'' : Strings} (h : s.Extends s') (h' : s'.Extends s'') :
    s.Extends s'' := ⟨h'.1.trans h.1, Nat.le_trans h.2 h'.2⟩

theorem add_extends {s s' : Strings} {name : String} {position : Nat}
    (h : s.add name = .ok (position, s')) : s.Extends s' := by
  obtain ⟨_, -, h₁⟩ := bind_ok_iff.mp h
  cases hget : s.positions.get name with
  | some found =>
      rw [hget] at h₁
      cases h₁
      exact ⟨rfl, Nat.le_refl _⟩
  | none =>
      rw [hget] at h₁
      obtain ⟨_, -, h₂⟩ := bind_ok_iff.mp h₁
      obtain ⟨_, -, h₃⟩ := bind_ok_iff.mp h₂
      cases h₃
      refine ⟨rfl, ?_⟩
      simp only [List.length_append]
      omega

theorem name_extends {name : String} {section' : Bool} {r : List UInt8 × Strings}
    (h : s.name name section' = .ok r) : s.Extends r.2 := by
  obtain ⟨_, -, h₁⟩ := bind_ok_iff.mp h
  by_cases hshort : (asBytes name).length ≤ 8 ∧
      ¬ (section' = true ∧ name.toList.head? = some '/')
  · rw [if_pos hshort] at h₁
    cases h₁
    exact ⟨rfl, Nat.le_refl _⟩
  · rw [if_neg hshort] at h₁
    obtain ⟨⟨position, t⟩, hadd, h₂⟩ := bind_ok_iff.mp h₁
    have hextends := add_extends hadd
    cases section' with
    | false =>
        cases h₂
        exact hextends
    | true =>
        obtain ⟨_, -, h₃⟩ := bind_ok_iff.mp h₂
        cases h₃
        exact hextends

end Strings

/-! ## Sections -/

variable {strings : Strings} {t : SymbolTable}

section

variable {small large : Nat}

theorem grow_restricts (h : small ≤ large) {floor : Prop} (cursor bytes : Nat) :
    Restricts floor id (fun stop => floor ∧ stop ≤ small) (grow cursor bytes small)
      (grow cursor bytes large) := by
  unfold grow
  refine (Restricts.limit h).bind fun stop _ => Restricts.same fun stop' hstop => ?_
  obtain ⟨rfl, -⟩ := number_ok hstop
  exact Iff.rfl

theorem planData_restricts (h : small ≤ large) (s : Section) (cursor : Nat) :
    Restricts (cursor ≤ small) id (fun r => r.2 ≤ small) (planData s cursor small)
      (planData s cursor large) := by
  unfold planData
  by_cases hno : s.kind = .bss ∨ s.data = []
  · rw [if_pos hno, if_pos hno]
    exact Restricts.ok Iff.rfl
  · rw [if_neg hno, if_neg hno]
    refine (grow_restricts h _ _).bind fun start hstart => ?_
    refine (grow_restricts h _ _).bind fun stop hstop => ?_
    obtain ⟨hstartEq, -⟩ := grow_ok hstart
    obtain ⟨hstopEq, -⟩ := grow_ok hstop
    refine Restricts.ok (b := (start, stop)) ?_
    dsimp only [id] at hstopEq ⊢
    omega

theorem planRelocations_restricts (h : small ≤ large) (count cursor : Nat) :
    Restricts (cursor ≤ small) id (fun r => r.2 ≤ small) (planRelocations count cursor small)
      (planRelocations count cursor large) := by
  unfold planRelocations
  by_cases hzero : count = 0
  · rw [if_pos hzero, if_pos hzero]
    exact Restricts.ok Iff.rfl
  · rw [if_neg hzero, if_neg hzero]
    refine (grow_restricts h cursor _).bind fun stop hstop => ?_
    obtain ⟨hstopEq, -⟩ := grow_ok hstop
    refine Restricts.ok (b := (cursor, stop)) ?_
    dsimp only [id]
    omega

/-- The plan of a section under another limit. -/
def SectionPlan.within (limit : Nat) (p : SectionPlan) : SectionPlan :=
  { p with strings := p.strings.within limit }

variable {cursor : Nat}

theorem plan_restricts (h : small ≤ large) (s : Section) (count : Nat)
    (hlimit : strings.limit = large) (hcursor : cursor < 2 ^ 32) :
    Restricts (cursor ≤ small ∧ strings.bytes.length ≤ small) (SectionPlan.within small)
      (fun p => p.cursor ≤ small ∧ p.strings.bytes.length ≤ small)
      (plan s count (strings.within small) cursor small) (plan s count strings cursor large) := by
  unfold plan
  refine Restricts.check.bind fun _ _ => ?_
  refine ((planData_restricts h s cursor).frame And.left).bind fun data hdata => ?_
  refine ((Strings.name_restricts (by omega) s.name true).frame fun hf => hf.1.2).bind
    fun name hname => ?_
  have hextends := Strings.name_extends hname
  refine ((Strings.name_restricts (by rw [hextends.1]; omega) s.name false).frame
    fun hf => hf.2).bind fun symbolName hsymbolName => ?_
  have hextends' := Strings.name_extends hsymbolName
  refine ((planRelocations_restricts h count data.2).frame fun hf => hf.1.1.2).bind
    fun relocation hrelocation => ?_
  refine Restricts.check.bind fun size _ => ?_
  refine Restricts.check.bind fun _ _ => ?_
  refine Restricts.check.bind fun flags _ => ?_
  obtain ⟨hdataLe, hdataBound, -⟩ := planData_ok hdata hcursor
  obtain ⟨hrelocationLe, -⟩ := planRelocations_ok hrelocation hdataBound
  have hle := hextends.2
  have hle' := hextends'.2
  refine Restricts.ok (b := ({
    layout :=
      { name := name.1, symbolName := symbolName.1, data := data.1, relocation := relocation.1
        size := size, flags := flags }
    strings := symbolName.2
    cursor := relocation.2 } : SectionPlan)) ?_
  dsimp only [id]
  omega

theorem plan_extends {s : Section} {count cursor limit : Nat} {p : SectionPlan}
    (h : plan s count strings cursor limit = .ok p) : strings.Extends p.strings := by
  obtain ⟨_, -, h₁⟩ := bind_ok_iff.mp h
  obtain ⟨data, -, h₂⟩ := bind_ok_iff.mp h₁
  obtain ⟨name, hname, h₃⟩ := bind_ok_iff.mp h₂
  obtain ⟨symbolName, hsymbolName, h₄⟩ := bind_ok_iff.mp h₃
  obtain ⟨_, -, h₅⟩ := bind_ok_iff.mp h₄
  obtain ⟨_, -, h₆⟩ := bind_ok_iff.mp h₅
  obtain ⟨_, -, h₇⟩ := bind_ok_iff.mp h₆
  obtain ⟨_, -, h₈⟩ := bind_ok_iff.mp h₇
  cases h₈
  exact (Strings.name_extends hname).trans (Strings.name_extends hsymbolName)

/-- The plans of the sections under another limit. -/
def SectionPlans.within (limit : Nat) (p : SectionPlans) : SectionPlans :=
  { p with strings := p.strings.within limit }

theorem planSections_restricts (h : small ≤ large) (es : List (Section × List ObjectRelocation))
    (hstrings : strings.Inv) (hlimit : strings.limit = large) (hcursor : cursor < 2 ^ 32) :
    Restricts (cursor ≤ small ∧ strings.bytes.length ≤ small) (SectionPlans.within small)
      (fun p => p.cursor ≤ small ∧ p.strings.bytes.length ≤ small)
      (planSections small es (strings.within small) cursor)
      (planSections large es strings cursor) := by
  induction es generalizing strings cursor with
  | nil =>
      exact Restricts.ok (b := ({ layouts := [], strings := strings, cursor := cursor } :
        SectionPlans)) Iff.rfl
  | cons e es ih =>
      unfold planSections
      refine (plan_restricts h e.1 e.2.length hlimit hcursor).bind fun p hp => ?_
      obtain ⟨hinv, -, hbound, -⟩ := plan_ok hp hstrings hcursor
      refine (ih hinv ?_ hbound).bind fun rest _ => ?_
      · exact (plan_extends hp).1.trans hlimit
      exact Restricts.ok (b := ({ rest with layouts := p.layout :: rest.layouts } : SectionPlans))
        Iff.rfl

theorem planSections_extends {limit : Nat} {es : List (Section × List ObjectRelocation)}
    {p : SectionPlans} (h : planSections limit es strings cursor = .ok p) :
    strings.Extends p.strings := by
  induction es generalizing strings cursor p with
  | nil =>
      cases h
      exact ⟨rfl, Nat.le_refl _⟩
  | cons e es ih =>
      obtain ⟨q, hplan, h₁⟩ := bind_ok_iff.mp h
      obtain ⟨rest, hrest, h₂⟩ := bind_ok_iff.mp h₁
      cases h₂
      show strings.Extends rest.strings
      exact (plan_extends hplan).trans (ih hrest)

/-! ## Symbols -/

/-- The table under another limit. -/
def SymbolTable.within (limit : Nat) (t : SymbolTable) : SymbolTable :=
  { t with strings := t.strings.within limit }

theorem push_restricts (h : small ≤ t.strings.limit) (symbol : ObjectSymbol) :
    Restricts (t.strings.bytes.length ≤ small) (SymbolTable.within small)
      (fun t' => t'.strings.bytes.length ≤ small) ((t.within small).push symbol)
      (t.push symbol) := by
  unfold SymbolTable.push
  refine (Strings.name_restricts h symbol.name false).bind fun name _ => ?_
  refine Restricts.check.bind fun bytes _ => ?_
  refine Restricts.check.bind fun count _ => ?_
  exact Restricts.ok (b := ({
    strings := name.2
    records := t.records ++ [bytes]
    indices := t.indices.insert symbol.name t.count
    count := count } : SymbolTable)) Iff.rfl

theorem pushUndefined_restricts (h : small ≤ t.strings.limit) (r : ObjectRelocation) :
    Restricts (t.strings.bytes.length ≤ small) (SymbolTable.within small)
      (fun t' => t'.strings.bytes.length ≤ small) ((t.within small).pushUndefined r)
      (t.pushUndefined r) := by
  unfold SymbolTable.pushUndefined
  simp only [SymbolTable.within]
  cases t.indices.get r.symbol with
  | some _ => exact Restricts.ok (b := t) Iff.rfl
  | none =>
      refine Restricts.check.bind fun count _ => ?_
      refine (Strings.name_restricts h r.symbol false).bind fun name _ => ?_
      refine Restricts.check.bind fun bytes _ => ?_
      exact Restricts.ok (b := ({
        strings := name.2
        records := t.records ++ [bytes]
        indices := t.indices.insert r.symbol t.count
        count := count } : SymbolTable)) Iff.rfl

theorem push_extends {t t' : SymbolTable} {symbol : ObjectSymbol}
    (h : t.push symbol = .ok t') : t.strings.Extends t'.strings := by
  obtain ⟨name, hname, h₁⟩ := bind_ok_iff.mp h
  obtain ⟨_, -, h₂⟩ := bind_ok_iff.mp h₁
  obtain ⟨_, -, h₃⟩ := bind_ok_iff.mp h₂
  cases h₃
  exact Strings.name_extends hname

theorem pushUndefined_extends {t t' : SymbolTable} {r : ObjectRelocation}
    (h : t.pushUndefined r = .ok t') : t.strings.Extends t'.strings := by
  unfold SymbolTable.pushUndefined at h
  cases hget : t.indices.get r.symbol with
  | some _ =>
      rw [hget] at h
      cases h
      exact ⟨rfl, Nat.le_refl _⟩
  | none =>
      rw [hget] at h
      obtain ⟨_, -, h₁⟩ := bind_ok_iff.mp h
      obtain ⟨name, hname, h₂⟩ := bind_ok_iff.mp h₁
      obtain ⟨_, -, h₃⟩ := bind_ok_iff.mp h₂
      cases h₃
      exact Strings.name_extends hname

theorem planSymbols_restricts (h : small ≤ large) (o : ObjectFile) (hlimit : strings.limit = large)
    :
    Restricts (strings.bytes.length ≤ small) (SymbolTable.within small)
      (fun t => t.strings.bytes.length ≤ small) (planSymbols o (strings.within small))
      (planSymbols o strings) := by
  unfold planSymbols
  refine Restricts.check.bind fun count _ => ?_
  have hpush := Restricts.foldlM (I := fun t : SymbolTable => small ≤ t.strings.limit)
    (fun t symbol ht => push_restricts ht symbol)
    (fun t symbol t' ht ht' => by rw [(push_extends ht').1]; exact ht) o.symbols
    (b := { strings := strings, records := [], indices := [], count := count })
    (by rw [hlimit]; exact h)
  refine hpush.bind fun t ht => ?_
  have hroom : small ≤ t.strings.limit := by
    refine foldlM_inv (P := fun t : SymbolTable => small ≤ t.strings.limit)
      (fun t symbol t' ht ht' => by rw [(push_extends ht').1]; exact ht) ?_ ht
    rw [hlimit]
    exact h
  exact Restricts.foldlM (I := fun t : SymbolTable => small ≤ t.strings.limit)
    (fun t r ht => pushUndefined_restricts ht r)
    (fun t r t' ht ht' => by rw [(pushUndefined_extends ht').1]; exact ht) o.relocations hroom

end

/-! ## The estimate -/

/-- Every relocation has ten bytes. -/
theorem PlannedAll.relocations {es : List (Section × List ObjectRelocation)}
    {ls : List SectionLayout} {lo hi : Nat} (h : PlannedAll strings es ls lo hi) :
    lo + (es.map fun e => e.2.length).sum * 10 ≤ hi := by
  induction es generalizing ls lo with
  | nil =>
      cases ls with
      | nil =>
          have hle : lo ≤ hi := h
          simpa using hle
      | cons l ls => exact h.elim
  | cons e es ih =>
      cases ls with
      | nil => exact h.elim
      | cons l ls =>
          obtain ⟨mid, hplanned, hall⟩ := h
          have hrest := ih hall
          have horder := hplanned.order
          rw [List.map_cons, List.sum_cons]
          by_cases hzero : e.2.length = 0
          · omega
          · have hroom := hplanned.relocation hzero
            omega

theorem sum_grouped {o : ObjectFile} (h : o.Valid) :
    ((grouped o).map fun e => e.2.length).sum = o.relocations.length := by
  have hbound : ∀ r ∈ o.relocations, r.sectionIndex < o.sections.length := fun r hr => by
    obtain ⟨-, s, hs, -⟩ := h.relocations r hr
    exact (List.getElem?_eq_some_iff.mp hs).1
  rw [← sum_length_filter hbound]
  unfold grouped
  rw [List.map_map, List.range_eq_range', ← List.zipIdx_map_snd, List.map_map]
  rfl

/-- Every record has an index of its own. -/
theorem add_length_le_recordsEnd {records : List (List UInt8)} (first : Nat)
    (h : ∀ r ∈ records, 18 ≤ r.length) : first + records.length ≤ recordsEnd first records := by
  induction records generalizing first with
  | nil => exact Nat.le_refl _
  | cons r records ih =>
      obtain ⟨hfirst, hrest⟩ := List.forall_mem_cons.mp h
      have hle := ih (first + r.length / 18) hrest
      show first + (records.length + 1) ≤ recordsEnd (first + r.length / 18) records
      omega

/-- The file has more than ten bytes for each symbol and each relocation. -/
theorem FilePlan.Spec.estimate {o : ObjectFile} {p : FilePlan} (h : p.Spec o) :
    24 ≤ p.stop ∧ (o.symbols.length + o.relocations.length) * 10 ≤ p.stop := by
  obtain ⟨strings, -, hplanned⟩ := h.planned
  have hrelocations := hplanned.relocations
  rw [sum_grouped h.valid] at hrelocations
  have hentries := h.table.entries _ (List.prefix_refl _)
  have hcount := @add_length_le_recordsEnd p.table.records (o.sections.length * 2) fun r hr => by
    obtain ⟨s, -, hs⟩ := exists_of_forall₂ hentries hr
    rw [hs.length]
    omega
  rw [← h.table.count, hentries.length_eq] at hcount
  have hsymbols : o.symbols.length ≤ (outputSymbols o).length := by
    unfold outputSymbols
    rw [List.length_append]
    omega
  have hfinish := Strings.length_finish h.table.strings
  have hsize := h.table.strings.size
  have hat := h.stringAt
  have hstop := h.stop
  omega

theorem planSymbols_extends {o : ObjectFile} (h : planSymbols o strings = .ok t) :
    strings.Extends t.strings := by
  obtain ⟨count, -, h₁⟩ := bind_ok_iff.mp h
  obtain ⟨u, hpush, h₂⟩ := bind_ok_iff.mp h₁
  have hfirst : strings.Extends u.strings :=
    foldlM_inv (P := fun b : SymbolTable => strings.Extends b.strings)
      (fun b s b' hb hb' => hb.trans (push_extends hb')) ⟨rfl, Nat.le_refl _⟩ hpush
  exact foldlM_inv (P := fun b : SymbolTable => strings.Extends b.strings)
    (fun b r b' hb hb' => hb.trans (pushUndefined_extends hb')) hfirst h₂

/-- The plan of a file under another limit; emission does not see the difference. -/
def FilePlan.within (limit : Nat) (p : FilePlan) : FilePlan :=
  { p with table := p.table.within limit }

theorem emitFile_within (o : ObjectFile) (p : FilePlan) (limit : Nat) :
    emitFile o (p.within limit) = emitFile o p := rfl

/-- With less room the plans remain whose files fit. -/
theorem planFile_restricts {small large : Nat} (h : small ≤ large) (o : ObjectFile) :
    Restricts True (FilePlan.within small) (fun p => p.stop ≤ small) (planFile o small)
      (planFile o large) := by
  have hall : Restricts True (FilePlan.within small)
      (fun p => 24 ≤ small ∧ (o.symbols.length + o.relocations.length) * 10 ≤ small ∧
        p.stop ≤ small) (planFile o small) (planFile o large) := by
    unfold planFile
    -- Each step of the plan restricts to the smaller limit what it does under the larger.
    refine Restricts.check.bind fun _ hvalidate => ?_
    refine Restricts.check.bind fun _ _ => ?_
    refine Restricts.check.bind fun _ hsections => ?_
    have hleast : Restricts True id (fun _ => 24 ≤ small) (discard (grow 0 24 small))
        (discard (grow 0 24 large)) := by
      refine (grow_restricts h 0 24).bind fun n hn => Restricts.ok (b := ()) ?_
      obtain ⟨hnEq, -⟩ := grow_ok hn
      rw [hnEq, Nat.zero_add, true_and]
    refine hleast.bind fun _ _ => ?_
    refine (Restricts.require fun hle => Nat.le_trans hle (Nat.div_le_div_right h)).bind
      fun _ _ => ?_
    refine (grow_restricts h 20 _).bind fun start hstart => ?_
    refine Restricts.check.bind fun occupied _ => ?_
    refine Restricts.check.bind fun _ _ => ?_
    have hvalid := ObjectFile.validate_valid hvalidate
    have hfew := require_ok_iff.mp hsections
    obtain ⟨hstartEq, -, hstartBound⟩ := grow_ok hstart
    refine ((planSections_restricts h (grouped o) (Strings.inv_new large) rfl hstartBound).frame
      fun hf => ⟨hf.2, ?_⟩).bind fun plans hplans => ?_
    · have hleast := hf.1.1
      show (List.replicate 4 (0 : UInt8)).length ≤ small
      rw [List.length_replicate]
      omega
    obtain ⟨hstrings, -, -, hplanned⟩ :=
      planSections_ok hplans (Strings.inv_new large) hstartBound
    refine ((planSymbols_restricts h o (planSections_extends hplans).1).frame
      fun hf => hf.2.2).bind fun t ht => ?_
    have hinv := planSymbols_spec hstrings (fun s hs i hi =>
      Nat.lt_of_lt_of_le (hvalid.symbols s hs i hi) hfew) ht
    have hfinish := Strings.length_finish hinv.strings
    have hgrown := (planSymbols_extends ht).2
    have hcursor := hplanned.le
    refine (grow_restricts h plans.cursor _).bind fun stringAt hat => ?_
    refine (grow_restricts h stringAt _).bind fun stop hstop => ?_
    have hatEq : stringAt = plans.cursor + t.count * 18 := (grow_ok hat).1
    have hstopEq : stop = stringAt + t.strings.finish.length := (grow_ok hstop).1
    refine Restricts.ok (b := ({
      layouts := plans.layouts
      cursor := plans.cursor
      table := t
      stringAt := stringAt
      stop := stop } : FilePlan)) ?_
    rw [Nat.le_div_iff_mul_le (by decide)]
    dsimp only [id]
    omega
  refine hall.congr fun p hp => ?_
  obtain ⟨hleast, hestimate⟩ := (planFile_spec hp).estimate
  omega

/-- An object is written with a limit when it is written with every greater one and its file
fits. -/
theorem write_limit (o : ObjectFile) {limit : UInt64} (hlimit : limit.toNat ≤ 2 ^ 32 - 1)
    (bytes : List UInt8) : write o limit = .ok bytes ↔
      write o 0xffffffff = .ok bytes ∧ bytes.length ≤ limit.toNat := by
  have hplan : Restricts True id (fun bytes => bytes.length ≤ limit.toNat)
      (planFile o limit.toNat >>= emitFile o) (planFile o (2 ^ 32 - 1) >>= emitFile o) := by
    refine (planFile_restricts hlimit o).bind fun p hp => ?_
    rw [emitFile_within]
    refine Restricts.same fun bytes hbytes => ?_
    obtain ⟨_, -, hholds⟩ := emitFile_ok (planFile_spec hp) hbytes
    rw [hholds.length]
  rw [write_eq, write_eq, Nat.min_eq_left hlimit]
  exact hplan.ok_iff

end Whale.Coff
