import Whale.Assembler.AArch64

set_option autoImplicit false

/-! # The two passes agree

The first pass counts the bytes of the records, the second one makes them. Both count alike:
every record is emitted at its offset, and every label is where the bytes before it end. -/

namespace Whale.Assembler

variable {sections : List AsmSection} {limits : AssemblyLimits} {a b : Nat} {l : Layout}
  {sourceName : String} {isa : FixedIsa}

namespace Layout

/-! ## Sizes -/

/-- The bytes of a record. -/
def recordSize (r : Record) : Nat := actionSize r.offset r.action

/-- The bytes of the records of a section. -/
def sizeIn (records : List Record) (i : Nat) : Nat :=
  ((records.filter fun r => r.sectionIndex = i).map recordSize).sum

/-- The kind of a section. -/
def kindAt (sections : List AsmSection) (i : Nat) : AsmSectionKind :=
  (sections[i]?.map AsmSection.kind).getD .text

/-- The bytes of the records that are emitted. -/
def emittedSize (sections : List AsmSection) (records : List Record) : Nat :=
  ((records.filter fun r => kindAt sections r.sectionIndex ≠ .bss).map recordSize).sum

theorem sizeIn_append (before after : List Record) (i : Nat) :
    sizeIn (before ++ after) i = sizeIn before i + sizeIn after i := by
  unfold sizeIn
  rw [List.filter_append, List.map_append, List.sum_append]

theorem sizeIn_singleton (r : Record) (i : Nat) :
    sizeIn [r] i = if r.sectionIndex = i then recordSize r else 0 := by
  unfold sizeIn
  by_cases h : r.sectionIndex = i <;> simp [h]

theorem emittedSize_append (sections : List AsmSection) (before after : List Record) :
    emittedSize sections (before ++ after) =
      emittedSize sections before + emittedSize sections after := by
  unfold emittedSize
  rw [List.filter_append, List.map_append, List.sum_append]

theorem emittedSize_singleton (sections : List AsmSection) (r : Record) :
    emittedSize sections [r] = if kindAt sections r.sectionIndex = .bss then 0 else recordSize r := by
  unfold emittedSize
  by_cases h : kindAt sections r.sectionIndex = .bss <;> simp [h]

theorem emittedSize_congr {sections sections' : List AsmSection} {records : List Record}
    (h : ∀ r ∈ records, kindAt sections r.sectionIndex = kindAt sections' r.sectionIndex) :
    emittedSize sections records = emittedSize sections' records := by
  unfold emittedSize
  rw [List.filter_congr fun r hr => by rw [h r hr]]

/-! ## The first pass -/

/-- A label in a section is where the records on the lines before it end. -/
def LabelAt (records : List Record) (i : Nat) (symbol : Symbol) : Prop :=
  ∃ before after, records = before ++ after ∧ (∀ r ∈ before, r.span.line < symbol.span.line) ∧
    (∀ r ∈ after, symbol.span.line ≤ r.span.line) ∧ symbol.offset = sizeIn before i

def byteLimit (limits : AssemblyLimits) : Nat := min limits.maxOutputBytes (256 * 1024 * 1024)

/-- What the first pass keeps when it is done with the line `recordLine`, and with the labels of
the line `labelLine`. -/
structure Placed (limits : AssemblyLimits) (recordLine labelLine : Nat) (l : Layout) : Prop where
  length : l.sizes.length = l.sections.length
  selected : l.selected < l.sections.length
  named : ∀ e ∈ l.sectionNames, e.2 < l.sections.length
  size : ∀ i, l.sizes.getD i 0 = sizeIn l.records i
  sectionIndex : ∀ r ∈ l.records, r.sectionIndex < l.sections.length
  offset : ∀ before r after, l.records = before ++ r :: after →
    r.offset = sizeIn before r.sectionIndex
  line : ∀ r ∈ l.records, r.span.line ≤ recordLine
  label : ∀ e ∈ l.symbols, ∀ i, e.2.sectionIndex = some i →
    i < l.sections.length ∧ e.2.span.line ≤ labelLine ∧ LabelAt l.records i e.2
  blank : ∀ s ∈ l.sections, s.data = [] ∧ s.zeroFill = 0
  materialized : l.materialized = emittedSize l.sections l.records
  bounded : l.materialized ≤ byteLimit limits

theorem placed_start (limits : AssemblyLimits) : Placed limits 0 1 start where
  length := rfl
  selected := by decide
  named e he := by
    obtain rfl := List.mem_singleton.mp he
    decide
  size i := by
    cases i with
    | zero => rfl
    | succ i => rfl
  sectionIndex := nofun
  offset before r after h := by
    cases before <;> cases h
  line := nofun
  label := nofun
  blank s hs := by
    obtain rfl := List.mem_singleton.mp hs
    exact ⟨rfl, rfl⟩
  materialized := rfl
  bounded := Nat.zero_le _

theorem Placed.mono {a b b' : Nat} (h : Placed limits a b l) (hb : b ≤ b') : Placed limits a b' l :=
  { h with
    label := fun e he i hi => by
      obtain ⟨hlt, hline, hlabel⟩ := h.label e he i hi
      exact ⟨hlt, hline.trans hb, hlabel⟩ }

/-- A symbol that is entered is outside of all sections, or behind all records. -/
theorem Placed.insert (h : Placed limits a b l) {name : String} {symbol : Symbol}
    (hsymbol : ∀ i, symbol.sectionIndex = some i →
      i = l.selected ∧ symbol.offset = l.size ∧ a < symbol.span.line ∧ symbol.span.line ≤ b) :
    Placed limits a b { l with symbols := AssocMap.insert name symbol l.symbols } :=
  { h with
    label := fun e he i hi => by
      rcases List.mem_cons.mp he with rfl | he
      · obtain ⟨rfl, hoffset, hlow, hhigh⟩ := hsymbol i hi
        refine ⟨h.selected, hhigh, l.records, [], (List.append_nil _).symm, ?_, nofun, ?_⟩
        · exact fun r hr => (h.line r hr).trans_lt hlow
        · rw [← h.size]
          exact hoffset
      · exact h.label e (List.mem_filter.mp he).1 i hi }

variable {span : SourceSpan} {l' : Layout}

theorem defineLabels_placed {a fuel : Nat} {text text' : Text} (h : Placed limits a span.line l)
    (hline : a < span.line) (hok : defineLabels sourceName span fuel text l = .ok (text', l')) :
    Placed limits a span.line l' := by
  induction fuel generalizing text l with
  | zero =>
      cases hok
      exact h
  | succ fuel ih =>
      unfold defineLabels at hok
      split at hok
      · cases hok
        exact h
      · obtain ⟨_, -, hok⟩ := bind_ok_iff.mp hok
        obtain ⟨-, hok⟩ := require_then_ok_iff.mp hok
        simp only at hok
        split at hok
        · cases hok
        · refine ih (h.insert fun i hi => ?_) hok
          exact ⟨(Option.some.inj hi).symm, rfl, hline, le_rfl⟩

theorem kindAt_append {i : Nat} (hi : i < sections.length) (more : List AsmSection) :
    kindAt (sections ++ more) i = kindAt sections i := by
  unfold kindAt
  rw [List.getElem?_append_left hi]

/-- Opening a section after the others leaves what is in them. -/
theorem Placed.open (h : Placed limits a b l) (name : String) (kind : AsmSectionKind) :
    Placed limits a b { l with
      sections := l.sections ++ [blankSection name kind]
      sectionNames := AssocMap.insert name l.sections.length l.sectionNames
      sizes := l.sizes ++ [0]
      selected := l.sections.length } where
  length := by simp [h.length]
  selected := by simp
  named e he := by
    rw [List.length_append, List.length_singleton]
    rcases List.mem_cons.mp he with rfl | he
    · exact Nat.lt_succ_self _
    · have := h.named e (List.mem_filter.mp he).1
      omega
  size i := by
    rw [← h.size i, List.getD_eq_getElem?_getD, List.getD_eq_getElem?_getD, List.getElem?_append]
    split
    · rfl
    · next hge =>
      rw [List.getElem?_eq_none (not_lt.mp hge)]
      cases i - l.sizes.length <;> rfl
  sectionIndex r hr := by
    have := h.sectionIndex r hr
    rw [List.length_append]
    omega
  offset := h.offset
  line := h.line
  label e he i hi := by
    obtain ⟨hlt, hline, hlabel⟩ := h.label e he i hi
    refine ⟨?_, hline, hlabel⟩
    rw [List.length_append]
    omega
  blank s hs := by
    rcases List.mem_append.mp hs with hs | hs
    · exact h.blank s hs
    · obtain rfl := List.mem_singleton.mp hs
      exact ⟨rfl, rfl⟩
  materialized := by
    rw [h.materialized]
    exact emittedSize_congr fun r hr => (kindAt_append (h.sectionIndex r hr) _).symm
  bounded := h.bounded

theorem selectSection_placed {name : Text} (h : Placed limits a b l)
    (hok : l.selectSection name = .ok l') : Placed limits a b l' := by
  unfold selectSection at hok
  obtain ⟨_, -, hok⟩ := bind_ok_iff.mp hok
  simp only at hok
  split at hok
  · next index hget =>
    cases hok
    exact { h with selected := h.named _ (AssocMap.mem_of_get hget) }
  · obtain ⟨-, hok⟩ := require_then_ok_iff.mp hok
    cases hok
    exact h.open _ _

theorem declare_placed {external : Bool} {name : Text} (h : Placed limits a b l)
    (hok : declare external span l name = .ok l') : Placed limits a b l' := by
  unfold declare at hok
  obtain ⟨_, -, hok⟩ := bind_ok_iff.mp hok
  obtain ⟨-, hok⟩ := require_then_ok_iff.mp hok
  have hglobals : Placed limits a b
      { l with globals := AssocMap.insert (String.ofList name) span l.globals } := { h with }
  simp only at hok
  split at hok
  · split at hok
    · obtain ⟨-, hok⟩ := require_then_ok_iff.mp hok
      cases hok
      exact hglobals
    · obtain ⟨-, hok⟩ := require_then_ok_iff.mp hok
      cases hok
      refine hglobals.insert fun i hi => ?_
      cases hi
  · cases hok
    exact hglobals

theorem kindAt_modify {f : AsmSection → AsmSection} (hf : ∀ s, (f s).kind = s.kind)
    (sections : List AsmSection) (index i : Nat) :
    kindAt (sections.modify index f) i = kindAt sections i := by
  unfold kindAt
  rw [List.getElem?_modify]
  by_cases h : index = i
  · cases sections[i]? <;> simp [h, hf]
  · simp [h]

/-- An alignment changes neither the kinds of the sections nor their bytes. -/
theorem Placed.align (h : Placed limits a b l) (index alignment : Nat) : Placed limits a b { l with
      sections := l.sections.modify index fun s => { s with align := max s.align alignment } } where
  length := by simpa using h.length
  selected := by simpa using h.selected
  named e he := by simpa using h.named e he
  size := h.size
  sectionIndex r hr := by simpa using h.sectionIndex r hr
  offset := h.offset
  line := h.line
  label e he i hi := by simpa using h.label e he i hi
  blank s hs := by
    obtain ⟨i, hi, rfl⟩ := List.mem_iff_getElem.mp hs
    rw [List.length_modify] at hi
    rw [List.getElem_modify]
    split <;> exact h.blank l.sections[i] (List.getElem_mem hi)
  materialized := by
    rw [h.materialized]
    refine emittedSize_congr fun r _ => Eq.symm ?_
    apply kindAt_modify
    exact fun _ => rfl
  bounded := h.bounded

theorem action_placed {mnemonic : String} {tail : Text} {act : Action} (h : Placed limits a b l)
    (hok : l.action mnemonic tail = .ok (act, l')) : Placed limits a b l' := by
  unfold action at hok
  split at hok
  · obtain ⟨_, -, hok⟩ := bind_ok_iff.mp hok
    obtain ⟨-, hok⟩ := require_then_ok_iff.mp hok
    cases hok
    exact h
  · split at hok
    · obtain ⟨_, -, hok⟩ := bind_ok_iff.mp hok
      obtain ⟨-, hok⟩ := require_then_ok_iff.mp hok
      cases hok
      exact h
    · split at hok
      · obtain ⟨_, -, hok⟩ := bind_ok_iff.mp hok
        obtain ⟨_, -, hok⟩ := bind_ok_iff.mp hok
        cases hok
        exact h.align _ _
      · split at hok
        · cases hok
        · obtain ⟨_, -, hok⟩ := bind_ok_iff.mp hok
          cases hok
          exact h

theorem add_placed {act : Action} (h : Placed limits a span.line l) (ha : a ≤ span.line)
    (hok : l.add limits span act = .ok l') : Placed limits span.line span.line l' := by
  unfold add at hok
  obtain ⟨-, hok⟩ := require_then_ok_iff.mp hok
  obtain ⟨-, hok⟩ := require_then_ok_iff.mp hok
  obtain ⟨-, hok⟩ := require_then_ok_iff.mp hok
  obtain ⟨-, hok⟩ := require_then_ok_iff.mp hok
  obtain ⟨hbytes, hok⟩ := require_then_ok_iff.mp hok
  obtain ⟨-, hok⟩ := require_then_ok_iff.mp hok
  cases hok
  have hkind : l.kind = kindAt l.sections l.selected := rfl
  -- Each clause holds of the earlier records; the one just added is the last.
  constructor
  case length => simpa using h.length
  case selected => exact h.selected
  case named => exact h.named
  case blank => exact h.blank
  case size =>
    intro i
    rw [sizeIn_append, sizeIn_singleton, ← h.size i]
    by_cases hi : l.selected = i
    · subst hi
      simp [size, recordSize, h.length, h.selected, List.getD_eq_getElem?_getD]
    · simp [hi, List.getD_eq_getElem?_getD]
  case sectionIndex =>
    intro r hr
    rcases List.mem_append.mp hr with hr | hr
    · exact h.sectionIndex r hr
    · obtain rfl := List.mem_singleton.mp hr
      exact h.selected
  case offset =>
    intro before r after heq
    rcases List.eq_nil_or_concat after with rfl | ⟨after, last, rfl⟩
    · obtain ⟨rfl, hr⟩ := List.append_inj' heq rfl
      obtain rfl := List.singleton_inj.mp hr
      exact h.size _
    · rw [List.concat_eq_append, ← List.cons_append, ← List.append_assoc] at heq
      obtain ⟨heq, -⟩ := List.append_inj' heq rfl
      exact h.offset before r after heq
  case line =>
    intro r hr
    rcases List.mem_append.mp hr with hr | hr
    · exact (h.line r hr).trans ha
    · obtain rfl := List.mem_singleton.mp hr
      exact le_rfl
  case label =>
    intro e he i hi
    obtain ⟨hlt, hline, before, after, heq, hbefore, hafter, hoffset⟩ := h.label e he i hi
    refine ⟨hlt, hline, before, after ++ [⟨l.selected, l.size, span, act⟩], ?_, hbefore, ?_, hoffset⟩
    · rw [heq, List.append_assoc]
    · intro r hr
      rcases List.mem_append.mp hr with hr | hr
      · exact hafter r hr
      · obtain rfl := List.mem_singleton.mp hr
        exact hline
  case materialized =>
    rw [emittedSize_append, emittedSize_singleton, ← h.materialized, ← hkind]
    by_cases hbss : l.kind = .bss <;> simp [hbss, recordSize]
  case bounded =>
    rcases hbytes with hbss | hbytes
    · simpa [hbss] using h.bounded
    · exact hbytes

theorem statement_placed {text : Text} (h : Placed limits a span.line l) (ha : a ≤ span.line)
    (hok : statement limits span text l = .ok l') : Placed limits span.line span.line l' := by
  have hrecords : ∀ {l}, Placed limits a span.line l → Placed limits span.line span.line l :=
    fun h => { h with line := fun r hr => (h.line r hr).trans ha }
  unfold statement at hok
  simp only at hok
  split at hok
  · split at hok
    · exact hrecords (selectSection_placed h hok)
    · obtain ⟨-, hok⟩ := require_then_ok_iff.mp hok
      exact hrecords (selectSection_placed h hok)
  · split at hok
    · obtain ⟨names, -, hok⟩ := bind_ok_iff.mp hok
      obtain ⟨-, hok⟩ := require_then_ok_iff.mp hok
      exact hrecords (foldlM_inv (fun _ _ _ h hok => declare_placed h hok) h hok)
    · obtain ⟨⟨act, l₁⟩, haction, hok⟩ := bind_ok_iff.mp hok
      exact add_placed (action_placed h haction) ha hok

theorem line_placed {hash : Bool} {index : Nat} {original : Text}
    (h : Placed limits index span.line l) (hindex : span.line = index + 1)
    (hok : line hash limits sourceName span original l = .ok l') :
    Placed limits span.line span.line l' := by
  unfold line at hok
  simp only at hok
  obtain ⟨⟨text, l₁⟩, hlabels, hok⟩ := bind_ok_iff.mp hok
  have h₁ := defineLabels_placed h (by omega) hlabels
  simp only at hok
  split at hok
  · cases hok
    exact { h₁ with line := fun r hr => (h₁.line r hr).trans (by omega) }
  · exact statement_placed h₁ (by omega) hok

theorem lines_placed {hash : Bool} {texts : List Text} {index start : Nat}
    (h : Placed limits index (index + 1) l)
    (hok : lines hash limits sourceName texts index start l = .ok l') :
    ∃ last, Placed limits last (last + 1) l' := by
  induction texts generalizing index start l with
  | nil =>
      cases hok
      exact ⟨index, h⟩
  | cons original rest ih =>
      unfold lines at hok
      obtain ⟨l₁, hline, hok⟩ := bind_ok_iff.mp hok
      have h₁ := line_placed h rfl (mapError_ok_iff.mp hline)
      exact ih (h₁.mono (Nat.le_succ _)) hok

/-- The first pass places every record and every label. -/
theorem ofSource_placed {source : Text} (hok : ofSource isa sourceName source limits = .ok l) :
    ∃ last, Placed limits last (last + 1) l := by
  unfold ofSource at hok
  obtain ⟨-, hok⟩ := require_then_ok_iff.mp hok
  obtain ⟨-, hok⟩ := require_then_ok_iff.mp hok
  obtain ⟨l₁, hlines, hok⟩ := bind_ok_iff.mp hok
  obtain ⟨_, -, hok⟩ := bind_ok_iff.mp hok
  cases hok
  exact lines_placed (placed_start limits) hlines

end Layout

/-! ## The second pass -/

open Layout

variable {symbols : AssocMap String Symbol} {s : AsmSection}

theorem emitData_ok {width : Nat} {value : Text} {s s' : AsmSection}
    (hok : emitData symbols width s value = .ok s') :
    s'.kind = s.kind ∧ s'.zeroFill = s.zeroFill ∧
      ∃ bytes, s'.data = s.data ++ bytes ∧ bytes.length = width := by
  unfold emitData at hok
  obtain ⟨e, -, hok⟩ := bind_ok_iff.mp hok
  cases e with
  | number n =>
      obtain ⟨-, hok⟩ := require_then_ok_iff.mp hok
      cases hok
      exact ⟨rfl, rfl, _, rfl, length_leBytes _ _⟩
  | symbol name addend =>
      obtain ⟨-, hok⟩ := require_then_ok_iff.mp hok
      obtain ⟨_, -, hok⟩ := bind_ok_iff.mp hok
      cases hok
      exact ⟨rfl, rfl, _, rfl, length_leBytes _ _⟩

theorem emitValues_ok {width : Nat} {values : List Text} {s s' : AsmSection}
    (hok : values.foldlM (emitData symbols width) s = .ok s') :
    s'.kind = s.kind ∧ s'.zeroFill = s.zeroFill ∧
      ∃ bytes, s'.data = s.data ++ bytes ∧ bytes.length = width * values.length := by
  induction values generalizing s with
  | nil =>
      cases hok
      exact ⟨rfl, rfl, [], (List.append_nil _).symm, rfl⟩
  | cons value values ih =>
      obtain ⟨s₁, hvalue, hrest⟩ := foldlM_cons_ok.mp hok
      obtain ⟨hkind, hfill, first, hfirst, hlen⟩ := emitData_ok hvalue
      obtain ⟨hkind', hfill', rest, hrest, hlen'⟩ := ih hrest
      refine ⟨hkind'.trans hkind, hfill'.trans hfill, first ++ rest, ?_, ?_⟩
      · rw [hrest, hfirst, List.append_assoc]
      · rw [List.length_append, hlen, hlen', List.length_cons, Nat.mul_succ, Nat.add_comm]

/-- A record has as many bytes as the first pass has counted for it. -/
theorem emitRecord_ok {r : Record} {s s' : AsmSection} (hok : emitRecord isa symbols r s = .ok s') :
    s'.kind = s.kind ∧ s'.zeroFill = s.zeroFill ∧
      ∃ bytes, s'.data = s.data ++ bytes ∧ bytes.length = recordSize r := by
  unfold emitRecord at hok
  unfold recordSize
  cases haction : r.action with
  | «instruction» inst =>
      rw [haction] at hok
      obtain ⟨⟨word, cx⟩, -, hok⟩ := bind_ok_iff.mp hok
      cases hok
      exact ⟨rfl, rfl, _, rfl, length_leBytes _ _⟩
  | data width values =>
      rw [haction] at hok
      exact emitValues_ok hok
  | zero size =>
      rw [haction] at hok
      cases hok
      exact ⟨rfl, rfl, _, rfl, List.length_replicate⟩
  | align alignment =>
      rw [haction] at hok
      cases hok
      exact ⟨rfl, rfl, _, rfl, List.length_replicate⟩

/-- What the emission of records makes of the section `i`. -/
structure Grown (records : List Record) (i : Nat) (s s' : AsmSection) : Prop where
  kind : s'.kind = s.kind
  zeroFill : s'.zeroFill = s.zeroFill
  data : ∃ bytes, s'.data = s.data ++ bytes ∧
    bytes.length = if s.kind = .bss then 0 else sizeIn records i

theorem Grown.refl (i : Nat) (s : AsmSection) : Grown [] i s s where
  kind := rfl
  zeroFill := rfl
  data := ⟨[], (List.append_nil _).symm, by simp [sizeIn]⟩

theorem Grown.append {before after : List Record} {i : Nat} {s₁ s₂ s₃ : AsmSection}
    (h : Grown before i s₁ s₂) (h' : Grown after i s₂ s₃) : Grown (before ++ after) i s₁ s₃ where
  kind := h'.kind.trans h.kind
  zeroFill := h'.zeroFill.trans h.zeroFill
  data := by
    obtain ⟨first, hfirst, hlen⟩ := h.data
    obtain ⟨rest, hrest, hlen'⟩ := h'.data
    refine ⟨first ++ rest, by rw [hrest, hfirst, List.append_assoc], ?_⟩
    rw [List.length_append, hlen, hlen', h.kind, sizeIn_append]
    split <;> rfl

theorem emitRecords_append (isa : FixedIsa) (sourceName : String)
    (symbols : AssocMap String Symbol) (before after : List Record) (sections : List AsmSection) :
    emitRecords isa sourceName symbols (before ++ after) sections =
      emitRecords isa sourceName symbols before sections >>=
        emitRecords isa sourceName symbols after := by
  induction before generalizing sections with
  | nil => rfl
  | cons r before ih =>
      rw [List.cons_append, emitRecords, emitRecords]
      split
      · exact ih _
      · split
        · exact ih _
        · rw [bind_assoc]
          exact congrArg _ (funext fun s => ih _)

/-- What one record does: a reserved section stays as it is. -/
theorem emitRecords_cons_ok {r : Record} {rs : List Record} {sections out : List AsmSection}
    (hs : sections[r.sectionIndex]? = some s)
    (hok : emitRecords isa sourceName symbols (r :: rs) sections = .ok out) :
    ∃ s', Grown [r] r.sectionIndex s s' ∧ (s.kind ≠ .bss → emitRecord isa symbols r s = .ok s') ∧
      emitRecords isa sourceName symbols rs (sections.set r.sectionIndex s') = .ok out := by
  rw [emitRecords, hs] at hok
  simp only at hok
  split at hok
  · next hbss =>
    refine ⟨s, ⟨rfl, rfl, [], (List.append_nil _).symm, by rw [if_pos hbss]; rfl⟩,
      fun h => absurd hbss h, ?_⟩
    obtain ⟨hlt, rfl⟩ := List.getElem?_eq_some_iff.mp hs
    rw [List.set_getElem_self]
    exact hok
  · next hbss =>
    obtain ⟨s', hemit, hok⟩ := bind_ok_iff.mp hok
    have hemit := mapError_ok_iff.mp hemit
    obtain ⟨hkind, hfill, bytes, hdata, hlen⟩ := emitRecord_ok hemit
    refine ⟨s', ⟨hkind, hfill, bytes, hdata, ?_⟩, fun _ => hemit, hok⟩
    rw [if_neg hbss, sizeIn_singleton, if_pos rfl]
    exact hlen

/-- The bytes of all sections. -/
def totalBytes (sections : List AsmSection) : Nat := (sections.map fun s => s.data.length).sum

theorem totalBytes_set {i n : Nat} {s s' : AsmSection} (hs : sections[i]? = some s)
    (hlen : s'.data.length = s.data.length + n) :
    totalBytes (sections.set i s') = totalBytes sections + n := by
  obtain ⟨hlt, rfl⟩ := List.getElem?_eq_some_iff.mp hs
  have hsplit := congrArg totalBytes (List.take_append_drop i sections)
  rw [List.drop_eq_getElem_cons hlt] at hsplit
  rw [← hsplit, List.set_eq_take_append_cons_drop, if_pos hlt]
  simp only [totalBytes, List.map_append, List.map_cons, List.sum_append, List.sum_cons, hlen]
  omega

theorem kindAt_set {i : Nat} {s s' : AsmSection} (hs : sections[i]? = some s)
    (hkind : s'.kind = s.kind) (j : Nat) : kindAt (sections.set i s') j = kindAt sections j := by
  obtain ⟨hlt, rfl⟩ := List.getElem?_eq_some_iff.mp hs
  unfold kindAt
  by_cases h : i = j
  · subst h
    simp [hlt, hkind]
  · rw [List.getElem?_set_ne h]

/-- The second pass makes the bytes that the first pass has counted. -/
theorem emitRecords_grown {records : List Record} {sections out : List AsmSection}
    (hindex : ∀ r ∈ records, r.sectionIndex < sections.length)
    (hok : emitRecords isa sourceName symbols records sections = .ok out) :
    out.length = sections.length ∧
      (∀ (i : Nat) (s : AsmSection), sections[i]? = some s →
        ∃ s', out[i]? = some s' ∧ Grown records i s s') ∧
      totalBytes out = totalBytes sections + emittedSize sections records := by
  induction records generalizing sections with
  | nil =>
      cases hok
      exact ⟨rfl, fun i s hs => ⟨s, hs, .refl i s⟩, rfl⟩
  | cons r rs ih =>
      have hr := hindex r List.mem_cons_self
      have hs := List.getElem?_eq_getElem hr
      obtain ⟨s', hgrown, -, hok⟩ := emitRecords_cons_ok hs hok
      obtain ⟨hlength, hgrowns, htotal⟩ := ih (fun r' hr' => by
        rw [List.length_set]
        exact hindex r' (List.mem_cons_of_mem _ hr')) hok
      refine ⟨hlength.trans List.length_set, fun i s hi => ?_, ?_⟩
      · -- The record's own section grows by its bytes; the others keep theirs.
        by_cases h : r.sectionIndex = i
        · subst h
          obtain rfl := Option.some.inj (hs.symm.trans hi)
          obtain ⟨s'', hout, hgrown'⟩ := hgrowns r.sectionIndex s' (by simp [hr])
          exact ⟨s'', hout, hgrown.append hgrown'⟩
        · obtain ⟨s'', hout, hgrown'⟩ := hgrowns i s (by rw [List.getElem?_set_ne h, hi])
          refine ⟨s'', hout, hgrown'.kind, hgrown'.zeroFill, ?_⟩
          obtain ⟨bytes, hdata, hlen⟩ := hgrown'.data
          refine ⟨bytes, hdata, ?_⟩
          rw [hlen, ← List.singleton_append, sizeIn_append, sizeIn_singleton, if_neg h, Nat.zero_add]
      · obtain ⟨bytes, hdata, hlen⟩ := hgrown.data
        have hset := totalBytes_set hs (by rw [hdata, List.length_append, hlen])
        have hkinds : emittedSize (sections.set r.sectionIndex s') rs = emittedSize sections rs :=
          emittedSize_congr fun r' _ => kindAt_set hs hgrown.kind r'.sectionIndex
        have hsplit := emittedSize_append sections [r] rs
        rw [List.singleton_append, emittedSize_singleton] at hsplit
        rw [htotal, hset, hkinds, hsplit, sizeIn_singleton, if_pos rfl, Nat.add_assoc]
        unfold kindAt
        rw [hs]
        rfl

/-! ## Agreement -/

theorem length_reserve (l : Layout) : l.reserve.length = l.sections.length :=
  List.length_mapIdx

theorem kindAt_reserve (l : Layout) (i : Nat) : kindAt l.reserve i = kindAt l.sections i := by
  unfold kindAt Layout.reserve
  rw [List.getElem?_mapIdx]
  cases l.sections[i]? with
  | none => rfl
  | some s => by_cases h : s.kind = .bss <;> simp [h]

/-- The sections before the second pass have no bytes, the reserved ones have their size. -/
theorem reserve_blank {a b i : Nat} (h : Placed limits a b l) (hs : l.reserve[i]? = some s) :
    s.data = [] ∧ s.zeroFill = if s.kind = .bss then sizeIn l.records i else 0 := by
  unfold Layout.reserve at hs
  rw [List.getElem?_mapIdx] at hs
  obtain ⟨s₀, hs₀, rfl⟩ := Option.map_eq_some_iff.mp hs
  obtain ⟨hdata, hfill⟩ := h.blank s₀ (List.mem_of_getElem? hs₀)
  rw [← h.size i]
  by_cases hbss : s₀.kind = .bss
  · simp [hbss, hdata]
  · simp [hbss, hdata, hfill]

theorem totalBytes_reserve (h : Placed limits a b l) : totalBytes l.reserve = 0 := by
  refine List.sum_eq_zero_iff_forall_eq_nat.mpr fun n hn => ?_
  obtain ⟨s, hs, rfl⟩ := List.mem_map.mp hn
  obtain ⟨i, hs⟩ := List.mem_iff_getElem?.mp hs
  rw [(reserve_blank h hs).1]
  rfl

/-- When the records `before` are emitted, the section `i` has `offset` bytes, if it has bytes. -/
def Reached (isa : FixedIsa) (sourceName : String) (l : Layout) (before : List Record)
    (i offset : Nat) (s : AsmSection) : Prop :=
  ∃ sections, emitRecords isa sourceName l.symbols before l.reserve = .ok sections ∧
    sections[i]? = some s ∧ s.data.length = if s.kind = .bss then 0 else offset

theorem reached {a b i : Nat} {before after : List Record} {out : List AsmSection}
    (h : Placed limits a b l) (hrecords : l.records = before ++ after) (hi : i < l.sections.length)
    (hok : emitRecords isa sourceName l.symbols l.records l.reserve = .ok out) :
    ∃ s, Reached isa sourceName l before i (sizeIn before i) s := by
  rw [hrecords, emitRecords_append] at hok
  obtain ⟨sections, hbefore, -⟩ := bind_ok_iff.mp hok
  rw [← length_reserve] at hi
  obtain ⟨-, hgrown, -⟩ := emitRecords_grown (fun r hr => by
    rw [length_reserve]
    exact h.sectionIndex r (hrecords ▸ List.mem_append_left _ hr)) hbefore
  obtain ⟨s, hs, hgrown⟩ := hgrown i _ (List.getElem?_eq_getElem hi)
  obtain ⟨bytes, hdata, hlen⟩ := hgrown.data
  refine ⟨s, sections, hbefore, hs, ?_⟩
  rw [hdata, (reserve_blank h (List.getElem?_eq_getElem hi)).1, List.nil_append, hlen, hgrown.kind]

/-- The record after `before` is emitted at its offset, in the bytes of its section. -/
def EmittedAt (isa : FixedIsa) (sourceName : String) (l : Layout) (out : List AsmSection)
    (before : List Record) (r : Record) : Prop :=
  ∃ s, Reached isa sourceName l before r.sectionIndex r.offset s ∧
    (s.kind ≠ .bss → ∃ s' final, emitRecord isa l.symbols r s = .ok s' ∧
      s'.data.length = r.offset + recordSize r ∧ out[r.sectionIndex]? = some final ∧
      s'.data <+: final.data)

theorem emittedAt {before after : List Record} {r : Record} {out : List AsmSection}
    (h : Placed limits a b l) (hrecords : l.records = before ++ r :: after)
    (hok : emitRecords isa sourceName l.symbols l.records l.reserve = .ok out) :
    EmittedAt isa sourceName l out before r := by
  have hr := h.sectionIndex r (hrecords ▸ List.mem_append_right _ List.mem_cons_self)
  obtain ⟨s, sections, hbefore, hs, hlen⟩ := reached h hrecords hr hok
  rw [← h.offset before r after hrecords] at hlen
  refine ⟨s, ⟨sections, hbefore, hs, hlen⟩, fun hbss => ?_⟩
  rw [hrecords, emitRecords_append] at hok
  obtain ⟨sections', hbefore', hok⟩ := bind_ok_iff.mp hok
  cases hbefore.symm.trans hbefore'
  obtain ⟨s', -, hemit, hok⟩ := emitRecords_cons_ok hs hok
  obtain ⟨-, -, bytes, hdata, hsize⟩ := emitRecord_ok (hemit hbss)
  have hlength := (emitRecords_grown (fun r hr => by
    rw [length_reserve]
    exact h.sectionIndex r (hrecords ▸ List.mem_append_left _ hr)) hbefore).1
  rw [length_reserve] at hlength
  obtain ⟨-, hgrown, -⟩ := emitRecords_grown (fun r' hr' => by
    rw [List.length_set, hlength]
    exact h.sectionIndex r' (hrecords ▸ List.mem_append_right _ (List.mem_cons_of_mem _ hr'))) hok
  obtain ⟨final, hfinal, hgrown⟩ := hgrown r.sectionIndex s' (by simp [hlength, hr])
  obtain ⟨more, hmore, -⟩ := hgrown.data
  refine ⟨s', final, hemit hbss, ?_, hfinal, more, hmore.symm⟩
  rw [hdata, List.length_append, hlen, if_neg hbss, hsize]

/-- Every record is emitted at the offset that the first pass has given it, a label is where the
bytes of the records before it end, a section has the bytes of its records, and all of them fit
into the limit. -/
theorem assemble_passes_agree {isa : FixedIsa} {sourceName : String} {source : Text}
    {limits : AssemblyLimits} {out : AssemblerOutput}
    (hok : assemble isa sourceName source limits = .ok out) :
    ∃ l, ofSource isa sourceName source limits = .ok l ∧
      out.sections.length = l.sections.length ∧
      out.symbols = (sortedByName l.symbols).map (outputSymbol l.globals) ∧
      (∀ before r after, l.records = before ++ r :: after →
        EmittedAt isa sourceName l out.sections before r) ∧
      (∀ e ∈ l.symbols, ∀ i, e.2.sectionIndex = some i →
        ∃ before after s, l.records = before ++ after ∧
          (∀ r ∈ before, r.span.line < e.2.span.line) ∧
          (∀ r ∈ after, e.2.span.line ≤ r.span.line) ∧
          e.2.offset = sizeIn before i ∧ Reached isa sourceName l before i e.2.offset s) ∧
      (∀ i s, out.sections[i]? = some s →
        s.data.length + s.zeroFill = sizeIn l.records i ∧
          (s.kind = .bss → s.data = []) ∧ (s.kind ≠ .bss → s.zeroFill = 0)) ∧
      totalBytes out.sections ≤ byteLimit limits := by
  unfold assemble at hok
  obtain ⟨l, hl, hok⟩ := bind_ok_iff.mp hok
  obtain ⟨sections, hsections, hok⟩ := bind_ok_iff.mp hok
  cases hok
  obtain ⟨last, h⟩ := ofSource_placed hl
  have hindex : ∀ r ∈ l.records, r.sectionIndex < l.reserve.length := fun r hr => by
    rw [length_reserve]
    exact h.sectionIndex r hr
  -- The second pass fills blank sections with the bytes of one record after another.
  obtain ⟨hlength, hgrown, htotal⟩ := emitRecords_grown hindex hsections
  refine ⟨l, hl, hlength.trans (length_reserve l), rfl, ?_, ?_, ?_, ?_⟩
  · exact fun before r after hrecords => emittedAt h hrecords hsections
  · intro e he i hi
    obtain ⟨hlt, -, before, after, hrecords, hbefore, hafter, hoffset⟩ := h.label e he i hi
    obtain ⟨s, hs⟩ := reached h hrecords hlt hsections
    rw [← hoffset] at hs
    exact ⟨before, after, s, hrecords, hbefore, hafter, hoffset, hs⟩
  · intro i s hs
    have hi : i < l.reserve.length := hlength ▸ (List.getElem?_eq_some_iff.mp hs).1
    obtain ⟨s', hs', hgrown⟩ := hgrown i _ (List.getElem?_eq_getElem hi)
    obtain rfl := Option.some.inj (hs.symm.trans hs')
    obtain ⟨hblank, hfill⟩ := reserve_blank h (List.getElem?_eq_getElem hi)
    obtain ⟨bytes, hdata, hlen⟩ := hgrown.data
    rw [hblank, List.nil_append] at hdata
    rw [← hdata, ← hgrown.kind] at hlen
    rw [← hgrown.zeroFill, ← hgrown.kind] at hfill
    by_cases hbss : s.kind = .bss
    · rw [if_pos hbss] at hlen hfill
      exact ⟨by omega, fun _ => List.eq_nil_of_length_eq_zero hlen, fun h => absurd hbss h⟩
    · rw [if_neg hbss] at hlen hfill
      exact ⟨by omega, fun h => absurd h hbss, fun _ => hfill⟩
  · rw [htotal, totalBytes_reserve h, Nat.zero_add,
      emittedSize_congr fun r _ => kindAt_reserve l r.sectionIndex, ← h.materialized]
    exact h.bounded

def shortOutput : AssemblerOutput where
  sections := [{ kind := .text, align := 4, name := ".text", data := [192, 3, 95, 214, 7]
                 zeroFill := 0, relocs := [] }]
  symbols := [{ name := "x", sectionIndex := some 0, offset := 4, isGlobal := false
                kind := .noType, size := 0, visibility := .default }]

theorem assemble_passes_agree_short :
    ∃ l, ofSource aArch64 "a.s" "ret\nx: .byte 7".toList ⟨5, 1⟩ = .ok l ∧
      (∀ before r after, l.records = before ++ r :: after →
        EmittedAt aArch64 "a.s" l shortOutput.sections before r) ∧
      totalBytes shortOutput.sections ≤ byteLimit ⟨5, 1⟩ := by
  have hok : assemble aArch64 "a.s" "ret\nx: .byte 7".toList ⟨5, 1⟩ = .ok shortOutput := by
    decide +kernel
  obtain ⟨l, hl, -, -, hrecords, -, -, hbytes⟩ := assemble_passes_agree hok
  exact ⟨l, hl, hrecords, hbytes⟩

end Whale.Assembler
