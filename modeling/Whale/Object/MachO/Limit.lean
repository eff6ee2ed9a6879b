import Whale.Object.MachO.Correct

set_option autoImplicit false

/-! # Output limits of Mach-O objects

The writer plans the whole file before it puts in a byte, and only the plan knows the limit. A
smaller limit keeps the plans whose files fit, but for the early estimate of the symbols and the
relocations (`planFile_restricts`). With the greatest limit the writer accepts exactly the objects
that `Encodable` describes (`write_accepts`). -/

namespace Whale.MachO

/-! ## The plan and the bytes -/

/-- All that emission needs besides the object. -/
structure FilePlan where
  header : Headers.FileLayout
  layouts : List Sections.Layout
  table : Symbols.Table
  stop : Nat

def planFile (o : ObjectFile) (limit : Nat) : Except ObjectError FilePlan := do
  o.validate
  require (o.target.format = .machO64) invalid
  require (o.sections.length ≤ 255) invalid
  let start ← grow 0 (232 + o.sections.length * 80) limit
  require (o.symbols.length + o.relocations.length ≤ limit / 16) outputLimit
  let plans ← planSections limit o.sections [] 0 start
  let dataEnd := plans.cursor
  let data := (((plans.layouts.map Sections.Layout.data).filter (· ≠ 0)).min?).getD dataEnd
  let memory := max plans.memory (dataEnd - data)
  let occupied ← o.relocations.mapM (occupiedField o.target.machine)
  require (neighboursDisjoint (occupied.insertionSort FieldLe) = true) invalid
  let relocations ← grow dataEnd ((4 - dataEnd % 4) % 4) limit
  let (layouts, at') ← planRelocations o limit plans.layouts 0 relocations
  let (symbols, groups) ← Symbols.plan o limit
  require (symbols.entries.length ≤ 0x1000000) invalid
  let strings ← grow at' (symbols.entries.length * 16) limit
  let stop ← grow strings symbols.strings.length limit
  return {
    header :=
      { machine := o.target.machine, sections := o.sections.length, data := data
        dataEnd := dataEnd, memory := memory, symbols := at', count := symbols.entries.length
        strings := strings, stringSize := symbols.strings.length, groups := groups }
    layouts := layouts
    table := symbols
    stop := stop }

def emitFile (o : ObjectFile) (p : FilePlan) : Except ObjectError (List UInt8) := do
  let out := Headers.file (List.replicate p.stop 0) p.header
  let out ← emitSections o p.table.indices out 0 (o.sections.zip p.layouts)
  let out ← Symbols.emit p.layouts out p.header.symbols p.table.entries
  return patch out p.header.strings p.table.strings

theorem write_eq (o : ObjectFile) (maxOutputSize : UInt64) :
    write o maxOutputSize =
      planFile o (min maxOutputSize.toNat (2 ^ 32 - 1)) >>= emitFile o := by
  simp only [write, planFile, emitFile, bind_assoc, pure_bind]

/-! ## Less room -/

variable {limit : Nat}

section

variable {small large : Nat}

theorem grow_restricts (h : small ≤ large) {floor : Prop} (cursor bytes : Nat) :
    Restricts floor id (fun stop => floor ∧ stop ≤ small) (grow cursor bytes small)
      (grow cursor bytes large) :=
  Restricts.limit h

theorem planData_restricts (h : small ≤ large) (s : Section) (align cursor : Nat) :
    Restricts (cursor ≤ small) id (fun r => r.2 ≤ small)
      (Sections.planData s align cursor small) (Sections.planData s align cursor large) := by
  unfold Sections.planData
  by_cases hno : s.kind = .bss ∨ s.data = []
  · rw [if_pos hno, if_pos hno]
    exact Restricts.ok Iff.rfl
  · rw [if_neg hno, if_neg hno]
    refine (grow_restricts h _ _).bind fun start hstart => ?_
    refine (grow_restricts h _ _).bind fun stop hstop => ?_
    obtain ⟨hstartEq, -⟩ := grow_ok hstart
    obtain ⟨hstopEq, -⟩ := grow_ok hstop
    refine Restricts.ok (b := (start, stop)) ?_
    dsimp only [id] at hstopEq ⊢
    omega

theorem plan_restricts (h : small ≤ large) (s : Section) (memory cursor : Nat) :
    Restricts (cursor ≤ small) id (fun p => p.cursor ≤ small)
      (Sections.plan s memory cursor small) (Sections.plan s memory cursor large) := by
  unfold Sections.plan
  refine Restricts.check.bind fun _ _ => ?_
  refine Restricts.check.bind fun _ _ => ?_
  refine Restricts.check.bind fun _ _ => ?_
  refine Restricts.check.bind fun aligned _ => ?_
  refine Restricts.check.bind fun size _ => ?_
  refine Restricts.check.bind fun memory' _ => ?_
  refine (planData_restricts h s _ cursor).bind fun data _ => ?_
  exact Restricts.ok Iff.rfl

theorem planSections_restricts (h : small ≤ large) (sections : List Section)
    (names : List (String × String)) (memory cursor : Nat) :
    Restricts (cursor ≤ small) id (fun p => p.cursor ≤ small)
      (planSections small sections names memory cursor)
      (planSections large sections names memory cursor) := by
  induction sections generalizing names memory cursor with
  | nil => exact Restricts.ok Iff.rfl
  | cons s sections ih =>
      unfold planSections
      refine (plan_restricts h s memory cursor).bind fun p _ => ?_
      refine Restricts.check.bind fun _ _ => ?_
      refine (ih _ p.memory p.cursor).bind fun rest _ => ?_
      exact Restricts.ok Iff.rfl

theorem place_restricts (h : small ≤ large) (count cursor : Nat) :
    Restricts (cursor ≤ small) id (fun stop => stop ≤ small) (place count cursor small)
      (place count cursor large) := by
  unfold place
  by_cases hzero : count = 0
  · rw [if_pos hzero, if_pos hzero]
    exact Restricts.ok Iff.rfl
  · rw [if_neg hzero, if_neg hzero]
    refine (grow_restricts h cursor _).congr fun stop hstop => ?_
    obtain ⟨hstopEq, -⟩ := grow_ok hstop
    omega

theorem planRelocations_restricts (h : small ≤ large) (o : ObjectFile)
    (layouts : List Sections.Layout) (index cursor : Nat) :
    Restricts (cursor ≤ small) id (fun r => r.2 ≤ small)
      (planRelocations o small layouts index cursor)
      (planRelocations o large layouts index cursor) := by
  induction layouts generalizing index cursor with
  | nil => exact Restricts.ok Iff.rfl
  | cons l layouts ih =>
      unfold planRelocations
      refine (place_restricts h _ cursor).bind fun stop _ => ?_
      refine (ih _ stop).bind fun rest _ => ?_
      exact Restricts.ok Iff.rfl

theorem push_ok {t t' : Symbols.Table} {s : Symbols.Symbol} (h : Symbols.push limit t s = .ok t') :
    t'.strings.length = t.strings.length + ((asBytes s.name).length + 1) := by
  obtain ⟨_, -, h₁⟩ := bind_ok_iff.mp h
  cases h₁
  simp only [List.length_append, List.length_singleton]
  omega

theorem push_restricts (h : small ≤ large) (t : Symbols.Table) (s : Symbols.Symbol) :
    Restricts (t.strings.length ≤ small) id (fun t' => t'.strings.length ≤ small)
      (Symbols.push small t s) (Symbols.push large t s) := by
  have hroom : Restricts (t.strings.length ≤ small) id
      (fun _ => t.strings.length + ((asBytes s.name).length + 1) ≤ small)
      (discard (orThrow (((checkedAdd t.strings.length (asBytes s.name).length).bind
        (checkedAdd · 1)).filter (· ≤ small)) outputLimit : Except ObjectError Nat))
      (discard (orThrow (((checkedAdd t.strings.length (asBytes s.name).length).bind
        (checkedAdd · 1)).filter (· ≤ large)) outputLimit : Except ObjectError Nat)) := by
    refine (Restricts.limit h).bind fun n hn => Restricts.ok (b := ()) ?_
    obtain ⟨hsum, -⟩ := Option.filter_eq_some_iff.mp (orThrow_ok_iff.mp hn)
    obtain ⟨m, hm, hn⟩ := Option.bind_eq_some_iff.mp hsum
    obtain ⟨hm, -⟩ := checkedAdd_eq_some.mp hm
    obtain ⟨hn, -⟩ := checkedAdd_eq_some.mp hn
    omega
  refine hroom.bind fun _ _ => Restricts.ok ?_
  dsimp only [id]
  simp only [List.length_append, List.length_singleton, Nat.add_assoc]

theorem symbolsPlan_restricts (h : small ≤ large) (o : ObjectFile) :
    Restricts (1 ≤ small) id (fun r => r.1.strings.length ≤ small) (Symbols.plan o small)
      (Symbols.plan o large) := by
  unfold Symbols.plan
  refine Restricts.check.bind fun g _ => ?_
  dsimp only [id]
  have hfold := Restricts.foldlM (I := fun _ => True) (fun t s _ => push_restricts h t s)
    (fun _ _ _ _ _ => trivial)
    ((o.relocations.foldl Symbols.addUndefined g).1.locals ++
      (o.relocations.foldl Symbols.addUndefined g).1.defined ++
        (o.relocations.foldl Symbols.addUndefined g).1.undefined)
    (b := { entries := [], indices := [], strings := [0] }) trivial
  exact hfold.bind fun t _ => Restricts.ok Iff.rfl

/-- With less room the plans remain whose files fit, if the estimate of the symbols and the
relocations fits too. -/
theorem planFile_restricts (h : small ≤ large) (o : ObjectFile) :
    Restricts True id
      (fun p => p.stop ≤ small ∧ (o.symbols.length + o.relocations.length) * 16 ≤ small)
      (planFile o small) (planFile o large) := by
  unfold planFile
  refine Restricts.check.bind fun _ _ => ?_
  refine Restricts.check.bind fun _ _ => ?_
  refine Restricts.check.bind fun _ _ => ?_
  refine (grow_restricts h 0 _).bind fun start hstart => ?_
  refine (Restricts.require fun hle => ?_).bind fun _ _ => ?_
  · exact Nat.le_trans hle (Nat.div_le_div_right h)
  refine ((planSections_restricts h _ _ _ start).frame fun hf => hf.1.2).bind fun plans hplans => ?_
  refine Restricts.check.bind fun occupied _ => ?_
  refine Restricts.check.bind fun _ _ => ?_
  refine (grow_restricts h _ _).bind fun relocations hrelocations => ?_
  refine ((planRelocations_restricts h o _ 0 relocations).frame fun hf => hf.2).bind
    fun placed hplaced => ?_
  dsimp only [id] at hrelocations hplaced
  obtain ⟨hstartEq, hstartLe⟩ := grow_ok hstart
  obtain ⟨hrelocationsEq, hrelocationsLe⟩ := grow_ok hrelocations
  obtain ⟨-, -, -, -, hcursor, -⟩ := planSections_ok hplans hstartLe (by decide)
  obtain ⟨hplacedLe, -⟩ := planRelocations_ok hplaced hrelocationsLe
  refine ((symbolsPlan_restricts h o).frame fun hf => ?_).bind fun symbols hsymbols => ?_
  · have hfirst := hf.1.1.1.1.2
    omega
  refine Restricts.check.bind fun _ _ => ?_
  refine (grow_restricts h _ _).bind fun strings hstrings => ?_
  refine (grow_restricts h _ _).bind fun stop hstop => ?_
  obtain ⟨hstringsEq, -⟩ := grow_ok hstrings
  obtain ⟨hstopEq, -⟩ := grow_ok hstop
  refine Restricts.ok ?_
  dsimp only [id] at hstringsEq hstopEq ⊢
  rw [Nat.le_div_iff_mul_le (by decide), true_and]
  omega

end

/-! ## The size of the file -/

/-- The end of the data of a section that is placed behind `cursor`. -/
def dataStop (cursor : Nat) (s : Section) : Nat :=
  if s.kind = .bss ∨ s.data = [] then cursor
  else
    let align := max s.align.toNat 1
    cursor + ((align - (cursor &&& (align - 1))) &&& (align - 1)) + s.data.length

/-- The end of the data of all sections; the headers stand before it. -/
def dataEnd (o : ObjectFile) : Nat :=
  o.sections.foldl dataStop (232 + o.sections.length * 80)

/-- The names with their final zeros, and one zero before them. -/
def stringSize (o : ObjectFile) : Nat :=
  1 + ((symbolNames o).map fun name => (asBytes name).length + 1).sum

/-- The size of the file of an object. -/
def fileSize (o : ObjectFile) : Nat :=
  dataEnd o + (4 - dataEnd o % 4) % 4 + o.relocations.length * 8 + (symbolNames o).length * 16 +
    stringSize o

theorem planData_stop {s : Section} {cursor limit : Nat} {r : Nat × Nat}
    (h : Sections.planData s (max s.align.toNat 1) cursor limit = .ok r) :
    r.2 = dataStop cursor s := by
  unfold Sections.planData at h
  unfold dataStop
  by_cases hno : s.kind = .bss ∨ s.data = []
  · rw [if_pos hno] at h ⊢
    cases h
    rfl
  · rw [if_neg hno] at h ⊢
    obtain ⟨start, hstart, h₁⟩ := bind_ok_iff.mp h
    obtain ⟨stop, hstop, h₂⟩ := bind_ok_iff.mp h₁
    cases h₂
    obtain ⟨hstartEq, -⟩ := grow_ok hstart
    obtain ⟨hstopEq, -⟩ := grow_ok hstop
    rw [hstopEq, hstartEq]

theorem plan_stop {s : Section} {memory cursor limit : Nat} {p : Sections.Plan}
    (h : Sections.plan s memory cursor limit = .ok p) : p.cursor = dataStop cursor s := by
  obtain ⟨_, -, h₁⟩ := bind_ok_iff.mp h
  obtain ⟨_, -, h₂⟩ := bind_ok_iff.mp h₁
  obtain ⟨_, -, h₃⟩ := bind_ok_iff.mp h₂
  obtain ⟨_, -, h₄⟩ := bind_ok_iff.mp h₃
  obtain ⟨_, -, h₅⟩ := bind_ok_iff.mp h₄
  obtain ⟨_, -, h₆⟩ := bind_ok_iff.mp h₅
  obtain ⟨data, hdata, h₇⟩ := bind_ok_iff.mp h₆
  cases h₇
  exact planData_stop hdata

theorem planSections_stop {limit memory cursor : Nat} {sections : List Section}
    {names : List (String × String)} {p : SectionPlans}
    (h : planSections limit sections names memory cursor = .ok p) :
    p.cursor = sections.foldl dataStop cursor := by
  induction sections generalizing names memory cursor p with
  | nil =>
      cases h
      rfl
  | cons s sections ih =>
      obtain ⟨q, hplan, h₁⟩ := bind_ok_iff.mp h
      obtain ⟨_, -, h₂⟩ := bind_ok_iff.mp h₁
      obtain ⟨rest, hrest, h₃⟩ := bind_ok_iff.mp h₂
      cases h₃
      show rest.cursor = _
      rw [List.foldl_cons, ← plan_stop hplan]
      exact ih hrest

theorem place_stop {count cursor limit stop : Nat} (h : place count cursor limit = .ok stop) :
    stop = cursor + count * 8 := by
  unfold place at h
  by_cases hzero : count = 0
  · rw [if_pos hzero] at h
    cases h
    omega
  · rw [if_neg hzero] at h
    exact (grow_ok h).1

/-- The relocations of the sections from `index` on. -/
def recordCount (o : ObjectFile) (index n : Nat) : Nat :=
  ((List.range' index n).map fun i => (records o i).length).sum

theorem recordCount_succ (o : ObjectFile) (index n : Nat) :
    recordCount o index (n + 1) = (records o index).length + recordCount o (index + 1) n := by
  unfold recordCount
  rw [List.range'_succ, List.map_cons, List.sum_cons]

variable {o : ObjectFile}

theorem planRelocations_stop {limit index cursor : Nat} {layouts : List Sections.Layout}
    {r : List Sections.Layout × Nat} (h : planRelocations o limit layouts index cursor = .ok r) :
    r.2 = cursor + recordCount o index layouts.length * 8 := by
  induction layouts generalizing index cursor r with
  | nil =>
      cases h
      rfl
  | cons l layouts ih =>
      obtain ⟨stop, hstop, h₁⟩ := bind_ok_iff.mp h
      obtain ⟨rest, hrest, h₂⟩ := bind_ok_iff.mp h₁
      cases h₂
      dsimp only
      rw [ih hrest, place_stop hstop, List.length_cons, recordCount_succ]
      omega

theorem recordCount_all (h : o.Valid) :
    recordCount o 0 o.sections.length = o.relocations.length := by
  have hbound : ∀ r ∈ o.relocations, r.sectionIndex < o.sections.length := fun r hr => by
    obtain ⟨-, s, hs, -⟩ := h.relocations r hr
    exact (List.getElem?_eq_some_iff.mp hs).1
  unfold recordCount
  rw [← List.range_eq_range', ← sum_length_filter hbound]
  refine congrArg List.sum (List.map_congr_left fun i _ => ?_)
  exact (records_perm o i).length_eq

theorem symbolsPlan_stop {r : Symbols.Table × (Nat × Nat × Nat)} (h : Symbols.plan o limit = .ok r) :
    r.1.strings.length = stringSize o := by
  obtain ⟨g, hgroups, -⟩ := bind_ok_iff.mp h
  rw [(Symbols.plan_eq limit hgroups).1] at h
  obtain ⟨t, htable, hr⟩ := bind_ok_iff.mp h
  cases hr
  have hsum : ∀ {symbols : List Symbols.Symbol} {u v : Symbols.Table},
      symbols.foldlM (Symbols.push limit) u = .ok v → v.strings.length = u.strings.length +
        (symbols.map fun s => (asBytes s.name).length + 1).sum := by
    intro symbols
    induction symbols with
    | nil =>
        intro u v h
        cases h
        rfl
    | cons s symbols ih =>
        intro u v h
        obtain ⟨w, hpush, hrest⟩ := foldlM_cons_ok.mp h
        rw [ih hrest, push_ok hpush, List.map_cons, List.sum_cons]
        omega
  dsimp only
  rw [hsum htable, stringSize, ← Symbols.map_ordered, List.map_map]
  rfl

/-- What the plan of a file says. -/
structure FilePlan.Spec (o : ObjectFile) (limit : Nat) (p : FilePlan) : Prop where
  checked : RelocationsChecked o
  laid : ∃ memory, LaidOut o memory (232 + o.sections.length * 80) (dataEnd o) p.header.symbols
    p.layouts
  sections : p.header.sections = o.sections.length
  strings : p.header.strings = p.header.symbols + p.table.entries.length * 16
  stop : p.stop = p.header.strings + p.table.strings.length
  table : p.table.Inv limit (Symbols.ordered o)
  few : p.table.entries.length ≤ 2 ^ 24
  size : p.stop = fileSize o
  bound : p.stop ≤ limit

theorem planFile_spec {p : FilePlan} (hlimit : limit < 2 ^ 32) (h : planFile o limit = .ok p) :
    p.Spec o limit := by
  obtain ⟨_, hvalidate, h₁⟩ := bind_ok_iff.mp h
  obtain ⟨_, hformat, h₂⟩ := bind_ok_iff.mp h₁
  obtain ⟨_, -, h₃⟩ := bind_ok_iff.mp h₂
  obtain ⟨start, hstart, h₄⟩ := bind_ok_iff.mp h₃
  obtain ⟨_, -, h₅⟩ := bind_ok_iff.mp h₄
  obtain ⟨plans, hplans, h₆⟩ := bind_ok_iff.mp h₅
  obtain ⟨occupied, hoccupied, h₇⟩ := bind_ok_iff.mp h₆
  obtain ⟨_, hdisjoint, h₈⟩ := bind_ok_iff.mp h₇
  obtain ⟨relocations, hrelocations, h₉⟩ := bind_ok_iff.mp h₈
  obtain ⟨⟨layouts, at'⟩, hplaced, h₁₀⟩ := bind_ok_iff.mp h₉
  obtain ⟨⟨table, groups⟩, hsymbols, h₁₁⟩ := bind_ok_iff.mp h₁₀
  obtain ⟨_, hfew, h₁₂⟩ := bind_ok_iff.mp h₁₁
  obtain ⟨strings, hstrings, h₁₃⟩ := bind_ok_iff.mp h₁₂
  obtain ⟨size, hsize, h₁₄⟩ := bind_ok_iff.mp h₁₃
  cases h₁₄
  have hvalid := ObjectFile.validate_valid hvalidate
  have hchecked := relocationsChecked hvalid (require_ok_iff.mp hformat) hoccupied
    (require_ok_iff.mp hdisjoint)
  obtain ⟨rfl, hstartLe⟩ := grow_ok hstart
  obtain ⟨hrelocationsEq, hrelocationsLe⟩ := grow_ok hrelocations
  obtain ⟨hstringsEq, -⟩ := grow_ok hstrings
  obtain ⟨hsizeEq, hsizeLe⟩ := grow_ok hsize
  have hlaid := laidOut_of_plan hchecked hlimit ⟨Nat.zero_add _, hstartLe⟩ hplans
    ⟨by omega, hrelocationsLe⟩ hplaced
  have hend : plans.cursor = dataEnd o := by
    have hcursor := planSections_stop hplans
    rwa [Nat.zero_add] at hcursor
  have hat := planRelocations_stop hplaced
  have hlayouts : plans.layouts.length = o.sections.length := by
    have hall := (planSections_ok hplans hstartLe (by decide)).1
    exact hall.length_eq.symm
  obtain ⟨htable, -⟩ := Symbols.plan_ok hsymbols
  have hstringSize := symbolsPlan_stop hsymbols
  have hentries : table.entries.length = (symbolNames o).length := by
    rw [← Symbols.map_ordered, List.length_map]
    exact htable.entries.length_eq
  rw [hlayouts, recordCount_all hvalid] at hat
  rw [Nat.zero_add, hend] at hlaid
  dsimp only at hat htable hstringSize hstringsEq hlaid
  exact {
    checked := hchecked
    laid := ⟨plans.memory, hlaid⟩
    sections := rfl
    strings := hstringsEq
    stop := hsizeEq
    table := htable
    few := require_ok_iff.mp hfew
    size := by
      show size = fileSize o
      unfold fileSize
      rw [hsizeEq, hstringsEq, hat, hrelocationsEq, hend, hentries, hstringSize]
    bound := hsizeLe }

variable {bytes : List UInt8}

theorem emitFile_length {p : FilePlan} (hplan : p.Spec o limit) (hemit : emitFile o p = .ok bytes) :
    bytes.length = p.stop := by
  obtain ⟨out, hsections, h₁⟩ := bind_ok_iff.mp hemit
  obtain ⟨out', hrecords, h₂⟩ := bind_ok_iff.mp h₁
  cases h₂
  obtain ⟨memory, hlaid⟩ := hplan.laid
  exact (fileHolds_of_emit hplan.checked hlaid hplan.sections hplan.strings hplan.stop hsections
    hrecords).2

/-- The size of an accepted object's file is that of the object. -/
theorem length_write {limit : UInt64} (h : write o limit = .ok bytes) :
    bytes.length = fileSize o := by
  rw [write_eq] at h
  obtain ⟨p, hplan, hemit⟩ := bind_ok_iff.mp h
  have hspec := planFile_spec (by omega) hplan
  rw [emitFile_length hspec hemit, hspec.size]

/-- An object is written with a limit when it is written with every greater one, its file fits
and so does the estimate of its symbols and relocations. -/
theorem write_limit (o : ObjectFile) {limit : UInt64} (hlimit : limit.toNat ≤ 2 ^ 32 - 1)
    (bytes : List UInt8) : write o limit = .ok bytes ↔
      write o 0xffffffff = .ok bytes ∧ bytes.length ≤ limit.toNat ∧
        (o.symbols.length + o.relocations.length) * 16 ≤ limit.toNat := by
  have hplan : Restricts True id (fun bytes => bytes.length ≤ limit.toNat ∧
      (o.symbols.length + o.relocations.length) * 16 ≤ limit.toNat)
      (planFile o limit.toNat >>= emitFile o) (planFile o (2 ^ 32 - 1) >>= emitFile o) := by
    refine (planFile_restricts hlimit o).bind fun p hp => Restricts.same fun bytes hbytes => ?_
    rw [emitFile_length (planFile_spec (by decide) hp) hbytes]
  rw [write_eq, write_eq, Nat.min_eq_left hlimit]
  exact hplan.ok_iff

/-! ## The objects that Mach-O can hold

`Encodable` collects what the writer asks of an object apart from any limit. With the greatest
limit the writer accepts exactly the encodable objects (`write_accepts`). -/

/-! ## Sections in memory -/

/-- The section can stand in memory behind `memory`, and then ends at `stop`. -/
structure Standing (s : Section) (memory stop : Nat) : Prop where
  name : (asBytes s.name).length ≤ 16
  align : isPowerOfTwo (max s.align.toNat 1) = true ∧ max s.align.toNat 1 ≤ 2 ^ 31
  mapped : ¬ (16 < (asBytes (Sections.mappedName s.name)).length ∨
    Sections.mappedName s.name = "" ∨ '\x00' ∈ (Sections.mappedName s.name).toList)
  room : memory + (max s.align.toNat 1 - 1) < wordBound
  stop : ∃ size, s.memorySize = some size ∧ stop < wordBound ∧
    alignDown (memory + (max s.align.toNat 1 - 1)) (max s.align.toNat 1) + size = stop

/-- All sections can stand behind `memory`, under names that differ from each other and from
`names`. -/
inductive Placeable : List Section → List (String × String) → Nat → Prop
  | nil (names : List (String × String)) (memory : Nat) : Placeable [] names memory
  | cons {s : Section} {sections : List Section} {names : List (String × String)}
      {memory stop : Nat} (standing : Standing s memory stop)
      (fresh : (Sections.segment s.kind, Sections.mappedName s.name) ∉ names)
      (rest : Placeable sections
        ((Sections.segment s.kind, Sections.mappedName s.name) :: names) stop) :
      Placeable (s :: sections) names memory

theorem grow_of_le {cursor bytes limit : Nat} (h : cursor + bytes ≤ limit)
    (hlimit : limit < wordBound) : grow cursor bytes limit = .ok (cursor + bytes) := by
  refine orThrow_ok_iff.mpr (Option.filter_eq_some_iff.mpr ⟨?_, decide_eq_true h⟩)
  exact checkedAdd_eq_some.mpr ⟨rfl, by omega⟩

theorem le_dataStop (cursor : Nat) (s : Section) : cursor ≤ dataStop cursor s := by
  unfold dataStop
  split
  · exact Nat.le_refl _
  · dsimp only
    omega

theorem le_foldl_dataStop (sections : List Section) (cursor : Nat) :
    cursor ≤ sections.foldl dataStop cursor := by
  induction sections generalizing cursor with
  | nil => exact Nat.le_refl _
  | cons s sections ih => exact Nat.le_trans (le_dataStop cursor s) (ih _)

theorem planData_succeeds {s : Section} {cursor limit : Nat} (h : dataStop cursor s ≤ limit)
    (hlimit : limit < wordBound) :
    ∃ r, Sections.planData s (max s.align.toNat 1) cursor limit = .ok r := by
  unfold dataStop at h
  unfold Sections.planData
  by_cases hno : s.kind = .bss ∨ s.data = []
  · rw [if_pos hno]
    exact ⟨_, rfl⟩
  · rw [if_neg hno] at h ⊢
    dsimp only at h ⊢
    rw [grow_of_le (by omega) hlimit, ok_bind, grow_of_le h hlimit]
    exact ⟨_, rfl⟩

theorem plan_standing {s : Section} {memory cursor limit : Nat} {p : Sections.Plan}
    (h : Sections.plan s memory cursor limit = .ok p) : Standing s memory p.memory ∧
      p.layout.segment = Sections.segment s.kind ∧
        p.layout.name = Sections.mappedName s.name := by
  obtain ⟨_, hname, h₁⟩ := bind_ok_iff.mp h
  obtain ⟨_, halign, h₂⟩ := bind_ok_iff.mp h₁
  obtain ⟨_, hmapped, h₃⟩ := bind_ok_iff.mp h₂
  obtain ⟨aligned, haligned, h₄⟩ := bind_ok_iff.mp h₃
  obtain ⟨size, hsize, h₅⟩ := bind_ok_iff.mp h₄
  obtain ⟨stop, hstop, h₆⟩ := bind_ok_iff.mp h₅
  obtain ⟨data, -, h₇⟩ := bind_ok_iff.mp h₆
  cases h₇
  obtain ⟨rfl, hroom⟩ := checkedAdd_eq_some.mp (orThrow_ok_iff.mp haligned)
  obtain ⟨hend, hbound⟩ := checkedAdd_eq_some.mp (orThrow_ok_iff.mp hstop)
  refine ⟨?_, rfl, rfl⟩
  exact {
    name := require_ok_iff.mp hname
    align := require_ok_iff.mp halign
    mapped := require_ok_iff.mp hmapped
    room := hroom
    stop := ⟨size, orThrow_ok_iff.mp hsize, hbound, hend⟩ }

theorem plan_succeeds {s : Section} {memory stop cursor limit : Nat}
    (h : Standing s memory stop) (hdata : dataStop cursor s ≤ limit)
    (hlimit : limit < wordBound) :
    ∃ p, Sections.plan s memory cursor limit = .ok p ∧ p.memory = stop := by
  obtain ⟨size, hsize, hbound, hend⟩ := h.stop
  obtain ⟨data, hplan⟩ := planData_succeeds hdata hlimit
  have haligned : checkedAdd memory (max s.align.toNat 1 - 1) =
      some (memory + (max s.align.toNat 1 - 1)) := checkedAdd_eq_some.mpr ⟨rfl, h.room⟩
  have hstop : checkedAdd (alignDown (memory + (max s.align.toNat 1 - 1))
      (max s.align.toNat 1)) size = some stop := checkedAdd_eq_some.mpr ⟨hend, hbound⟩
  unfold Sections.plan
  rw [require_of h.name, ok_bind]
  dsimp only
  rw [require_of h.align, ok_bind, require_of h.mapped, ok_bind, haligned, orThrow_some, ok_bind,
    hsize, orThrow_some, ok_bind, hstop, orThrow_some, ok_bind, hplan, ok_bind]
  exact ⟨_, rfl, rfl⟩

theorem placeable_of_planSections {limit memory cursor : Nat} {sections : List Section}
    {names : List (String × String)} {p : SectionPlans}
    (h : planSections limit sections names memory cursor = .ok p) :
    Placeable sections names memory := by
  induction sections generalizing names memory cursor p with
  | nil => exact .nil _ _
  | cons s sections ih =>
      obtain ⟨q, hplan, h₁⟩ := bind_ok_iff.mp h
      obtain ⟨_, hfresh, h₂⟩ := bind_ok_iff.mp h₁
      obtain ⟨rest, hrest, -⟩ := bind_ok_iff.mp h₂
      obtain ⟨hstanding, hsegment, hname⟩ := plan_standing hplan
      have hnew := require_ok_iff.mp hfresh
      rw [hsegment, hname] at hnew hrest
      exact .cons hstanding hnew (ih hrest)

theorem planSections_succeeds {limit memory cursor : Nat} {sections : List Section}
    {names : List (String × String)} (h : Placeable sections names memory)
    (hdata : sections.foldl dataStop cursor ≤ limit) (hlimit : limit < wordBound) :
    ∃ p, planSections limit sections names memory cursor = .ok p := by
  induction h generalizing cursor with
  | nil names memory => exact ⟨_, rfl⟩
  | @cons s sections names memory stop standing fresh rest ih =>
      rw [List.foldl_cons] at hdata
      have hfirst := Nat.le_trans (le_foldl_dataStop sections _) hdata
      obtain ⟨q, hplan, rfl⟩ := plan_succeeds standing hfirst hlimit
      obtain ⟨-, hsegment, hname⟩ := plan_standing hplan
      rw [← plan_stop hplan] at hdata
      obtain ⟨p, hp⟩ := ih hdata
      unfold planSections
      rw [hplan, ok_bind]
      dsimp only
      rw [hsegment, hname, require_of fresh, ok_bind, hp]
      exact ⟨_, rfl⟩

/-! ## Relocations and symbols -/

theorem planRelocations_succeeds {limit index cursor : Nat} {layouts : List Sections.Layout}
    (h : cursor + recordCount o index layouts.length * 8 ≤ limit) (hlimit : limit < wordBound) :
    ∃ r, planRelocations o limit layouts index cursor = .ok r := by
  induction layouts generalizing index cursor with
  | nil => exact ⟨_, rfl⟩
  | cons l layouts ih =>
      rw [List.length_cons, recordCount_succ] at h
      have hplace : place (records o index).length cursor limit =
          .ok (cursor + (records o index).length * 8) := by
        unfold place
        by_cases hzero : (records o index).length = 0
        · rw [if_pos hzero, hzero]
          rfl
        · rw [if_neg hzero]
          exact grow_of_le (by omega) hlimit
      obtain ⟨r, hr⟩ := @ih (index + 1) (cursor + (records o index).length * 8) (by omega)
      unfold planRelocations
      dsimp only
      rw [hplace, ok_bind, hr]
      exact ⟨_, rfl⟩

/-- The writer has neither weak nor hidden symbols, and undefined ones are global. -/
def Plain (s : ObjectSymbol) : Prop :=
  ¬ (s.binding = .weak ∨ s.visibility ≠ .default) ∧
    ¬ (s.sectionIndex = none ∧ s.binding ≠ .global)

theorem classify_iff {symbols : List ObjectSymbol} {g : Symbols.Groups × List String} :
    (∃ g', symbols.foldlM Symbols.classify g = .ok g') ↔ ∀ s ∈ symbols, Plain s := by
  induction symbols generalizing g with
  | nil => exact ⟨fun _ s hs => (nomatch hs), fun _ => ⟨g, rfl⟩⟩
  | cons s symbols ih =>
      rw [List.forall_mem_cons, List.foldlM_cons]
      unfold Symbols.classify
      constructor
      · rintro ⟨g', h⟩
        obtain ⟨g₁, hstep, hrest⟩ := bind_ok_iff.mp h
        obtain ⟨_, hshown, h₁⟩ := bind_ok_iff.mp hstep
        obtain ⟨_, hglobal, -⟩ := bind_ok_iff.mp h₁
        exact ⟨⟨require_ok_iff.mp hshown, require_ok_iff.mp hglobal⟩, ih.mp ⟨g', hrest⟩⟩
      · rintro ⟨⟨hshown, hglobal⟩, hrest⟩
        rw [require_of hshown, ok_bind, require_of hglobal, ok_bind]
        exact ih.mpr hrest

theorem push_succeeds {t : Symbols.Table} {s : Symbols.Symbol}
    (h : t.strings.length + ((asBytes s.name).length + 1) ≤ limit) (hlimit : limit < wordBound) :
    ∃ t', Symbols.push limit t s = .ok t' := by
  have hname : checkedAdd t.strings.length (asBytes s.name).length =
      some (t.strings.length + (asBytes s.name).length) :=
    checkedAdd_eq_some.mpr ⟨rfl, by omega⟩
  have hend : checkedAdd (t.strings.length + (asBytes s.name).length) 1 =
      some (t.strings.length + (asBytes s.name).length + 1) :=
    checkedAdd_eq_some.mpr ⟨rfl, by omega⟩
  unfold Symbols.push
  rw [hname, Option.bind_some, hend, Option.filter_some, if_pos (decide_eq_true (by omega))]
  exact ⟨_, rfl⟩

theorem pushAll_succeeds {symbols : List Symbols.Symbol} {t : Symbols.Table}
    (h : t.strings.length + (symbols.map fun s => (asBytes s.name).length + 1).sum ≤ limit)
    (hlimit : limit < wordBound) : ∃ t', symbols.foldlM (Symbols.push limit) t = .ok t' := by
  induction symbols generalizing t with
  | nil => exact ⟨t, rfl⟩
  | cons s symbols ih =>
      rw [List.map_cons, List.sum_cons] at h
      obtain ⟨u, hpush⟩ := push_succeeds (by omega : t.strings.length +
        ((asBytes s.name).length + 1) ≤ limit) hlimit
      rw [List.foldlM_cons, hpush]
      refine @ih u ?_
      rw [push_ok hpush]
      omega

theorem symbolsPlan_succeeds (hplain : ∀ s ∈ o.symbols, Plain s) (hsize : stringSize o ≤ limit)
    (hlimit : limit < wordBound) : ∃ r, Symbols.plan o limit = .ok r := by
  obtain ⟨g, hgroups⟩ := classify_iff.mpr hplain
  unfold stringSize at hsize
  rw [← Symbols.map_ordered, List.map_map] at hsize
  obtain ⟨t, ht⟩ := @pushAll_succeeds limit (Symbols.ordered o)
    { entries := [], indices := [], strings := [0] } hsize hlimit
  rw [(Symbols.plan_eq limit hgroups).1, ht]
  exact ⟨_, rfl⟩

/-! ## Fields -/

variable {machine : Machine}

/-- Whether a field can be patched depends on at most four bytes of the data. -/
theorem patch_succeeds_congr {data data' : List UInt8} {r : ObjectRelocation}
    (hslice : slice data' r.offset 4 = slice data r.offset 4)
    (h : ∃ e, Relocations.patch data r machine = .ok e) :
    ∃ e, Relocations.patch data' r machine = .ok e := by
  obtain ⟨e, h⟩ := h
  obtain ⟨⟨code, width⟩, hencoding, h₁⟩ := bind_ok_iff.mp h
  unfold Relocations.patch
  rw [hencoding, ok_bind]
  dsimp only at h₁ ⊢
  by_cases hwidth : width = 8
  · rw [if_pos hwidth]
    exact ⟨_, rfl⟩
  · rw [if_neg hwidth] at h₁ ⊢
    by_cases hmachine : machine = .aArch64
    · rw [if_pos hmachine] at h₁ ⊢
      obtain ⟨_, hzero, h₂⟩ := bind_ok_iff.mp h₁
      obtain ⟨_, hword, -⟩ := bind_ok_iff.mp h₂
      rw [hzero, ok_bind, hslice, hword]
      exact ⟨_, rfl⟩
    · rw [if_neg hmachine] at h₁ ⊢
      obtain ⟨_, hlow, h₂⟩ := bind_ok_iff.mp h₁
      obtain ⟨_, hhigh, -⟩ := bind_ok_iff.mp h₂
      rw [hlow, ok_bind, hhigh]
      exact ⟨_, rfl⟩

/-- A patched field does not matter for another one that lies apart. -/
theorem patch_iff_of_apart {data data' : List UInt8} {r r' : ObjectRelocation}
    {e : Nat × Bool × Nat} (h : Relocations.patch data r machine = .ok (data', e))
    (hinside : ∀ e, r.kind.machEncoding machine = some e → r.offset + e.2 ≤ data.length)
    (hapart : Apart machine r r') :
    (∃ e, Relocations.patch data' r' machine = .ok e) ↔
      ∃ e, Relocations.patch data r' machine = .ok e := by
  obtain ⟨code, pc, width⟩ := e
  obtain ⟨henc, -, field, hfield, rfl, -⟩ := patch_ok h
  have hroom : r.offset + field.length ≤ data.length := by
    rw [hfield]
    exact hinside _ henc
  have hslice : ∀ e', r'.kind.machEncoding machine = some e' →
      slice (patch data r.offset field) r'.offset 4 = slice data r'.offset 4 := by
    intro e' henc'
    have hwidth : 4 ≤ e'.2 := by
      rcases machEncoding_cases henc' with ⟨-, rfl⟩ | ⟨-, rfl⟩ | ⟨-, rfl | rfl⟩ <;> decide
    have hdisjoint := hapart _ _ henc henc'
    dsimp only at hdisjoint
    exact (SameOutside.patch hroom).slice fun k h₁ h₂ h₃ => by omega
  constructor
  · rintro ⟨e, hpatch⟩
    obtain ⟨e', hencoding, -⟩ := bind_ok_iff.mp hpatch
    exact patch_succeeds_congr (hslice e' (orThrow_ok_iff.mp hencoding)).symm ⟨e, hpatch⟩
  · rintro ⟨e, hpatch⟩
    obtain ⟨e', hencoding, -⟩ := bind_ok_iff.mp hpatch
    exact patch_succeeds_congr (hslice e' (orThrow_ok_iff.mp hencoding)) ⟨e, hpatch⟩

variable {rs : List ObjectRelocation}

/-- When all fields are patched one after the other, each can be patched on its own. -/
theorem Patches.each {data data' : List UInt8} (h : Patches machine data rs data')
    (hinside : ∀ r ∈ rs, ∀ e, r.kind.machEncoding machine = some e → r.offset + e.2 ≤ data.length)
    (hapart : rs.Pairwise (Apart machine)) :
    ∀ r ∈ rs, ∃ e, Relocations.patch data r machine = .ok e := by
  induction h with
  | nil data => exact fun r hr => nomatch hr
  | @cons data data₁ data₂ r rs e first rest ih =>
      obtain ⟨hhead, htail⟩ := List.pairwise_cons.mp hapart
      have hfirst := hinside r List.mem_cons_self
      have hlength : data₁.length = data.length := by
        obtain ⟨code, pc, width⟩ := e
        obtain ⟨henc, -, field, hfield, rfl, -⟩ := patch_ok first
        exact length_patch (by rw [hfield]; exact hfirst _ henc)
      rw [List.forall_mem_cons]
      refine ⟨⟨_, first⟩, fun r' hr' => ?_⟩
      refine (patch_iff_of_apart first hfirst (hhead r' hr')).mp ?_
      refine ih (fun r hr => ?_) htail r' hr'
      rw [hlength]
      exact hinside r (List.mem_cons_of_mem _ hr)

/-- When each field can be patched on its own, the relocations are emitted. -/
theorem emitRelocations_succeeds (indices : AssocMap String Nat) {data length : Nat}
    {out d : List UInt8} {at' : Nat} (hpatch : ∀ r ∈ rs, ∃ e, Relocations.patch d r machine = .ok e)
    (hdata : Holds out data d) (hlength : d.length = length)
    (hinside : ∀ r ∈ rs, ∀ e, r.kind.machEncoding machine = some e → r.offset + e.2 ≤ length)
    (hapart : rs.Pairwise (Apart machine)) (hbehind : data + length ≤ at')
    (hroom : at' + rs.length * 8 ≤ out.length) :
    ∃ out', Relocations.emit data length machine indices out at' rs = .ok out' := by
  induction rs generalizing out d at' with
  | nil => exact ⟨out, rfl⟩
  | cons r rs ih =>
      rw [List.length_cons] at hroom
      obtain ⟨hhead, htail⟩ := List.pairwise_cons.mp hapart
      obtain ⟨⟨d', code, pc, width⟩, hfirst⟩ := hpatch r List.mem_cons_self
      have hfits := hinside r List.mem_cons_self
      obtain ⟨hframe, hlength', hdata', -⟩ := emitRelocation_ok indices hfirst hdata hlength hfits
        hbehind (by omega)
      obtain ⟨out', hout'⟩ := @ih _ d' (at' + 8)
        (fun r' hr' => (patch_iff_of_apart hfirst (by rw [hlength]; exact hfits)
          (hhead r' hr')).mpr (hpatch r' (List.mem_cons_of_mem _ hr')))
        hdata' hlength' (fun r' hr' => hinside r' (List.mem_cons_of_mem _ hr')) htail
        (by omega) (by rw [hframe.length]; omega)
      have hslice : slice out data length = d := by
        rw [← hlength]
        exact hdata.2
      unfold Relocations.emit
      rw [hslice, hfirst, ok_bind]
      exact ⟨out', hout'⟩

/-! ## Emission -/

theorem emitSection_succeeds (indices : AssocMap String Nat) {out : List UInt8}
    {dataEnd stop index : Nat} {s : Section} {l : Sections.Layout}
    (hpatch : ∀ r ∈ rs, ∃ e, Relocations.patch s.data r machine = .ok e)
    (hfits : Fits dataEnd stop index s l rs) (hroom : stop ≤ out.length)
    (hinside : ∀ r ∈ rs, ∀ e, r.kind.machEncoding machine = some e →
      r.offset + e.2 ≤ s.data.length) (hapart : rs.Pairwise (Apart machine))
    (hzero : Holds out (104 + index * 80) (List.replicate 32 0)) :
    ∃ out', Relocations.emit l.data s.data.length machine indices
      (Sections.emit out index l s) l.relocs rs = .ok out' := by
  by_cases hnone : rs = []
  · subst hnone
    exact ⟨_, rfl⟩
  · obtain ⟨hframe, hholds⟩ := emit_ok hfits hroom hzero
    obtain ⟨hsome, hbehind, hend⟩ := hfits.relocs hnone
    obtain ⟨-, hhigh⟩ := hfits.data hsome
    have hlength := hframe.length
    exact emitRelocations_succeeds indices hpatch (hholds.data hsome) rfl hinside hapart
      (by omega) (by omega)

/-- All sections are emitted, by induction on them. -/
theorem emitSections_succeeds (indices : AssocMap String Nat)
    {sections : List (Section × Sections.Layout)} {out : List UInt8} {dataEnd stop index : Nat}
    (hpatch : ∀ (i : Nat) (e : Section × Sections.Layout), sections[i]? = some e →
      ∀ r ∈ records o (index + i), ∃ e', Relocations.patch e.1.data r o.target.machine = .ok e')
    (hapart : ∀ i, (records o i).Pairwise (Apart o.target.machine))
    (hplacing : Placing o dataEnd stop out index sections) :
    ∃ out', emitSections o indices out index sections = .ok out' := by
  induction sections generalizing out index with
  | nil => exact ⟨out, rfl⟩
  | cons e sections ih =>
      obtain ⟨s, l⟩ := e
      have hindex : ∀ i, index + (i + 1) = index + 1 + i := fun i => by omega
      have hfirst := hplacing.fits 0 _ rfl
      have hinside := hplacing.inside 0 _ rfl
      have hheader := hplacing.zero 0 (Nat.succ_pos _)
      obtain ⟨out₁, hstep⟩ := emitSection_succeeds indices (hpatch 0 _ rfl) hfirst hplacing.room
        hinside (hapart index) hheader
      obtain ⟨hframe, -⟩ := emitSection_ok hstep hfirst hplacing.room hinside hheader
      obtain ⟨out', hrest⟩ := @ih out₁ (index + 1)
        (fun i e he => by
          rw [← hindex]
          exact hpatch (i + 1) e he)
        (hplacing.rest hframe)
      unfold emitSections
      dsimp only
      rw [Nat.add_zero] at hstep
      rw [hstep, ok_bind]
      exact ⟨out', hrest⟩

theorem symbolsEmit_succeeds {layouts : List Sections.Layout} {symbols : List Symbols.Symbol}
    (h : ∀ s ∈ symbols, ∃ v, Symbols.value layouts s = .ok v) (out : List UInt8) (at' : Nat) :
    ∃ out', Symbols.emit layouts out at' symbols = .ok out' := by
  induction symbols generalizing out at' with
  | nil => exact ⟨out, rfl⟩
  | cons s symbols ih =>
      obtain ⟨⟨v, hv⟩, hrest⟩ := List.forall_mem_cons.mp h
      obtain ⟨out', hout'⟩ := ih hrest (writes out (Symbols.parts at' s v)) (at' + 16)
      unfold Symbols.emit
      rw [hv, ok_bind]
      exact ⟨out', hout'⟩

/-- What the writer asks of an object apart from the limit. -/
structure Encodable (o : ObjectFile) : Prop where
  valid : o.validate = .ok ()
  format : o.target.format = .machO64
  sections : o.sections.length ≤ 255
  placeable : Placeable o.sections [] 0
  fields : ∃ occupied, o.relocations.mapM (occupiedField o.target.machine) = .ok occupied ∧
    neighboursDisjoint (occupied.insertionSort FieldLe) = true
  plain : ∀ s ∈ o.symbols, Plain s
  few : (symbolNames o).length ≤ 2 ^ 24
  patched : ∀ r ∈ o.relocations, ∀ s, o.sections[r.sectionIndex]? = some s →
    ∃ e, Relocations.patch s.data r o.target.machine = .ok e
  size : fileSize o ≤ 2 ^ 32 - 1
  staged : (o.symbols.length + o.relocations.length) * 16 ≤ 2 ^ 32 - 1

/-- The address of a symbol is inside its section, so it has 64 bits. -/
theorem value_succeeds (hvalid : o.validate = .ok ()) {memory start dataEnd stop : Nat}
    {layouts : List Sections.Layout} (hlaid : LaidOut o memory start dataEnd stop layouts)
    {s : Symbols.Symbol} (hs : s ∈ Symbols.ordered o) : ∃ v, Symbols.value layouts s = .ok v := by
  unfold Symbols.value
  cases hsection : s.sectionIndex with
  | none => exact ⟨0, rfl⟩
  | some n =>
      rcases mem_ordered hs with ⟨s', hs', rfl⟩ | ⟨r, -, rfl⟩
      · obtain ⟨sec, hsec, hextent⟩ := ObjectFile.validate_extent hvalid hs' hsection
        have hn := (List.getElem?_eq_some_iff.mp hsec).1
        obtain ⟨l, hl⟩ : ∃ l, layouts[n]? = some l :=
          ⟨_, List.getElem?_eq_getElem (hlaid.length.symm ▸ hn)⟩
        have hplanned := hlaid.planned n sec l hsec hl
        have hsize := hextent _ hplanned.size
        have haddress := hplanned.address.2
        have hmemory := hlaid.memoryBound
        refine ⟨_, orThrow_ok_iff.mpr (checkedAdd_eq_some.mpr ⟨rfl, ?_⟩)⟩
        rw [hl]
        show l.address + s'.value.toNat < 2 ^ 64
        omega
      · cases hsection

theorem emitFile_succeeds {p : FilePlan} (h : Encodable o) (hplan : p.Spec o limit) :
    ∃ bytes, emitFile o p = .ok bytes := by
  obtain ⟨memory, hlaid⟩ := hplan.laid
  have hstrings := hplan.strings
  have hsize := hplan.stop
  have hplacing := hlaid.placing hplan.checked hplan.sections (by omega : p.header.symbols ≤ p.stop)
  obtain ⟨out, hsections⟩ := emitSections_succeeds p.table.indices
    (fun i e he r hr => by
      rw [Nat.zero_add] at hr
      obtain ⟨hmem, rfl⟩ := mem_records.mp hr
      exact h.patched r hmem e.1 (List.getElem?_zip_eq_some.mp he).1)
    hplan.checked.records_apart hplacing
  have hvalues : ∀ s ∈ p.table.entries, ∃ v, Symbols.value p.layouts s = .ok v := by
    intro s hs
    obtain ⟨s', hs', hnamed⟩ := exists_of_forall₂ hplan.table.entries hs
    have hvalue := value_succeeds h.valid hlaid hs'
    rw [hnamed.same]
    exact hvalue
  obtain ⟨out', hrecords⟩ := symbolsEmit_succeeds hvalues out p.header.symbols
  unfold emitFile
  dsimp only
  rw [hsections, ok_bind, hrecords]
  exact ⟨_, rfl⟩

/-! ## Acceptance -/

theorem planFile_succeeds (h : Encodable o) : ∃ p, planFile o (2 ^ 32 - 1) = .ok p := by
  have hlimit : 2 ^ 32 - 1 < wordBound := by decide
  have hvalid := ObjectFile.validate_valid h.valid
  have hsize := h.size
  unfold fileSize at hsize
  -- Each sum of the plan is at most the size of the file, which is within the limit.
  have hheaders : 232 + o.sections.length * 80 ≤ dataEnd o := le_foldl_dataStop _ _
  have hstart : grow 0 (232 + o.sections.length * 80) (2 ^ 32 - 1) =
      .ok (232 + o.sections.length * 80) := by
    rw [grow_of_le (by omega) hlimit, Nat.zero_add]
  have hstaged : o.symbols.length + o.relocations.length ≤ (2 ^ 32 - 1) / 16 :=
    (Nat.le_div_iff_mul_le (by decide)).mpr h.staged
  obtain ⟨plans, hplans⟩ := @planSections_succeeds (2 ^ 32 - 1) 0
    (232 + o.sections.length * 80) o.sections [] h.placeable
    (by show dataEnd o ≤ _; omega) hlimit
  have hcursor : plans.cursor = dataEnd o := planSections_stop hplans
  have hcount : plans.layouts.length = o.sections.length :=
    (planSections_ok hplans (by omega) (by decide)).1.length_eq.symm
  obtain ⟨occupied, hoccupied, hdisjoint⟩ := h.fields
  have hrelocations : grow plans.cursor ((4 - plans.cursor % 4) % 4) (2 ^ 32 - 1) =
      .ok (plans.cursor + (4 - plans.cursor % 4) % 4) := by
    rw [hcursor]
    exact grow_of_le (by omega) hlimit
  obtain ⟨⟨layouts, at'⟩, hplaced⟩ := @planRelocations_succeeds o (2 ^ 32 - 1) 0
    (plans.cursor + (4 - plans.cursor % 4) % 4) plans.layouts
    (by rw [hcursor, hcount, recordCount_all hvalid]; omega) hlimit
  have hat := planRelocations_stop hplaced
  rw [hcursor, hcount, recordCount_all hvalid] at hat
  dsimp only at hat
  obtain ⟨⟨table, groups⟩, hsymbols⟩ := @symbolsPlan_succeeds (2 ^ 32 - 1) o h.plain
    (by omega) hlimit
  have hstringSize := symbolsPlan_stop hsymbols
  have hentries : table.entries.length = (symbolNames o).length := by
    rw [← Symbols.map_ordered, List.length_map]
    exact (Symbols.plan_ok hsymbols).1.entries.length_eq
  have hfew : table.entries.length ≤ 0x1000000 := by
    rw [hentries]
    exact h.few
  dsimp only at hstringSize
  have hstrings : grow at' (table.entries.length * 16) (2 ^ 32 - 1) =
      .ok (at' + table.entries.length * 16) := grow_of_le (by omega) hlimit
  have hstop : grow (at' + table.entries.length * 16) table.strings.length (2 ^ 32 - 1) =
      .ok (at' + table.entries.length * 16 + table.strings.length) := grow_of_le (by omega) hlimit
  unfold planFile
  rw [h.valid, ok_bind, require_of h.format, ok_bind, require_of h.sections, ok_bind, hstart,
    ok_bind, require_of hstaged, ok_bind, hplans, ok_bind, hoccupied, ok_bind,
    require_of hdisjoint, ok_bind, hrelocations, ok_bind, hplaced, ok_bind]
  dsimp only
  rw [hsymbols, ok_bind]
  dsimp only
  rw [require_of hfew, ok_bind, hstrings, ok_bind, hstop]
  exact ⟨_, rfl⟩

theorem encodable_of_write (h : write o 0xffffffff = .ok bytes) : Encodable o := by
  rw [write_eq] at h
  obtain ⟨p, hplan, hemit⟩ := bind_ok_iff.mp h
  have hspec := planFile_spec (by decide) hplan
  obtain ⟨memory, hlaid⟩ := hspec.laid
  obtain ⟨u, hvalidate, h₁⟩ := bind_ok_iff.mp hplan
  obtain ⟨_, hformat, h₂⟩ := bind_ok_iff.mp h₁
  obtain ⟨_, hsections, h₃⟩ := bind_ok_iff.mp h₂
  obtain ⟨start, -, h₄⟩ := bind_ok_iff.mp h₃
  obtain ⟨_, hstaged, h₅⟩ := bind_ok_iff.mp h₄
  obtain ⟨plans, hplans, h₆⟩ := bind_ok_iff.mp h₅
  obtain ⟨occupied, hoccupied, h₇⟩ := bind_ok_iff.mp h₆
  obtain ⟨_, hdisjoint, h₈⟩ := bind_ok_iff.mp h₇
  obtain ⟨_, -, h₉⟩ := bind_ok_iff.mp h₈
  obtain ⟨_, -, h₁₀⟩ := bind_ok_iff.mp h₉
  obtain ⟨symbols, hsymbols, -⟩ := bind_ok_iff.mp h₁₀
  obtain ⟨g, hgroups, -⟩ := bind_ok_iff.mp hsymbols
  obtain ⟨out, hemitted, h₁₁⟩ := bind_ok_iff.mp hemit
  obtain ⟨out', hrecords, -⟩ := bind_ok_iff.mp h₁₁
  have hholds := (fileHolds_of_emit hspec.checked hlaid hspec.sections hspec.strings hspec.stop
    hemitted hrecords).1
  exact {
    valid := hvalidate
    format := require_ok_iff.mp hformat
    sections := require_ok_iff.mp hsections
    placeable := placeable_of_planSections hplans
    fields := ⟨occupied, hoccupied, require_ok_iff.mp hdisjoint⟩
    plain := classify_iff.mp ⟨g, hgroups⟩
    few := by
      rw [← Symbols.map_ordered, List.length_map, ← hspec.table.entries.length_eq]
      exact hspec.few
    patched := fun r hr s hs => by
      obtain ⟨l, hl⟩ : ∃ l, p.layouts[r.sectionIndex]? = some l :=
        ⟨_, List.getElem?_eq_getElem (hlaid.length.symm ▸ (List.getElem?_eq_some_iff.mp hs).1)⟩
      have hmem := mem_records.mpr ⟨hr, rfl⟩
      obtain ⟨d, hpatches, -⟩ := (hholds.sections _ s l hs hl).data (hspec.checked.inside hs r hmem).1
      exact hpatches.each (fun r' hr' => (hspec.checked.inside hs r' hr').2)
        (hspec.checked.records_apart _) r hmem
    size := by
      rw [← hspec.size]
      exact hspec.bound
    staged := (Nat.le_div_iff_mul_le (by decide)).mp (require_ok_iff.mp hstaged) }

/-- With the greatest limit the writer accepts the encodable objects and no others. -/
theorem write_accepts (o : ObjectFile) :
    (∃ bytes, write o 0xffffffff = .ok bytes) ↔ Encodable o := by
  constructor
  · rintro ⟨bytes, h⟩
    exact encodable_of_write h
  · intro h
    obtain ⟨p, hplan⟩ := planFile_succeeds h
    obtain ⟨bytes, hemit⟩ := emitFile_succeeds h (planFile_spec (by decide) hplan)
    refine ⟨bytes, ?_⟩
    rw [write_eq]
    exact bind_ok_iff.mpr ⟨p, hplan, hemit⟩

end Whale.MachO
