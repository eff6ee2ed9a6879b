import Whale.Asmobj.Correct

set_option autoImplicit false

/-! # The run of the conversion

The entry as it runs: its rows are stored one by one, and a store behind the end of an array goes
wrong. A run that fails has stored nothing, and behind the checks nothing fails: the emission
makes the choices of the checks again. -/

namespace Whale.Asmobj

/-! ## Stores -/

/-- The output arrays. -/
structure Outputs where
  sections : List Section
  symbols : List Symbol
  relocations : List Relocation

def Arguments.outputs (a : Arguments) : Outputs where
  sections := a.outputSections.rows
  symbols := a.outputSymbols.rows
  relocations := a.outputRelocations.rows

/-- Why a run ends early: it returns a status, or it stores behind the end of an array. -/
inductive Stop where
  | failed (e : Failure)
  | outOfRange

abbrev Run := EStateM Stop Outputs

def storeSection (index : Nat) (row : Section) : Run Unit := do
  let out ← get
  require (index < out.sections.length) Stop.outOfRange
  set { out with sections := out.sections.set index row }

def storeSymbol (index : Nat) (row : Symbol) : Run Unit := do
  let out ← get
  require (index < out.symbols.length) Stop.outOfRange
  set { out with symbols := out.symbols.set index row }

def storeRelocation (index : Nat) (row : Relocation) : Run Unit := do
  let out ← get
  require (index < out.relocations.length) Stop.outOfRange
  set { out with relocations := out.relocations.set index row }

theorem storeSection_run {index : Nat} {out : Outputs} (row : Section)
    (h : index < out.sections.length) :
    storeSection index row out = .ok () { out with sections := out.sections.set index row } := by
  unfold storeSection
  rw [bind_run_ok (get_run out)]
  exact require_bind_ok_iff.mpr ⟨h, rfl⟩

theorem storeSymbol_run {index : Nat} {out : Outputs} (row : Symbol)
    (h : index < out.symbols.length) :
    storeSymbol index row out = .ok () { out with symbols := out.symbols.set index row } := by
  unfold storeSymbol
  rw [bind_run_ok (get_run out)]
  exact require_bind_ok_iff.mpr ⟨h, rfl⟩

theorem storeRelocation_run {index : Nat} {out : Outputs} (row : Relocation)
    (h : index < out.relocations.length) :
    storeRelocation index row out =
      .ok () { out with relocations := out.relocations.set index row } := by
  unfold storeRelocation
  rw [bind_run_ok (get_run out)]
  exact require_bind_ok_iff.mpr ⟨h, rfl⟩

/-! ## The entry -/

def runSections : List Section → Nat → Run Unit
  | [], _ => return ()
  | row :: rows, index => do
      storeSection index (emitSection row)
      runSections rows (index + 1)

def runSymbols : List Symbol → Nat → Run Unit
  | [], _ => return ()
  | row :: rows, index => do
      storeSymbol index row
      runSymbols rows (index + 1)

/-- The index behind the last symbol. Whether the lookups succeed is not looked at. -/
def runRelocations (target : Target) : List Relocation → Nat → Nat → State → Run Nat
  | [], _, next, _ => return next
  | row :: rows, index, next, s => do
      let found := findName s row.name
      let slot := found.1.getD 0
      let selected := relocationKind found.2 target row (found.2.word (slot + 2))
      let chosen := selected.1.toOption.getD (row.kind, 0)
      let s := selected.2
      storeRelocation index (emitRelocation row chosen.1 chosen.2)
      if s.word slot = 2 ∧ s.word (slot + 1) = index then do
        storeSymbol next (emitUndefined row)
        runRelocations target rows (index + 1) (next + 1) s
      else runRelocations target rows (index + 1) next s

/-- The number of output symbols, and the index behind the last one that was stored. -/
def whaleAsmobjRun (a : Arguments) : Run (Nat × Nat) := do
  let p ← orRaise (preflight a) Stop.failed
  runSections a.sections.rows 0
  runSymbols a.symbols.rows 0
  let next ← runRelocations p.target a.relocations.rows 0 a.symbols.rows.length p.state
  return (a.symbols.rows.length + p.missing, next)

/-- The emission from the state `s` on makes the choices again: every lookup finds the slot and
every relocation gets the kind and the code. -/
def Repeats (target : Target) : List Relocation → List Choice → State → Prop
  | [], [], _ => True
  | row :: rows, c :: choices, s =>
      ∃ s₁ s₂, findName s row.name = (some c.slot, s₁) ∧
        relocationKind s₁ target row (s₁.word (c.slot + 2)) = (.ok (c.kind, c.code), s₂) ∧
        s₂.status = 0 ∧ Repeats target rows choices s₂
  | _, _, _ => False

/-! ## Rows that are only copied -/

theorem runSections_ok {rows : List Section} (index : Nat) (out : Outputs)
    (h : index + rows.length ≤ out.sections.length) :
    runSections rows index out =
      .ok () { out with sections := emitSections rows index out.sections } := by
  induction rows generalizing index out with
  | nil => rfl
  | cons row rows ih =>
      rw [List.length_cons] at h
      unfold runSections emitSections
      rw [bind_run_ok (storeSection_run _ (by omega)), ih _ _ (by rw [List.length_set]; omega)]

theorem runSymbols_ok {rows : List Symbol} (index : Nat) (out : Outputs)
    (h : index + rows.length ≤ out.symbols.length) :
    runSymbols rows index out =
      .ok () { out with symbols := copySymbols rows index out.symbols } := by
  induction rows generalizing index out with
  | nil => rfl
  | cons row rows ih =>
      rw [List.length_cons] at h
      unfold runSymbols copySymbols
      rw [bind_run_ok (storeSymbol_run _ (by omega)), ih _ _ (by rw [List.length_set]; omega)]

theorem length_copySymbols (rows : List Symbol) (index : Nat) (out : List Symbol) :
    (copySymbols rows index out).length = out.length := by
  induction rows generalizing index out with
  | nil => rfl
  | cons row rows ih =>
      unfold copySymbols
      rw [ih, List.length_set]

theorem length_emitSections (rows : List Section) (index : Nat) (out : List Section) :
    (emitSections rows index out).length = out.length := by
  induction rows generalizing index out with
  | nil => rfl
  | cons row rows ih =>
      unfold emitSections
      rw [ih, List.length_set]

/-! ## Relocations -/

section

variable {target : Target} {known : List Symbol} {seen rows : List Relocation}
  {choices : List Choice} {row : Relocation} {s : State}

/-- The slot that is found again is the one that was chosen. -/
theorem Chosen.slot_eq {t : Nat} {c : Choice} (h : Chosen target known s row c)
    (htable : TableInv s) (hfound : Probing.Found s.slots s.start s.name row.bytes t) :
    Probing.slotAt s.slots (s.start row.bytes) t * 4 = c.slot := by
  obtain ⟨⟨p, hp, hname, hslot⟩, -⟩ := h
  rw [hslot, htable.consistent.unique (Probing.slotAt_lt htable.slots_pos) hp hfound.2.2 hname]

/-- The loop over the relocations, by induction on them: each one is looked up for what is left
of the work, and stores within the arrays. -/
theorem runRelocations_ok {work : Nat} (index next : Nat) (out : Outputs)
    (h : Content known (seen ++ rows) s) (haffordable : Affordable s rows work)
    (hchosen : List.Forall₂ (Chosen target known s) rows choices) (hindex : index = seen.length)
    (hsymbols : next + (newRows (known.map Symbol.bytes ++ seen.map Relocation.bytes) rows).length ≤
      out.symbols.length)
    (hrelocations : index + rows.length ≤ out.relocations.length) :
    Repeats target rows choices { s with work := work } ∧
      runRelocations target rows index next { s with work := work } out =
        .ok (next + (newRows (known.map Symbol.bytes ++ seen.map Relocation.bytes) rows).length)
          { out with
            symbols := (emitRelocations target rows index next { s with work := work } out.symbols
              out.relocations).1
            relocations := (emitRelocations target rows index next { s with work := work }
              out.symbols out.relocations).2 } := by
  induction hchosen generalizing seen work index next out with
  | nil => exact ⟨trivial, rfl⟩
  | @cons row c rows choices hc _ ih =>
      obtain ⟨t, hfound, hcost, hrest⟩ := haffordable
      obtain ⟨slot, left, hslot, hfind, hflag, hnew, hkind⟩ := h.emit hfound hcost
      rw [hc.slot_eq h.table hfound] at hslot
      subst hslot
      have hall : Content known (seen ++ [row] ++ rows) s := by
        rw [List.append_assoc]
        exact h
      have hlength : index + 1 = (seen ++ [row]).length := by simp [hindex]
      have hkind := hkind (undefinedFlag known row.bytes)
      rw [hc.2] at hkind
      have hword (w at' : Nat) : State.word { s with work := w } at' = s.word at' := rfl
      rw [List.length_cons] at hrelocations
      have hstore := storeRelocation_run (emitRelocation row c.kind c.code)
        (show index < out.relocations.length by omega)
      -- One round of both loops.
      have hrun : runRelocations target (row :: rows) index next { s with work := work } out =
          (if s.word c.slot = 2 ∧ s.word (c.slot + 1) = seen.length then do
              storeSymbol next (emitUndefined row)
              runRelocations target rows (index + 1) (next + 1)
                { s with work := work - s.rowCost row t }
            else runRelocations target rows (index + 1) next
              { s with work := work - s.rowCost row t })
            { out with relocations :=
                out.relocations.set index (emitRelocation row c.kind c.code) } := by
        simp only [runRelocations, hfind, Option.getD_some, hword, hflag, hkind, Except.toOption]
        rw [bind_run_ok hstore, hindex]
      have hemit : emitRelocations target (row :: rows) index next { s with work := work }
          out.symbols out.relocations =
            if s.word c.slot = 2 ∧ s.word (c.slot + 1) = seen.length then
              emitRelocations target rows (index + 1) (next + 1)
                { s with work := work - s.rowCost row t }
                (out.symbols.set next (emitUndefined row))
                (out.relocations.set index (emitRelocation row c.kind c.code))
            else emitRelocations target rows (index + 1) next
              { s with work := work - s.rowCost row t } out.symbols
              (out.relocations.set index (emitRelocation row c.kind c.code)) := by
        simp only [emitRelocations, hfind, Option.getD_some, hword, hflag, hkind, Except.toOption]
        rw [hindex]
      have hrepeats (h : Repeats target rows choices { s with work := work - s.rowCost row t }) :
          Repeats target (row :: rows) (c :: choices) { s with work := work } :=
        ⟨{ s with work := left }, { s with work := work - s.rowCost row t }, hfind,
          by rw [hword, hflag]; exact hkind, hall.status, h⟩
      rw [hrun, hemit]
      rw [newRows_cons] at hsymbols ⊢
      by_cases hmem : row.bytes ∈ known.map Symbol.bytes ++ seen.map Relocation.bytes
      · rw [if_pos hmem] at hsymbols ⊢
        rw [if_neg fun hand => hnew.mp hand hmem, if_neg fun hand => hnew.mp hand hmem]
        obtain ⟨hrest, hrun⟩ := ih (index + 1) next
          { out with
            relocations := out.relocations.set index (emitRelocation row c.kind c.code) }
          hall hrest hlength hsymbols (by rw [List.length_set]; omega)
        exact ⟨hrepeats hrest, hrun⟩
      · rw [if_neg hmem, List.length_cons] at hsymbols
        rw [if_neg hmem, if_pos (hnew.mpr hmem), if_pos (hnew.mpr hmem), List.length_cons,
          bind_run_ok (storeSymbol_run _ (by dsimp only; omega))]
        obtain ⟨hrest, hrun⟩ := ih (index + 1) (next + 1)
          { out with
            symbols := out.symbols.set next (emitUndefined row)
            relocations := out.relocations.set index (emitRelocation row c.kind c.code) }
          hall hrest hlength (by rw [List.length_set]; omega) (by rw [List.length_set]; omega)
        rw [Nat.add_right_comm] at hrun
        exact ⟨hrepeats hrest, hrun⟩

end

/-! ## Statuses -/

/-- The status of a failure is not zero. -/
def Reports {α : Type} (x : Except Failure α) : Prop := ∀ e, x = .error e → e.status ≠ 0

theorem Reports.ok {α : Type} (a : α) : Reports (.ok a) := nofun

theorem Reports.error {α : Type} {status index : Nat} (h : status ≠ 0) :
    Reports (.error { status := status, index := index } : Except Failure α) := by
  intro e he
  cases he
  exact h

theorem Reports.bind {α β : Type} {x : Except Failure α} {f : α → Except Failure β}
    (hx : Reports x) (hf : ∀ a, Reports (f a)) : Reports (x >>= f) := by
  intro e h
  rcases bind_error_iff.mp h with h | ⟨a, -, h⟩
  · exact hx e h
  · exact hf a e h

theorem check_reports {condition : Bool} {status index : Nat} (h : status ≠ 0) :
    Reports (check condition status index) := by
  unfold check
  split
  · exact Reports.ok ()
  · exact Reports.error h

section

variable {s s' : State} {name : Span}

theorem charge_status {amount : Nat} (h : charge s amount = (false, s')) : s'.status = 9 := by
  unfold charge at h
  split at h
  · cases h
    rfl
  · cases h

theorem examine_status {hash slot : Nat} (h : examine name hash s slot = (none, s')) :
    s'.status ≠ 0 := by
  unfold examine at h
  simp only at h
  split at h
  · cases h
  · split at h
    · split at h
      · cases h
        exact Nat.succ_ne_zero 7
      · split at h
        · cases h
        · next hstatus =>
          split at h
          · next hne =>
            cases h
            exact hne
          · cases h
    · cases h

theorem probe_status {hash probes slot : Nat} (h : probe name hash probes s slot = (none, s')) :
    s'.status ≠ 0 := by
  induction probes generalizing s slot with
  | zero =>
      cases h
      exact Nat.succ_ne_zero 6
  | succ probes ih =>
      unfold probe at h
      split at h
      · next hcharge =>
        cases h
        rw [charge_status hcharge]
        exact Nat.succ_ne_zero 8
      · split at h
        · next hexamine =>
          cases h
          exact examine_status hexamine
        · cases h
        · exact ih h

theorem findName_status (h : findName s name = (none, s')) : s'.status ≠ 0 := by
  unfold findName nameHash at h
  rcases hcharge : charge s name.length with ⟨_ | _, s₁⟩
  · rw [hcharge] at h
    cases h
    rw [charge_status hcharge]
    exact Nat.succ_ne_zero 8
  · rw [hcharge] at h
    exact probe_status h

theorem relocationKind_status {target : Target} {r : Relocation} {undefined status : Nat}
    (h : relocationKind s target r undefined = (.error status, s')) : status ≠ 0 := by
  unfold relocationKind at h
  split at h
  · split_ifs at h <;> cases h
  · split at h
    · cases h
    · simp only at h
      split at h
      · next hstatus =>
        cases h
        exact hstatus
      · split at h
        · cases h
          exact Nat.succ_ne_zero 2
        · split_ifs at h <;> cases h <;> exact Nat.succ_ne_zero _

end

theorem checkSections_reports (rows : List Section) (index : Nat) (s : State) :
    Reports (checkSections rows index s) := by
  induction rows generalizing index s with
  | nil => exact Reports.ok s
  | cons row rows ih =>
      unfold checkSections
      rcases charge s 1 with ⟨_ | _, s₁⟩
      · exact Reports.error (by decide)
      · exact (check_reports (by decide)).bind fun _ => ih _ _

theorem registerSymbols_reports (sectionCount : Nat) (rows : List Symbol) (index : Nat)
    (s : State) : Reports (registerSymbols sectionCount rows index s) := by
  induction rows generalizing index s with
  | nil => exact Reports.ok s
  | cons row rows ih =>
      unfold registerSymbols
      rcases charge s 1 with ⟨_ | _, s₁⟩
      · exact Reports.error (by decide)
      · refine (check_reports (by decide)).bind fun _ => (check_reports (by decide)).bind fun _ => ?_
        unfold registerSymbol
        rcases hfind : findName s₁ row.name with ⟨_ | slot, s₂⟩
        · exact Reports.error (findName_status hfind)
        · exact ih _ _

theorem reserveName_reports (target : Target) (sectionCount : Nat) (row : Relocation)
    (index missing : Nat) (s : State) :
    Reports (reserveName target sectionCount row index missing s) := by
  unfold reserveName
  rcases charge s 1 with ⟨_ | _, s₁⟩
  · exact Reports.error (by decide)
  · refine (check_reports (by decide)).bind fun _ => ?_
    rcases hfind : findName s₁ row.name with ⟨_ | slot, s₂⟩
    · exact Reports.error (findName_status hfind)
    · simp only
      rcases hkind : relocationKind s₂ target row
        (if s₂.word slot ≠ 0 then s₂.word (slot + 2) else 1) with ⟨status | ⟨kind, code⟩, s₃⟩
      · exact Reports.error (relocationKind_status hkind)
      · simp only
        split
        · rcases charge s₃ row.name.length with ⟨_ | _, s₄⟩
          · exact Reports.error (by decide)
          · exact Reports.ok _
        · exact Reports.ok _

theorem reserveChoices_reports (target : Target) (sectionCount : Nat) (rows : List Relocation)
    (index missing : Nat) (s : State) :
    Reports (reserveChoices target sectionCount rows index missing s) := by
  induction rows generalizing index missing s with
  | nil => exact Reports.ok _
  | cons row rows ih =>
      unfold reserveChoices
      exact (reserveName_reports _ _ _ _ _ _).bind fun _ => (ih _ _ _).bind fun _ => Reports.ok _

theorem preflight_reports (a : Arguments) : Reports (preflight a) := by
  unfold preflight
  refine (check_reports (by decide)).bind fun _ => ?_
  refine (check_reports (by decide)).bind fun _ => ?_
  refine (check_reports (by decide)).bind fun _ => ?_
  refine (check_reports (by decide)).bind fun _ => ?_
  refine (check_reports (by decide)).bind fun _ => ?_
  refine (check_reports (by decide)).bind fun _ => ?_
  refine (check_reports (by decide)).bind fun _ => ?_
  refine (checkSections_reports _ _ _).bind fun _ => ?_
  refine (registerSymbols_reports _ _ _ _).bind fun _ => ?_
  cases a.target with
  | none => exact Reports.error (by decide)
  | some target =>
      refine (reserveChoices_reports _ _ _ _ _ _).bind fun _ => ?_
      refine (check_reports (by decide)).bind fun _ => ?_
      refine (check_reports (by decide)).bind fun _ => ?_
      exact (check_reports (by decide)).bind fun _ => Reports.ok _

/-! ## The whole run -/

/-- The loop over the relocations after the checks: what they have spent is enough. -/
theorem Prepared.run {a : Arguments} {p : Preflight} {s₀ s₁ : State} (h : Prepared a p s₀ s₁)
    (out : Outputs) (hsymbols : out.symbols.length = a.outputSymbols.rows.length)
    (hrelocations : out.relocations.length = a.outputRelocations.rows.length) :
    Repeats p.target a.relocations.rows p.choices p.state ∧
      runRelocations p.target a.relocations.rows 0 a.symbols.rows.length p.state out =
        .ok (a.symbols.rows.length + p.missing)
          { out with
            symbols := (emitRelocations p.target a.relocations.rows 0 a.symbols.rows.length p.state
              out.symbols out.relocations).1
            relocations := (emitRelocations p.target a.relocations.rows 0 a.symbols.rows.length
              p.state out.symbols out.relocations).2 } := by
  have hreserve := h.reserve
  rcases names_reserved h.table h.symbols h.relocations h.register h.reserve with
    ⟨-, hnone⟩ | ⟨hall, hle⟩
  · rw [hnone] at hreserve ⊢
    obtain ⟨hchoices, hrest⟩ := Prod.mk.inj (Except.ok.inj hreserve)
    rw [← hchoices, ← (Prod.mk.inj hrest).1]
    exact ⟨trivial, rfl⟩
  · have hmissing := hall.missing
    have hle' := hall.same.work
    have hspent := h.spent
    have hroom := h.room
    have hroom' := h.roomRelocations
    rw [hmissing] at hroom ⊢
    exact runRelocations_ok 0 a.symbols.rows.length out hall.content
      (hall.affordable.mono (by omega : s₁.work - p.state.work ≤ p.state.work)) hall.chosen rfl
      (by omega) (by omega)

/-- Behind the checks nothing fails, and the run leaves what the conversion returns. -/
theorem whaleAsmobjRun_of_preflight {a : Arguments} {p : Preflight} (hp : preflight a = .ok p) :
    Repeats p.target a.relocations.rows p.choices p.state ∧
      ∃ out, whaleAsmobjRun a a.outputs =
          .ok (a.symbols.rows.length + p.missing, a.symbols.rows.length + p.missing) out ∧
        whaleAsmobj a = .ok
          { sections := out.sections, symbols := out.symbols, relocations := out.relocations
            symbolCount := a.symbols.rows.length + p.missing } := by
  obtain ⟨s₀, s₁, h⟩ := preflight_ok hp
  have hroom : 0 + a.symbols.rows.length ≤ a.outputSymbols.rows.length := by
    have := h.room
    omega
  have hroom' : 0 + a.sections.rows.length ≤ a.outputSections.rows.length := by
    have := h.roomSections
    omega
  have hsections := runSections_ok 0 a.outputs hroom'
  have hsymbols := runSymbols_ok 0 ⟨emitSections a.sections.rows 0 a.outputs.sections,
    a.outputs.symbols, a.outputs.relocations⟩ hroom
  obtain ⟨hrepeats, hrelocations⟩ := h.run ⟨emitSections a.sections.rows 0 a.outputs.sections,
    copySymbols a.symbols.rows 0 a.outputs.symbols, a.outputs.relocations⟩
    (length_copySymbols _ _ _) rfl
  refine ⟨hrepeats, ⟨emitSections a.sections.rows 0 a.outputs.sections, (emitted a p).1,
    (emitted a p).2⟩, ?_, ?_⟩
  · unfold whaleAsmobjRun
    rw [bind_run_ok (orRaise_run_ok_iff.mpr ⟨hp, rfl⟩), bind_run_ok hsections,
      bind_run_ok hsymbols, bind_run_ok hrelocations]
    rfl
  · rw [whaleAsmobj_eq, hp]
    rfl

/-- A failing check ends the run with its status before anything is stored. -/
theorem whaleAsmobjRun_of_failure {a : Arguments} {e : Failure} (he : preflight a = .error e) :
    whaleAsmobjRun a a.outputs = .error (.failed e) a.outputs ∧ e.status ≠ 0 := by
  refine ⟨?_, preflight_reports a e he⟩
  unfold whaleAsmobjRun
  rw [he]
  rfl

/-- A run that fails has a status other than zero and has stored nothing; behind the checks it
makes their choices again, stores within the arrays, the counted number of undefined symbols among
them, and succeeds. -/
theorem whaleAsmobjRun_exact (a : Arguments) :
    (∀ stop out, whaleAsmobjRun a a.outputs = .error stop out →
      out = a.outputs ∧ ∃ e, stop = .failed e ∧ e.status ≠ 0 ∧ preflight a = .error e) ∧
    ∀ p, preflight a = .ok p →
      Repeats p.target a.relocations.rows p.choices p.state ∧
      ∃ out, whaleAsmobjRun a a.outputs =
          .ok (a.symbols.rows.length + p.missing, a.symbols.rows.length + p.missing) out ∧
        out.sections.length = a.outputSections.rows.length ∧
        out.symbols.length = a.outputSymbols.rows.length ∧
        out.relocations.length = a.outputRelocations.rows.length ∧
        (∃ undefined : List Relocation, undefined.length = p.missing ∧ out.symbols = a.symbols.rows ++
          undefined.map emitUndefined ++
            a.outputSymbols.rows.drop (a.symbols.rows.length + p.missing)) ∧
        whaleAsmobj a = .ok
          { sections := out.sections, symbols := out.symbols, relocations := out.relocations
            symbolCount := a.symbols.rows.length + p.missing } := by
  constructor
  · intro stop out hrun
    cases hp : preflight a with
    | error e =>
        obtain ⟨hfail, hstatus⟩ := whaleAsmobjRun_of_failure hp
        rw [hfail] at hrun
        cases hrun
        exact ⟨rfl, e, rfl, hstatus, rfl⟩
    | ok p =>
        obtain ⟨-, out, hok, -⟩ := whaleAsmobjRun_of_preflight hp
        rw [hok] at hrun
        cases hrun
  · intro p hp
    obtain ⟨hrepeats, out, hok, hresult⟩ := whaleAsmobjRun_of_preflight hp
    obtain ⟨s₀, s₁, h⟩ := preflight_ok hp
    obtain ⟨hmissing, converted, hconverted, hemit⟩ := names_ok h.table h.symbols h.relocations
      h.register h.reserve h.spent h.room h.roomRelocations
    have hconverted := List.Forall₂.length_eq (mapM_ok hconverted)
    have hroom := h.room
    have hroom' := h.roomRelocations
    have hout := hresult
    rw [whaleAsmobj_eq, hp] at hout
    obtain ⟨hsections, hsymbols, hrelocations, -⟩ := Output.mk.inj (Except.ok.inj hout)
    unfold emitted at hsymbols hrelocations
    rw [hemit] at hsymbols hrelocations
    refine ⟨hrepeats, out, hok, ?_, ?_, ?_, ⟨_, hmissing.symm, hsymbols.symm⟩, hresult⟩
    · rw [← hsections, length_emitSections]
    · rw [← hsymbols]
      simp only [List.length_append, List.length_map, List.length_drop, ← hmissing]
      omega
    · rw [← hrelocations]
      simp only [List.length_append, List.length_drop, ← hconverted]
      omega

theorem whaleAsmobjRun_exact_call : ∃ p, preflight callArguments = .ok p ∧ p.missing = 1 ∧
    Repeats p.target callArguments.relocations.rows p.choices p.state ∧
      ∃ out, whaleAsmobjRun callArguments callArguments.outputs = .ok (3, 3) out := by
  have hok : (preflight callArguments).toOption.map Preflight.missing = some 1 := by
    decide +kernel
  cases hp : preflight callArguments with
  | error e =>
      rw [hp] at hok
      cases hok
  | ok p =>
      rw [hp] at hok
      have hmissing : p.missing = 1 := Option.some.inj hok
      obtain ⟨hrepeats, out, hout, -⟩ := (whaleAsmobjRun_exact callArguments).2 p hp
      rw [hmissing] at hout
      exact ⟨p, rfl, hmissing, hrepeats, out, hout⟩

end Whale.Asmobj
