import Mathlib.Data.List.Forall2
import Whale.Asmobj.Checks

set_option autoImplicit false

/-! # The conversion is the map-based one

Emission looks every name up again, in the table that the checks have left and for the work
that the checks have spent. -/

namespace Whale.Asmobj

open Probing

/-! ## Writing rows in order -/

theorem set_length {α : Type} (done : List α) (x y : α) (free : List α) :
    (done ++ x :: free).set done.length y = done ++ y :: free := by
  rw [List.set_append_right _ _ (Nat.le_refl _), Nat.sub_self, List.set_cons_zero]

theorem copySymbols_eq {rows : List Symbol} (index : Nat) (done free : List Symbol)
    (hindex : index = done.length) (hroom : rows.length ≤ free.length) :
    copySymbols rows index (done ++ free) = done ++ rows ++ free.drop rows.length := by
  induction rows generalizing index done free with
  | nil => rw [copySymbols, List.append_nil]; rfl
  | cons row rows ih =>
      cases free with
      | nil => cases hroom
      | cons x free =>
          have hrest := ih (index + 1) (done ++ [row]) free (by simp [hindex])
            (Nat.le_of_succ_le_succ hroom)
          rw [List.append_assoc] at hrest
          unfold copySymbols
          rw [hindex, set_length]
          rw [hindex] at hrest
          refine hrest.trans ?_
          simp

theorem emitSections_eq {rows : List Section} (index : Nat) (done free : List Section)
    (hindex : index = done.length) (hroom : rows.length ≤ free.length) :
    emitSections rows index (done ++ free) =
      done ++ rows.map emitSection ++ free.drop rows.length := by
  induction rows generalizing index done free with
  | nil => rw [emitSections, List.map_nil, List.append_nil]; rfl
  | cons row rows ih =>
      cases free with
      | nil => cases hroom
      | cons x free =>
          have hrest := ih (index + 1) (done ++ [emitSection row]) free (by simp [hindex])
            (Nat.le_of_succ_le_succ hroom)
          rw [List.append_assoc] at hrest
          unfold emitSections
          rw [hindex, set_length]
          rw [hindex] at hrest
          refine hrest.trans ?_
          simp

/-! ## Emission -/

section Emission

variable {target : Target} {known : List Symbol} {seen rows : List Relocation}
  {row : Relocation} {s : State}

/-- One relocation is looked up again: the slot has the flag of the name, and it is owned by
the relocation when the name is new. -/
theorem Content.emit {t work : Nat} (h : Content known (seen ++ row :: rows) s)
    (hfound : Found s.slots s.start s.name row.bytes t) (hwork : s.rowCost row t ≤ work) :
    ∃ slot left, slot = slotAt s.slots (s.start row.bytes) t * 4 ∧
      findName { s with work := work } row.name = (some slot, { s with work := left }) ∧
      s.word (slot + 2) = undefinedFlag known row.bytes ∧
      (s.word slot = 2 ∧ s.word (slot + 1) = seen.length ↔
        row.bytes ∉ known.map Symbol.bytes ++ seen.map Relocation.bytes) ∧
      ∀ undefined, relocationKind { s with work := left } target row undefined =
        (selectKind target row undefined, { s with work := work - s.rowCost row t }) := by
  unfold State.rowCost at hwork
  have hagain : findName { s with work := work } row.name =
      (some (slotAt s.slots (s.start row.bytes) t * 4), { s with
        work := work - (s.pathCost row.bytes t + 1 + 2 * row.name.length) }) :=
    findName_again (h.work work).table h.status hfound (by
      show s.pathCost row.bytes t + 1 + 2 * row.name.length ≤ work
      omega)
  have hslot : slotAt s.slots (s.start row.bytes) t < s.slots := slotAt_lt h.table.slots_pos
  refine ⟨_, _, rfl, hagain, h.flag _ hslot _ hfound.2.2, ?_, fun undefined => ?_⟩
  · rw [List.mem_append]
    rcases h.owner _ hslot _ hfound.2.2 with ⟨hmem, hkind⟩ | ⟨hnot, -, hkind, hindex⟩
    · refine iff_of_false (fun hand => ?_) (fun hnew => hnew (.inl hmem))
      have hone := hkind.symm.trans hand.1
      cases hone
    · rw [List.map_append, List.map_cons] at hindex
      rw [hindex]
      by_cases hseen : row.bytes ∈ seen.map Relocation.bytes
      · -- An earlier relocation owns the slot.
        rw [List.idxOf_append_of_mem hseen]
        have hlt := List.idxOf_lt_length_of_mem hseen
        rw [List.length_map] at hlt
        exact iff_of_false (fun hand => by omega) (fun hnew => hnew (.inr hseen))
      · rw [List.idxOf_append_of_notMem hseen, List.idxOf_cons_self, List.length_map]
        exact iff_of_true ⟨hkind, rfl⟩ fun hmem => hmem.elim hnot hseen
  · have hcost : kindCost row ≤ work - (s.pathCost row.bytes t + 1 + 2 * row.name.length) := by
      omega
    refine (relocationKind_eq (s := { s with
      work := work - (s.pathCost row.bytes t + 1 + 2 * row.name.length) }) h.status hcost).trans ?_
    unfold State.rowCost
    dsimp only
    rw [Nat.sub_sub]

theorem emitRelocations_eq {work : Nat} (index next : Nat) (doneSymbols freeSymbols : List Symbol)
    (doneRelocations freeRelocations : List Relocation)
    (h : Content known (seen ++ rows) s) (haffordable : Affordable s rows work)
    (hselected : ∀ r ∈ rows, ∃ selected,
      selectKind target r (undefinedFlag known r.bytes) = .ok selected)
    (hindex : index = seen.length) (hdone : index = doneRelocations.length)
    (hnext : next = doneSymbols.length)
    (hsymbols : (newRows (known.map Symbol.bytes ++ seen.map Relocation.bytes) rows).length ≤
      freeSymbols.length)
    (hrelocations : rows.length ≤ freeRelocations.length) :
    ∃ converted, rows.mapM (convertRelocation target known) = .ok converted ∧
      emitRelocations target rows index next { s with work := work }
          (doneSymbols ++ freeSymbols) (doneRelocations ++ freeRelocations) =
        (doneSymbols ++
            (newRows (known.map Symbol.bytes ++ seen.map Relocation.bytes) rows).map
              emitUndefined ++
            freeSymbols.drop
              (newRows (known.map Symbol.bytes ++ seen.map Relocation.bytes) rows).length,
          doneRelocations ++ converted ++ freeRelocations.drop rows.length) := by
  -- `seen` grows with the rows passed, and a name is new against what was seen.
  induction rows generalizing seen work index next doneSymbols freeSymbols doneRelocations
      freeRelocations with
  | nil =>
      refine ⟨[], rfl, ?_⟩
      unfold emitRelocations newRows
      simp
  | cons row rows ih =>
      obtain ⟨t, hfound, hcost, hrest⟩ := haffordable
      obtain ⟨slot, left, -, hfind, hflag, hnew, hkind⟩ := h.emit hfound hcost
      obtain ⟨selected, hselect⟩ := hselected row List.mem_cons_self
      cases freeRelocations with
      | nil => cases hrelocations
      | cons x freeRelocations =>
          have hall : Content known (seen ++ [row] ++ rows) s := by
            rw [List.append_assoc]
            exact h
          have hconvert : convertRelocation target known row =
              .ok (emitRelocation row selected.1 selected.2) := by
            unfold convertRelocation
            rw [hselect]
          have hset : (doneRelocations ++ x :: freeRelocations).set index
              (emitRelocation row selected.1 selected.2) =
                doneRelocations ++ [emitRelocation row selected.1 selected.2] ++
                  freeRelocations := by
            rw [hdone, set_length, List.append_assoc]
            rfl
          have hword (w at' : Nat) : State.word { s with work := w } at' = s.word at' := rfl
          have hstep : emitRelocations target (row :: rows) index next { s with work := work }
              (doneSymbols ++ freeSymbols) (doneRelocations ++ x :: freeRelocations) =
                if s.word slot = 2 ∧ s.word (slot + 1) = seen.length then
                  emitRelocations target rows (index + 1) (next + 1)
                    { s with work := work - s.rowCost row t }
                    ((doneSymbols ++ freeSymbols).set next (emitUndefined row))
                    (doneRelocations ++ [emitRelocation row selected.1 selected.2] ++
                      freeRelocations)
                else
                  emitRelocations target rows (index + 1) next
                    { s with work := work - s.rowCost row t } (doneSymbols ++ freeSymbols)
                    (doneRelocations ++ [emitRelocation row selected.1 selected.2] ++
                      freeRelocations) := by
            have hchosen := hkind (undefinedFlag known row.bytes)
            rw [hselect] at hchosen
            rw [← hindex, ← hset]
            simp only [emitRelocations, hfind, Option.getD_some, hword, hflag, hchosen,
              Except.toOption]
          rw [hstep]
          rw [newRows_cons] at hsymbols ⊢
          have hlength : index + 1 = (seen ++ [row]).length := by simp [hindex]
          have hlength' : index + 1 =
              (doneRelocations ++ [emitRelocation row selected.1 selected.2]).length := by
            simp [hdone]
          have hrest' := fun r hr => hselected r (List.mem_cons_of_mem row hr)
          -- Only the first row of a name takes the next undefined symbol.
          by_cases hmem : row.bytes ∈ known.map Symbol.bytes ++ seen.map Relocation.bytes
          · -- The name has its symbol already.
            rw [if_pos hmem] at hsymbols ⊢
            rw [if_neg fun hand => hnew.mp hand hmem]
            obtain ⟨converted, hconverted, hemit⟩ := ih _ _ _ _ _ _ hall hrest hrest' hlength
              hlength' hnext hsymbols (Nat.le_of_succ_le_succ hrelocations)
            refine ⟨emitRelocation row selected.1 selected.2 :: converted, ?_, hemit.trans ?_⟩
            · rw [List.mapM_cons, hconvert, hconverted]
              rfl
            · simp
          · rw [if_neg hmem] at hsymbols ⊢
            rw [if_pos (hnew.mpr hmem)]
            cases freeSymbols with
            | nil => cases hsymbols
            | cons y freeSymbols =>
                have hset' : (doneSymbols ++ y :: freeSymbols).set next (emitUndefined row) =
                    doneSymbols ++ [emitUndefined row] ++ freeSymbols := by
                  rw [hnext, set_length, List.append_assoc]
                  rfl
                have hnext' : next + 1 = (doneSymbols ++ [emitUndefined row]).length := by
                  simp [hnext]
                rw [hset']
                obtain ⟨converted, hconverted, hemit⟩ := ih _ _ _ _ _ _ hall hrest hrest' hlength
                  hlength' hnext' (Nat.le_of_succ_le_succ hsymbols)
                  (Nat.le_of_succ_le_succ hrelocations)
                refine ⟨emitRelocation row selected.1 selected.2 :: converted, ?_,
                  hemit.trans ?_⟩
                · rw [List.mapM_cons, hconvert, hconverted]
                  rfl
                · simp

end Emission

/-! ## The whole conversion -/

theorem check_ok {condition : Bool} {status index : Nat} {u : Unit}
    (h : check condition status index = .ok u) : condition = true := by
  unfold check at h
  by_cases hcondition : condition = true
  · exact hcondition
  · rw [if_neg hcondition] at h
    cases h

theorem checkSections_ok {rows : List Section} {index : Nat} {s s' : State}
    (h : checkSections rows index s = .ok s') :
    s' = { s with work := s'.work } ∧ s'.work ≤ s.work := by
  induction rows generalizing index s with
  | nil =>
      cases h
      exact ⟨rfl, Nat.le_refl _⟩
  | cons row rows ih =>
      unfold checkSections at h
      cases hcharge : charge s 1 with
      | mk b s₁ =>
          rw [hcharge] at h
          cases b with
          | false => cases h
          | true =>
              obtain ⟨-, rfl⟩ := charge_ok hcharge
              obtain ⟨-, -, h⟩ := bind_ok_iff.mp h
              obtain ⟨hframe, hwork⟩ := ih (s := { s with work := s.work - 1 }) h
              exact ⟨hframe, Nat.le_trans hwork (Nat.sub_le _ _)⟩

theorem empty_content {s : State} (hpower : ∃ k, s.slots = 2 ^ k)
    (hlength : s.scratch.length = s.slots * 4) (hzero : ∀ i, s.word i = 0)
    (hstatus : s.status = 0) : Content [] [] s := by
  have hnone : s.name = fun _ => none := funext fun slot => name_of_empty (hzero _)
  refine ⟨⟨hpower, hlength, fun slot _ hne => absurd (hzero _) hne, ?_⟩, hstatus, ?_, ?_, ?_⟩
  · rw [hnone]
    exact consistent_empty
  · intro name hmem
    rcases hmem with hmem | hmem <;> cases hmem
  · intro slot _ name hname
    rw [hnone] at hname
    cases hname
  · intro slot _ name hname
    rw [hnone] at hname
    cases hname

/-- The checks of the names, from the zeroed table on; without names there is no table either. -/
theorem names_reserved {target : Target} {sectionCount missing : Nat} {symbols : List Symbol}
    {relocations : List Relocation} {choices : List Choice} {s₀ s₁ s₂ : State}
    (htable : symbols.length + relocations.length = 0 ∨ Content [] [] s₀)
    (hsymbols₀ : s₀.symbols = symbols) (hrelocations₀ : s₀.relocations = relocations)
    (hregister : registerSymbols sectionCount symbols 0 s₀ = .ok s₁)
    (hreserve : reserveChoices target sectionCount relocations 0 0 s₁ = .ok (choices, missing, s₂)) :
    (symbols = [] ∧ relocations = []) ∨
      (ReservedAll target symbols [] relocations choices missing s₁ s₂ ∧ s₁.work ≤ s₀.work) := by
  rcases htable with hnil | hcontent
  · exact .inl ⟨List.length_eq_zero_iff.mp (by omega), List.length_eq_zero_iff.mp (by omega)⟩
  · obtain ⟨hknown, hsame⟩ := registerSymbols_ok hcontent hsymbols₀ rfl hregister
    have hrows : s₁.relocations = [] ++ relocations := hsame.relocations.trans hrelocations₀
    obtain ⟨-, hall⟩ := reserveChoices_ok hknown hrows rfl hreserve
    exact .inr ⟨hall, hsame.work⟩

/-- The checks and the emission of the names, from the zeroed table on. -/
theorem names_ok {target : Target} {sectionCount missing : Nat} {symbols outSymbols : List Symbol}
    {relocations outRelocations : List Relocation} {choices : List Choice} {s₀ s₁ s₂ : State}
    (htable : symbols.length + relocations.length = 0 ∨ Content [] [] s₀)
    (hsymbols₀ : s₀.symbols = symbols) (hrelocations₀ : s₀.relocations = relocations)
    (hregister : registerSymbols sectionCount symbols 0 s₀ = .ok s₁)
    (hreserve : reserveChoices target sectionCount relocations 0 0 s₁ = .ok (choices, missing, s₂))
    (hspent : s₀.work - s₂.work ≤ s₂.work) (hroom : symbols.length + missing ≤ outSymbols.length)
    (hroom' : relocations.length ≤ outRelocations.length) :
    missing = (newRows (symbols.map Symbol.bytes) relocations).length ∧
      ∃ converted, relocations.mapM (convertRelocation target symbols) = .ok converted ∧
        emitRelocations target relocations 0 symbols.length s₂ (copySymbols symbols 0 outSymbols)
            outRelocations =
          (symbols ++ (newRows (symbols.map Symbol.bytes) relocations).map emitUndefined ++
              outSymbols.drop (symbols.length + missing),
            converted ++ outRelocations.drop relocations.length) := by
  -- The copied symbols are in their places.
  obtain ⟨freeSymbols, hcopy, hfree⟩ : ∃ free, copySymbols symbols 0 outSymbols =
      symbols ++ free ∧ free = outSymbols.drop symbols.length := by
    refine ⟨_, ?_, rfl⟩
    exact copySymbols_eq 0 [] outSymbols rfl (by omega)
  have hdrop (n : Nat) : freeSymbols.drop n = outSymbols.drop (symbols.length + n) := by
    rw [hfree, List.drop_drop]
  have hfreeLength : missing ≤ freeSymbols.length := by
    rw [hfree, List.length_drop]
    omega
  rw [hcopy]
  rcases names_reserved htable hsymbols₀ hrelocations₀ hregister hreserve with
    ⟨rfl, rfl⟩ | ⟨hall, hle₁⟩
  · cases hreserve
    refine ⟨rfl, [], rfl, ?_⟩
    unfold emitRelocations newRows
    rw [← hdrop]
    simp
  · have hmissing := hall.missing
    rw [List.map_nil, List.append_nil] at hmissing
    have hle₂ := hall.same.work
    obtain ⟨converted, hconverted, hemit⟩ := emitRelocations_eq 0 symbols.length symbols
      freeSymbols [] outRelocations hall.content
      (hall.affordable.mono (by omega : s₁.work - s₂.work ≤ s₂.work)) hall.selected rfl rfl rfl
      (by rw [List.map_nil, List.append_nil, ← hmissing]; exact hfreeLength) hroom'
    refine ⟨hmissing, converted, hconverted, hemit.trans ?_⟩
    rw [List.map_nil, List.append_nil, ← hmissing, hdrop]
    rfl

/-! ### The checks together -/

/-- What the checks leave: the target, their choices, the number of missing symbols and the
table. -/
structure Preflight where
  target : Target
  choices : List Choice
  missing : Nat
  state : State

/-- The checks, up to the comparison of the spent work with the rest. -/
def preflight (a : Arguments) : Except Failure Preflight := do
  check (a.result ≠ 0) 8 0
  check (targetValid a.target) 1 0
  let sectionCount := a.sections.rows.length
  let symbolCount := a.symbols.rows.length
  let relocationCount := a.relocations.rows.length
  let scratchWords := a.scratch.rows.length
  check (arrayValid a.sections.data sectionCount 56 && arrayValid a.symbols.data symbolCount 64 &&
    arrayValid a.relocations.data relocationCount 72 &&
    arrayValid a.scratch.data scratchWords 8 &&
    symbolCount ≤ 18446744073709551615 - relocationCount) 8 0
  let total := symbolCount + relocationCount
  let slots := scratchWords / 4
  check (total = 0 || !(scratchWords % 4 ≠ 0 || slots = 0 || (slots &&& (slots - 1)) ≠ 0 ||
    slots / 2 < total)) 7 0
  check (sectionCount ≤ a.outputSections.rows.length &&
    symbolCount ≤ a.outputSymbols.rows.length &&
    relocationCount ≤ a.outputRelocations.rows.length) 7 0
  check (arrayValid a.outputSections.data sectionCount 56 &&
    arrayValid a.outputSymbols.data symbolCount 64 &&
    arrayValid a.outputRelocations.data relocationCount 72) 8 0
  check (scratchWords ≤ workLimit) 9 0
  let s : State :=
    { symbols := a.symbols.rows, relocations := a.relocations.rows
      scratch := a.scratch.rows.map fun _ => 0
      slots := slots, work := workLimit - scratchWords, status := 0 }
  let s ← checkSections a.sections.rows 0 s
  let s ← registerSymbols sectionCount a.symbols.rows 0 s
  match a.target with
  | none => .error { status := 1, index := 0 }
  | some target => do
      let (choices, missing, s) ← reserveChoices target sectionCount a.relocations.rows 0 0 s
      let needed := symbolCount + missing
      check (needed ≤ a.outputSymbols.rows.length) 7 (lastIndex a)
      check (arrayValid a.outputSymbols.data needed 64) 8 (lastIndex a)
      check (workLimit - s.work ≤ s.work) 9 (lastIndex a)
      return { target := target, choices := choices, missing := missing, state := s }

/-- The symbols and relocations behind the checks. -/
def emitted (a : Arguments) (p : Preflight) : List Symbol × List Relocation :=
  emitRelocations p.target a.relocations.rows 0 a.symbols.rows.length p.state
    (copySymbols a.symbols.rows 0 a.outputSymbols.rows) a.outputRelocations.rows

/-- The conversion is the checks and the emission. -/
theorem whaleAsmobj_eq (a : Arguments) : whaleAsmobj a = do
    let p ← preflight a
    return {
      sections := emitSections a.sections.rows 0 a.outputSections.rows
      symbols := (emitted a p).1
      relocations := (emitted a p).2
      symbolCount := a.symbols.rows.length + p.missing } := by
  unfold whaleAsmobj preflight
  simp only [bind_assoc]
  cases a.target with
  | none => rfl
  | some target =>
      have hmap (x : Except Failure (List Choice × Nat × State))
          (f : Nat × State → Except Failure Output) :
          (x.map Prod.snd >>= f) = x >>= fun r => f r.2 := by
        cases x <;> rfl
      simp only [reserveNames_eq, bind_assoc, hmap, pure_bind]
      rfl

/-- What is known of the names when the checks have passed. -/
structure Prepared (a : Arguments) (p : Preflight) (s₀ s₁ : State) : Prop where
  target : a.target = some p.target
  table : a.symbols.rows.length + a.relocations.rows.length = 0 ∨ Content [] [] s₀
  symbols : s₀.symbols = a.symbols.rows
  relocations : s₀.relocations = a.relocations.rows
  register : registerSymbols a.sections.rows.length a.symbols.rows 0 s₀ = .ok s₁
  reserve : reserveChoices p.target a.sections.rows.length a.relocations.rows 0 0 s₁ =
    .ok (p.choices, p.missing, p.state)
  spent : s₀.work - p.state.work ≤ p.state.work
  room : a.symbols.rows.length + p.missing ≤ a.outputSymbols.rows.length
  roomSections : a.sections.rows.length ≤ a.outputSections.rows.length
  roomRelocations : a.relocations.rows.length ≤ a.outputRelocations.rows.length

theorem preflight_ok {a : Arguments} {p : Preflight} (h : preflight a = .ok p) :
    ∃ s₀ s₁, Prepared a p s₀ s₁ := by
  unfold preflight at h
  obtain ⟨-, -, h⟩ := bind_ok_iff.mp h
  obtain ⟨-, -, h⟩ := bind_ok_iff.mp h
  obtain ⟨-, -, h⟩ := bind_ok_iff.mp h
  obtain ⟨⟨⟩, hslots, h⟩ := bind_ok_iff.mp h
  obtain ⟨⟨⟩, hcapacity, h⟩ := bind_ok_iff.mp h
  obtain ⟨-, -, h⟩ := bind_ok_iff.mp h
  obtain ⟨⟨⟩, hscratch, h⟩ := bind_ok_iff.mp h
  obtain ⟨s₀, hsections, h⟩ := bind_ok_iff.mp h
  obtain ⟨s₁, hregister, h⟩ := bind_ok_iff.mp h
  cases hgiven : a.target with
  | none =>
      rw [hgiven] at h
      cases h
  | some target =>
      rw [hgiven] at h
      obtain ⟨⟨choices, missing, s₂⟩, hreserve, h⟩ := bind_ok_iff.mp h
      obtain ⟨⟨⟩, hroom, h⟩ := bind_ok_iff.mp h
      obtain ⟨-, -, h⟩ := bind_ok_iff.mp h
      obtain ⟨⟨⟩, hspent, h⟩ := bind_ok_iff.mp h
      cases h
      have hspent' := of_decide_eq_true (check_ok hspent)
      have hcapacity' := check_ok hcapacity
      rw [Bool.and_eq_true, Bool.and_eq_true, decide_eq_true_eq, decide_eq_true_eq,
        decide_eq_true_eq] at hcapacity'
      obtain ⟨hframe, hwork₀⟩ := checkSections_ok hsections
      have hhead : s₀.symbols = a.symbols.rows ∧ s₀.relocations = a.relocations.rows := by
        rw [hframe]
        exact ⟨rfl, rfl⟩
      refine ⟨s₀, s₁, hgiven, ?_, hhead.1, hhead.2, hregister, hreserve, ?_,
        of_decide_eq_true (check_ok hroom), hcapacity'.1.1, hcapacity'.2⟩
      · have hslots' := check_ok hslots
        rw [Bool.or_eq_true, decide_eq_true_eq] at hslots'
        refine hslots'.imp id fun htable => ?_
        simp only [Bool.not_or, Bool.and_eq_true, Bool.not_eq_true', decide_eq_false_iff_not,
          ne_eq, not_not] at htable
        obtain ⟨⟨⟨hmultiple, hpositive⟩, hpower⟩, -⟩ := htable
        rw [hframe]
        apply Content.work
        apply empty_content
        · exact Nat.ne_zero_and_sub_one_eq_zero_iff_isPowerOfTwo.mp ⟨hpositive, hpower⟩
        · show (a.scratch.rows.map fun _ => 0).length = a.scratch.rows.length / 4 * 4
          rw [List.length_map]
          omega
        · intro i
          show (a.scratch.rows.map fun _ => 0).getD i 0 = 0
          rw [List.getD_eq_getElem?_getD, List.getElem?_map]
          cases a.scratch.rows[i]? <;> rfl
        · rfl
      · have hle : s₀.work ≤ workLimit - a.scratch.rows.length := hwork₀
        show s₀.work - s₂.work ≤ s₂.work
        omega

theorem whaleAsmobj_convert {a : Arguments} {out : Output} (h : whaleAsmobj a = .ok out) :
    ∃ target c, a.target = some target ∧
      convert target a.sections.rows a.symbols.rows a.relocations.rows = .ok c ∧
      out.symbolCount = c.symbols.length ∧
      out.sections = c.sections ++ a.outputSections.rows.drop c.sections.length ∧
      out.symbols = c.symbols ++ a.outputSymbols.rows.drop c.symbols.length ∧
      out.relocations =
        c.relocations ++ a.outputRelocations.rows.drop c.relocations.length ∧
      (newRows (a.symbols.rows.map Symbol.bytes) a.relocations.rows).map Relocation.bytes =
        ((a.relocations.rows.map Relocation.bytes).filter
          (· ∉ a.symbols.rows.map Symbol.bytes)).eraseDups := by
  rw [whaleAsmobj_eq] at h
  obtain ⟨p, hp, h⟩ := bind_ok_iff.mp h
  cases h
  obtain ⟨s₀, s₁, h⟩ := preflight_ok hp
  obtain ⟨hmissing, converted, hconverted, hemit⟩ := names_ok h.table h.symbols h.relocations
    h.register h.reserve h.spent h.room h.roomRelocations
  have hlength : converted.length = a.relocations.rows.length :=
    (List.Forall₂.length_eq (mapM_ok hconverted)).symm
  refine ⟨p.target, { sections := a.sections.rows.map emitSection
                      symbols := a.symbols.rows ++
                        (newRows (a.symbols.rows.map Symbol.bytes) a.relocations.rows).map
                          emitUndefined
                      relocations := converted }, h.target, ?_, ?_, ?_, ?_, ?_, newRows_names _ _⟩
  · unfold convert
    rw [hconverted]
    rfl
  · show a.symbols.rows.length + p.missing = _
    rw [List.length_append, List.length_map, hmissing]
  · dsimp only
    rw [List.length_map]
    exact emitSections_eq 0 [] a.outputSections.rows rfl h.roomSections
  · dsimp only
    unfold emitted
    rw [hemit, List.length_append, List.length_map, ← hmissing]
  · dsimp only
    unfold emitted
    rw [hemit, hlength]

/-- Two symbols of one name, the last one undefined, and branches to it and to a new name. -/
def callArguments : Arguments where
  target := some { format := 0, machine := 0, addressBits := 64, endian := 0 }
  sections := { data := 8, rows := [{ name := { data := 16, bytes := [46, 116] }, kind := 0
                                      alignment := 16, data := { data := 32, bytes := [232, 0] }
                                      zeroFill := 0 }] }
  symbols := { data := 64, rows := [symbol 0, symbol noSection] }
  relocations := { data := 128, rows := [branch [102], branch [103], branch [103]] }
  outputSections := { data := 256, rows := [blank] }
  outputSymbols := { data := 512, rows := List.replicate 5 (symbol 0) }
  outputRelocations := { data := 1024, rows := List.replicate 3 (branch []) }
  scratch := { data := 2048, rows := List.replicate 64 7 }
  result := 4096
where
  blank : Section :=
    { name := { data := 0, bytes := [] }, kind := 0, alignment := 0
      data := { data := 0, bytes := [] }, zeroFill := 0 }
  symbol (defined : Nat) : Symbol :=
    { name := { data := 40, bytes := [102] }, kind := 1, sectionIndex := defined, offset := 0
      size := 2, binding := 1, visibility := 0 }
  branch (name : List UInt8) : Relocation :=
    { sectionIndex := 0, offset := 1, name := { data := 48, bytes := name }, kind := 4
      namespaceName := { data := 0, bytes := [] }, code := 0, addend := -4 }

theorem whaleAsmobj_convert_call : ∃ out, whaleAsmobj callArguments = .ok out ∧
    ∃ target c, callArguments.target = some target ∧
      convert target callArguments.sections.rows callArguments.symbols.rows
        callArguments.relocations.rows = .ok c ∧ out.symbolCount = c.symbols.length := by
  have hok : (whaleAsmobj callArguments).isOk = true := by decide +kernel
  cases h : whaleAsmobj callArguments with
  | error e =>
      rw [h] at hok
      cases hok
  | ok out =>
      obtain ⟨target, c, htarget, hconvert, hcount, -⟩ := whaleAsmobj_convert h
      exact ⟨out, rfl, target, c, htarget, hconvert, hcount⟩

example : (whaleAsmobj callArguments).toOption.map
    (fun out => (out.symbolCount, out.relocations.map Relocation.kind)) =
      some (3, [4, 4, 4]) := by decide +kernel

end Whale.Asmobj
