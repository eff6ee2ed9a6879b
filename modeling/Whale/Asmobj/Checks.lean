import Whale.Asmobj.Kind
import Whale.Lib.Except

set_option autoImplicit false

/-! # What the checks leave in the table

After the checks every name has a slot, a slot that a symbol owns has the flag of its last
symbol, and a slot that a relocation owns has the index of the first relocation of the name
(`Content`). The budget of the checks is enough to look every relocation up again
(`Affordable`). -/

namespace Whale.Asmobj

open Probing

/-! ## The content of the table -/

/-- The table after the symbols `known` and the relocations `seen`. -/
structure Content (known : List Symbol) (seen : List Relocation) (s : State) : Prop where
  table : TableInv s
  status : s.status = 0
  complete : ∀ name, name ∈ known.map Symbol.bytes ∨ name ∈ seen.map Relocation.bytes →
    ∃ slot < s.slots, s.name slot = some name
  flag : ∀ slot < s.slots, ∀ name, s.name slot = some name →
    s.word (slot * 4 + 2) = undefinedFlag known name
  owner : ∀ slot < s.slots, ∀ name, s.name slot = some name →
    name ∈ known.map Symbol.bytes ∧ s.word (slot * 4) = 1 ∨
      name ∉ known.map Symbol.bytes ∧ name ∈ seen.map Relocation.bytes ∧
        s.word (slot * 4) = 2 ∧ s.word (slot * 4 + 1) = (seen.map Relocation.bytes).idxOf name

/-- What the checks do not change. -/
structure SameRows (s s' : State) : Prop where
  symbols : s'.symbols = s.symbols
  relocations : s'.relocations = s.relocations
  slots : s'.slots = s.slots
  work : s'.work ≤ s.work

theorem SameRows.refl (s : State) : SameRows s s := ⟨rfl, rfl, rfl, Nat.le_refl _⟩

theorem SameRows.trans {s s' s'' : State} (h : SameRows s s') (h' : SameRows s' s'') :
    SameRows s s'' :=
  ⟨h'.symbols.trans h.symbols, h'.relocations.trans h.relocations, h'.slots.trans h.slots,
    Nat.le_trans h'.work h.work⟩

theorem Content.work {known : List Symbol} {seen : List Relocation} {s : State}
    (h : Content known seen s) (work : Nat) : Content known seen { s with work := work } :=
  ⟨h.table.work work, h.status, h.complete, h.flag, h.owner⟩

variable {slot t : Nat}

theorem Lookup.sameRows {s s' : State} {name : Span} (hl : Lookup s s' name slot t)
    (source index undefined : Nat) : SameRows s (s'.fill slot source index undefined) := by
  have hsymbols : s'.symbols = s.symbols := by rw [hl.frame]
  have hrelocations : s'.relocations = s.relocations := by rw [hl.frame]
  have hslots : s'.slots = s.slots := by rw [hl.frame]
  refine ⟨hsymbols, hrelocations, hslots, ?_⟩
  rcases hl.result with ⟨-, -, hwork⟩ | ⟨-, -, hwork⟩
  · show s'.work ≤ s.work
    omega
  · show s'.work ≤ s.work
    omega

/-! ## Symbols -/

variable {sectionCount : Nat}

section Symbols

variable {known : List Symbol} {s s' : State} {row : Symbol}

theorem Content.register (h : Content known [] s) (hrow : s.symbols[known.length]? = some row)
    (hrun : registerSymbol s row known.length = (true, s')) :
    Content (known ++ [row]) [] s' ∧ SameRows s s' := by
  unfold registerSymbol at hrun
  cases hfind : findName s row.name with
  | mk found s₁ =>
      rw [hfind] at hrun
      cases found with
      | none => cases hrun
      | some slot =>
          obtain ⟨t, hl⟩ := findName_ok h.table h.status hfind
          obtain ⟨-, rfl⟩ := Prod.mk.inj hrun
          have hsource : (sourceName s 1 known.length).map Span.bytes = some row.name.bytes := by
            unfold sourceName
            rw [if_pos rfl, hrow]
            rfl
          have hsame := hl.sameRows 1 known.length (if row.sectionIndex = noSection then 1 else 0)
          refine ⟨⟨hl.fill_inv h.table hsource, ?_, ?_, ?_, ?_⟩, hsame⟩
          · show s₁.status = 0
            rw [hl.frame]
            exact h.status
          · intro name hmem
            rw [hsame.slots]
            rw [List.map_append, List.mem_append] at hmem
            rcases hmem with (hmem | hmem) | hmem
            · obtain ⟨p, hp, hpname⟩ := h.complete name (.inl hmem)
              exact ⟨p, hp, hl.fill_extends h.table _ hsource _ _ hpname⟩
            · rw [List.map_singleton, List.mem_singleton] at hmem
              subst hmem
              exact ⟨_, Lookup.slot_lt h.table, hl.fill_self h.table hsource⟩
            · cases hmem
          · intro p hp name hpname
            rw [hsame.slots] at hp
            rw [undefinedFlag_append]
            -- A name now in the table is the new row, in the slot just filled, or an older one.
            rcases hl.fill_cases h.table hsource hp hpname with
              ⟨rfl, -, -, hflag⟩ | ⟨hne, hold, hwords⟩
            · rw [hflag]
              exact (if_pos rfl).symm
            · rw [hwords 2 (by decide), h.flag p hp name hold]
              exact (if_neg fun heq => hne heq.symm).symm
          · intro p hp name hpname
            rw [hsame.slots] at hp
            rw [List.map_append, List.mem_append, List.map_singleton, List.mem_singleton]
            rcases hl.fill_cases h.table hsource hp hpname with
              ⟨rfl, hkind, -, -⟩ | ⟨-, hold, hwords⟩
            · exact .inl ⟨.inr rfl, hkind⟩
            · rcases h.owner p hp name hold with ⟨hmem, hkind⟩ | ⟨-, hseen, -⟩
              · exact .inl ⟨.inl hmem, (hwords 0 (by decide)).trans hkind⟩
              · cases hseen

theorem registerSymbols_ok {sectionCount index : Nat} {rows : List Symbol}
    (h : Content known [] s) (hrows : s.symbols = known ++ rows) (hindex : index = known.length)
    (hrun : registerSymbols sectionCount rows index s = .ok s') :
    Content (known ++ rows) [] s' ∧ SameRows s s' := by
  induction rows generalizing known index s with
  | nil =>
      cases hrun
      rw [List.append_nil]
      exact ⟨h, SameRows.refl _⟩
  | cons row rows ih =>
      unfold registerSymbols at hrun
      cases hcharge : charge s 1 with
      | mk b s₁ =>
          rw [hcharge] at hrun
          cases b with
          | false => cases hrun
          | true =>
              obtain ⟨hone, rfl⟩ := charge_ok hcharge
              dsimp only at hrun
              obtain ⟨-, -, hrun⟩ := bind_ok_iff.mp hrun
              obtain ⟨-, -, hrun⟩ := bind_ok_iff.mp hrun
              cases hregister : registerSymbol { s with work := s.work - 1 } row index with
              | mk b s₂ =>
                  rw [hregister] at hrun
                  cases b with
                  | false => cases hrun
                  | true =>
                      subst hindex
                      have hrow : s.symbols[known.length]? = some row := by
                        rw [hrows, List.getElem?_append_right (Nat.le_refl _), Nat.sub_self]
                        rfl
                      obtain ⟨h₂, hsame⟩ := (h.work (s.work - 1)).register hrow hregister
                      have hrows₂ : s₂.symbols = known ++ [row] ++ rows := by
                        rw [hsame.symbols, List.append_assoc]
                        exact hrows
                      obtain ⟨h', hsame'⟩ := ih h₂ hrows₂ (by simp) hrun
                      rw [List.append_assoc] at h'
                      refine ⟨h', SameRows.trans ⟨hsame.symbols, hsame.relocations, hsame.slots,
                        ?_⟩ hsame'⟩
                      exact Nat.le_trans hsame.work (Nat.sub_le _ _)

end Symbols

/-! ## Relocations -/

/-- The work of looking a relocation up again after `t` other names. -/
def State.rowCost (s : State) (r : Relocation) (t : Nat) : Nat :=
  s.pathCost r.bytes t + 1 + 2 * r.name.length + kindCost r

/-- The work is enough to look all names up. -/
def Affordable (s : State) : List Relocation → Nat → Prop
  | [], _ => True
  | r :: rs, work =>
      ∃ t, Found s.slots s.start s.name r.bytes t ∧ s.rowCost r t ≤ work ∧
        Affordable s rs (work - s.rowCost r t)

theorem Affordable.mono {s : State} {rs : List Relocation} {work work' : Nat}
    (h : Affordable s rs work) (hle : work ≤ work') : Affordable s rs work' := by
  induction rs generalizing work work' with
  | nil => trivial
  | cons r rs ih =>
      obtain ⟨t, hfound, hcost, hrest⟩ := h
      exact ⟨t, hfound, Nat.le_trans hcost hle, ih hrest (Nat.sub_le_sub_right hle _)⟩

section Relocations

variable {known : List Symbol} {seen : List Relocation} {s s' : State} {row : Relocation}

/-- What the check of one relocation does to the table. -/
structure Reserved (known : List Symbol) (seen : List Relocation) (row : Relocation) (slot : Nat)
    (s s' : State) : Prop where
  content : Content known (seen ++ [row]) s'
  same : SameRows s s'
  extends' : Extends s.name s'.name
  /-- The name is in its slot. -/
  named : ∃ p < s'.slots, s'.name p = some row.bytes ∧ slot = p * 4
  /-- The name can be looked up again for what the check has cost. -/
  cost : ∃ t, Found s'.slots s'.start s'.name row.bytes t ∧ s'.rowCost row t + s'.work ≤ s.work

theorem Content.seen_again (h : Content known seen s)
    (hmem : row.bytes ∈ known.map Symbol.bytes ∨ row.bytes ∈ seen.map Relocation.bytes) :
    Content known (seen ++ [row]) s := by
  refine ⟨h.table, h.status, fun name hname => ?_, h.flag, fun slot hslot name hname => ?_⟩
  · rw [List.map_append, List.mem_append, List.map_singleton, List.mem_singleton] at hname
    rcases hname with hname | hname | rfl
    · exact h.complete name (.inl hname)
    · exact h.complete name (.inr hname)
    · exact h.complete _ hmem
  · rcases h.owner slot hslot name hname with hsymbol | ⟨hnot, hseen, hkind, hindex⟩
    · exact .inl hsymbol
    · refine .inr ⟨hnot, ?_, hkind, ?_⟩
      · rw [List.map_append]
        exact List.mem_append_left _ hseen
      · rw [List.map_append, List.idxOf_append_of_mem hseen]
        exact hindex

/-- A name in the table is a name of the rows. -/
theorem Content.mem (h : Content known seen s) {name : List UInt8} (hslot : slot < s.slots)
    (hname : s.name slot = some name) :
    name ∈ known.map Symbol.bytes ∨ name ∈ seen.map Relocation.bytes := by
  rcases h.owner slot hslot name hname with ⟨hmem, -⟩ | ⟨-, hmem, -⟩
  · exact .inl hmem
  · exact .inr hmem

theorem Content.reserve_found (h : Content known seen s) {s₁ : State}
    (hl : Lookup s s₁ row.name slot t) (hfound : s₁.word slot ≠ 0) (hcost : kindCost row ≤ s₁.work)
    :
    Reserved known seen row slot s { s₁ with work := s₁.work - kindCost row } ∧
      (row.bytes ∈ known.map Symbol.bytes ∨ row.bytes ∈ seen.map Relocation.bytes) ∧
      s₁.word (slot + 2) = undefinedFlag known row.bytes := by
  have hslot : slotAt s.slots (s.start row.name.bytes) t < s.slots := Lookup.slot_lt h.table
  rcases hl.result with ⟨hname, hscratch, hwork⟩ | ⟨hempty, hscratch, -⟩
  · have hs₁ : s₁ = { s with work := s₁.work } := by
      have hframe := hl.frame
      rw [hscratch] at hframe
      exact hframe
    have hmem := h.mem hslot hname
    have hcontent : Content known (seen ++ [row]) { s with work := s₁.work - kindCost row } :=
      (h.seen_again hmem).work _
    refine ⟨?_, hmem, ?_⟩
    · rw [hs₁]
      refine ⟨hcontent, ⟨rfl, rfl, rfl, ?_⟩, Extends.refl _, ⟨_, hslot, hname, hl.position⟩, t,
        ⟨hl.steps, hl.passed, hname⟩, ?_⟩
      · show s₁.work - kindCost row ≤ s.work
        omega
      · show s.pathCost row.name.bytes t + 1 + 2 * row.name.length + kindCost row +
          (s₁.work - kindCost row) ≤ s.work
        omega
    · rw [hs₁, hl.position]
      exact h.flag _ hslot _ hname
  · -- An empty slot keeps its first word.
    exfalso
    apply hfound
    have hlength := h.table.length
    have hposition := hl.position
    unfold State.word
    rw [hscratch, getD_set (by omega), if_neg (by omega)]
    exact hempty

theorem Content.reserve_new (h : Content known seen s) {s₁ : State}
    (hl : Lookup s s₁ row.name slot t) (hempty : s₁.word slot = 0)
    (hrow : s.relocations[seen.length]? = some row)
    (hcost : kindCost row + row.name.length ≤ s₁.work) :
    Reserved known seen row slot s
        ({ s₁ with work := s₁.work - kindCost row - row.name.length }.fill slot 2 seen.length 1) ∧
      row.bytes ∉ known.map Symbol.bytes ∧ row.bytes ∉ seen.map Relocation.bytes := by
  have hslot : slotAt s.slots (s.start row.name.bytes) t < s.slots := Lookup.slot_lt h.table
  have hlength := h.table.length
  have hposition := hl.position
  -- The search has stopped at an empty slot, so the name is nowhere.
  have hresult : s.word slot = 0 ∧ s₁.work + (s.pathCost row.bytes t + 1 + row.name.length) =
      s.work := by
    rcases hl.result with ⟨hname, hscratch, -⟩ | ⟨hzero, -, hwork⟩
    · exfalso
      apply (h.table.read hslot hname).1
      rw [← hl.position]
      unfold State.word at hempty ⊢
      rw [← hscratch]
      exact hempty
    · exact ⟨hzero, hwork⟩
  have hnone : s.name (slotAt s.slots (s.start row.bytes) t) = none := by
    apply name_of_empty
    have hzero := hresult.1
    rw [hposition] at hzero
    exact hzero
  have hnew := h.table.consistent.notMem hl.passed hnone
  have hknown : row.bytes ∉ known.map Symbol.bytes := fun hmem => by
    obtain ⟨p, hp, hname⟩ := h.complete _ (.inl hmem)
    exact hnew p hp hname
  have hseen : row.bytes ∉ seen.map Relocation.bytes := fun hmem => by
    obtain ⟨p, hp, hname⟩ := h.complete _ (.inr hmem)
    exact hnew p hp hname
  have hsource : (sourceName s 2 seen.length).map Span.bytes = some row.name.bytes := by
    unfold sourceName
    rw [if_neg (by decide), if_pos rfl, hrow]
    rfl
  have hsame := hl.sameRows 2 seen.length 1
  have hextends := hl.fill_extends h.table 1 hsource
  obtain ⟨hfound, hpath⟩ := hl.fill_found h.table 1 hsource
  refine ⟨⟨?_, ⟨hsame.symbols, hsame.relocations, hsame.slots, ?_⟩, hextends,
    ⟨_, hsame.slots ▸ hslot, hl.fill_self h.table hsource, hposition⟩, t, hfound, ?_⟩,
    hknown, hseen⟩
  · apply Content.work (s := s₁.fill slot 2 seen.length 1)
    refine ⟨hl.fill_inv h.table hsource, ?_, ?_, ?_, ?_⟩
    · show s₁.status = 0
      rw [hl.frame]
      exact h.status
    · intro name hmem
      rw [hsame.slots]
      rw [List.map_append, List.mem_append, List.map_singleton, List.mem_singleton] at hmem
      rcases hmem with hmem | hmem | rfl
      · obtain ⟨p, hp, hpname⟩ := h.complete name (.inl hmem)
        exact ⟨p, hp, hextends _ _ hpname⟩
      · obtain ⟨p, hp, hpname⟩ := h.complete name (.inr hmem)
        exact ⟨p, hp, hextends _ _ hpname⟩
      · exact ⟨_, hslot, hl.fill_self h.table hsource⟩
    · intro p hp name hpname
      rw [hsame.slots] at hp
      rcases hl.fill_cases h.table hsource hp hpname with
        ⟨rfl, -, -, hflag⟩ | ⟨-, hold, hwords⟩
      · rw [hflag]
        exact (undefinedFlag_notMem hknown).symm
      · rw [hwords 2 (by decide)]
        exact h.flag p hp name hold
    · intro p hp name hpname
      rw [hsame.slots] at hp
      rw [List.map_append, List.map_singleton]
      rcases hl.fill_cases h.table hsource hp hpname with
        ⟨rfl, hkind, hindex, -⟩ | ⟨-, hold, hwords⟩
      · refine .inr ⟨hknown, List.mem_append_right _ List.mem_cons_self, hkind, ?_⟩
        change _ = (seen.map Relocation.bytes ++ [row.bytes]).idxOf row.bytes
        rw [hindex, List.idxOf_append_of_notMem hseen, List.length_map, List.idxOf_cons_self,
          Nat.add_zero]
      · rcases h.owner p hp name hold with ⟨hmem, hkind⟩ | ⟨hnot, hmem, hkind, hindex⟩
        · exact .inl ⟨hmem, (hwords 0 (by decide)).trans hkind⟩
        · refine .inr ⟨hnot, List.mem_append_left _ hmem, (hwords 0 (by decide)).trans hkind, ?_⟩
          rw [hwords 1 (by decide), hindex, List.idxOf_append_of_mem hmem]
  · show s₁.work - kindCost row - row.name.length ≤ s.work
    omega
  · show (s₁.fill slot 2 seen.length 1).pathCost row.name.bytes t + 1 + 2 * row.name.length +
      kindCost row + (s₁.work - kindCost row - row.name.length) ≤ s.work
    have hwork := hresult.2
    unfold Relocation.bytes at hwork
    rw [hpath]
    omega

theorem Lookup.status_eq {name : Span} (hl : Lookup s s' name slot t) :
    s'.status = s.status := by rw [hl.frame]

/-! ### Choices -/

/-- What the checks choose for a relocation: its slot, and its kind and code in the target. -/
structure Choice where
  slot : Nat
  kind : Nat
  code : Nat

/-- The check of one relocation. -/
def reserveName (target : Target) (sectionCount : Nat) (row : Relocation) (index missing : Nat)
    (s : State) : Except Failure (Choice × Nat × State) :=
  match charge s 1 with
  | (false, _) => .error { status := 9, index := index }
  | (true, s) => do
      check (relocationValid row sectionCount) 8 index
      match findName s row.name with
      | (none, s) => .error { status := s.status, index := index }
      | (some slot, s) =>
          let undefined := if s.word slot ≠ 0 then s.word (slot + 2) else 1
          match relocationKind s target row undefined with
          | (.error status, _) => .error { status := status, index := index }
          | (.ok (kind, code), s) =>
              if s.word slot = 0 then
                match charge s row.name.length with
                | (false, _) => .error { status := 9, index := index }
                | (true, s) => .ok (⟨slot, kind, code⟩, missing + 1, s.fill slot 2 index 1)
              else .ok (⟨slot, kind, code⟩, missing, s)

/-- The checks of the relocations, with their choices. -/
def reserveChoices (target : Target) (sectionCount : Nat) :
    List Relocation → Nat → Nat → State → Except Failure (List Choice × Nat × State)
  | [], _, missing, s => .ok ([], missing, s)
  | row :: rows, index, missing, s => do
      let step ← reserveName target sectionCount row index missing s
      let rest ← reserveChoices target sectionCount rows (index + 1) step.2.1 step.2.2
      return (step.1 :: rest.1, rest.2)

theorem reserveNames_eq (target : Target) (sectionCount : Nat) (rows : List Relocation)
    (index missing : Nat) (s : State) :
    reserveNames target sectionCount rows index missing s =
      (reserveChoices target sectionCount rows index missing s).map Prod.snd := by
  induction rows generalizing index missing s with
  | nil => rfl
  | cons row rows ih =>
      have hrest (c : Choice) (m : Nat) (s' : State) :
          reserveNames target sectionCount rows (index + 1) m s' =
            (do
              let rest ← reserveChoices target sectionCount rows (index + 1) m s'
              return (c :: rest.1, rest.2)).map Prod.snd := by
        rw [ih]
        cases reserveChoices target sectionCount rows (index + 1) m s' <;> rfl
      unfold reserveNames reserveChoices reserveName
      rcases charge s 1 with ⟨_ | _, s₁⟩
      · rfl
      · cases check (relocationValid row sectionCount) 8 index with
        | error e => rfl
        | ok _ =>
            rcases hfind : findName s₁ row.name with ⟨_ | slot, s₂⟩
            · simp only [ok_bind, hfind]
              rfl
            · simp only [ok_bind, hfind]
              rcases relocationKind s₂ target row
                (if s₂.word slot ≠ 0 then s₂.word (slot + 2) else 1) with ⟨_ | ⟨kind, code⟩, s₃⟩
              · rfl
              · simp only
                split
                · rcases charge s₃ row.name.length with ⟨_ | _, s₄⟩
                  · rfl
                  · exact hrest ⟨slot, kind, code⟩ _ _
                · exact hrest ⟨slot, kind, code⟩ _ _

/-- The choice is the slot of the name and the rule for the relocation. -/
def Chosen (target : Target) (known : List Symbol) (s : State) (row : Relocation) (c : Choice) :
    Prop :=
  (∃ p < s.slots, s.name p = some row.bytes ∧ c.slot = p * 4) ∧
    selectKind target row (undefinedFlag known row.bytes) = .ok (c.kind, c.code)

/-- What the checks of the relocations do to the table. -/
structure ReservedAll (target : Target) (known : List Symbol) (seen rows : List Relocation)
    (choices : List Choice) (missing : Nat) (s s' : State) : Prop where
  content : Content known (seen ++ rows) s'
  same : SameRows s s'
  extends' : Extends s.name s'.name
  affordable : Affordable s' rows (s.work - s'.work)
  missing : missing =
    (newRows (known.map Symbol.bytes ++ seen.map Relocation.bytes) rows).length
  chosen : List.Forall₂ (Chosen target known s') rows choices

variable {rows : List Relocation} {target : Target} {choices : List Choice} {missing : Nat}

theorem ReservedAll.selected (h : ReservedAll target known seen rows choices missing s s') :
    ∀ r ∈ rows, ∃ selected, selectKind target r (undefinedFlag known r.bytes) = .ok selected := by
  have hchosen := h.chosen
  clear h
  induction hchosen with
  | nil => exact nofun
  | cons hfirst _ ih =>
      intro r hr
      rcases List.mem_cons.mp hr with rfl | hr
      · exact ⟨_, hfirst.2⟩
      · exact ih r hr

/-- The cost of a row stays the same while the table grows. -/
theorem rowCost_extends (hrows : SameRows s s') (hextends : Extends s.name s'.name)
    (hfound : Found s.slots s.start s.name row.bytes t) :
    Found s'.slots s'.start s'.name row.bytes t ∧ s'.rowCost row t = s.rowCost row t := by
  have hslots := hrows.slots
  have hstart : s'.start = s.start := by
    funext name
    unfold State.start
    rw [hslots]
  unfold State.rowCost State.pathCost
  rw [hslots, hstart]
  refine ⟨hfound.mono hextends, ?_⟩
  rw [passCost_extends hfound.2.1 hextends]

theorem ReservedAll.cons {s₁ : State} {c : Choice} {missing missing' : Nat}
    (hstep : Reserved known seen row c.slot s s₁)
    (hrest : ReservedAll target known (seen ++ [row]) rows choices missing' s₁ s')
    (hselected : selectKind target row (undefinedFlag known row.bytes) = .ok (c.kind, c.code))
    (hmissing : missing =
      if row.bytes ∈ known.map Symbol.bytes ++ seen.map Relocation.bytes then missing'
      else missing' + 1) :
    ReservedAll target known seen (row :: rows) (c :: choices) missing s s' := by
  obtain ⟨t, hfound, hcost⟩ := hstep.cost
  obtain ⟨hfound', hcost'⟩ := rowCost_extends hrest.same hrest.extends' hfound
  refine ⟨?_, hstep.same.trans hrest.same, hstep.extends'.trans hrest.extends', ?_, ?_, ?_⟩
  · have hcontent := hrest.content
    rw [List.append_assoc] at hcontent
    exact hcontent
  · have hle := hrest.same.work
    refine ⟨t, hfound', by omega, hrest.affordable.mono (by omega)⟩
  · rw [newRows_cons, hmissing, hrest.missing]
    by_cases hmem : row.bytes ∈ known.map Symbol.bytes ++ seen.map Relocation.bytes
    · rw [if_pos hmem, if_pos hmem]
    · rw [if_neg hmem, if_neg hmem, List.length_cons]
  · obtain ⟨p, hp, hname, hslot⟩ := hstep.named
    refine .cons ⟨⟨p, ?_, hrest.extends' p _ hname, hslot⟩, hselected⟩ hrest.chosen
    rw [hrest.same.slots]
    exact hp

/-- One relocation is checked: its name is looked up, its kind is selected, and a new name is
charged once more and gets the slot. -/
theorem reserveName_ok {sectionCount index missing missing' : Nat} {c : Choice}
    (h : Content known seen s)
    (hrun : reserveName target sectionCount row index missing s = .ok (c, missing', s')) :
    1 ≤ s.work ∧ ∃ t s₁,
      Lookup { s with work := s.work - 1 } s₁ row.name c.slot t ∧ kindCost row ≤ s₁.work ∧
      selectKind target row (if s₁.word c.slot ≠ 0 then s₁.word (c.slot + 2) else 1) =
        .ok (c.kind, c.code) ∧
      (s₁.word c.slot ≠ 0 ∧ missing' = missing ∧
          s' = { s₁ with work := s₁.work - kindCost row } ∨
        s₁.word c.slot = 0 ∧ row.name.length ≤ s₁.work - kindCost row ∧ missing' = missing + 1 ∧
          s' = { s₁ with work := s₁.work - kindCost row - row.name.length }.fill c.slot 2 index 1) := by
  unfold reserveName at hrun
  cases hcharge : charge s 1 with
  | mk b s₀ =>
      rw [hcharge] at hrun
      cases b with
      | false => cases hrun
      | true =>
          obtain ⟨hone, rfl⟩ := charge_ok hcharge
          dsimp only at hrun
          obtain ⟨-, -, hrun⟩ := bind_ok_iff.mp hrun
          cases hfind : findName { s with work := s.work - 1 } row.name with
          | mk found s₁ =>
              rw [hfind] at hrun
              cases found with
              | none => cases hrun
              | some slot =>
                  obtain ⟨t, hl⟩ := findName_ok (h.work (s.work - 1)).table h.status hfind
                  dsimp only at hrun
                  cases hkind : relocationKind s₁ target row
                      (if s₁.word slot ≠ 0 then s₁.word (slot + 2) else 1) with
                  | mk selected s₂ =>
                      rw [hkind] at hrun
                      cases selected with
                      | error status => cases hrun
                      | ok selected =>
                          obtain ⟨hcost, hselect, rfl⟩ :=
                            relocationKind_ok (hl.status_eq.trans h.status) hkind
                          dsimp only at hrun
                          -- An empty slot: the name is new, and its row is marked undefined.
                          by_cases hempty :
                              State.word { s₁ with work := s₁.work - kindCost row } slot = 0
                          · rw [if_pos hempty] at hrun
                            cases hname : charge { s₁ with work := s₁.work - kindCost row }
                                row.name.length with
                            | mk b s₂ =>
                                rw [hname] at hrun
                                cases b with
                                | false => cases hrun
                                | true =>
                                    obtain ⟨hlength, rfl⟩ := charge_ok hname
                                    cases hrun
                                    exact ⟨hone, t, s₁, hl, hcost, hselect,
                                      .inr ⟨hempty, hlength, rfl, rfl⟩⟩
                          · rw [if_neg hempty] at hrun
                            cases hrun
                            exact ⟨hone, t, s₁, hl, hcost, hselect, .inl ⟨hempty, rfl, rfl⟩⟩

theorem reserveChoices_ok {sectionCount index missing missing' : Nat} (h : Content known seen s)
    (hrows : s.relocations = seen ++ rows) (hindex : index = seen.length)
    (hrun : reserveChoices target sectionCount rows index missing s = .ok (choices, missing', s')) :
    missing ≤ missing' ∧ ReservedAll target known seen rows choices (missing' - missing) s s' := by
  induction rows generalizing seen index missing s choices with
  | nil =>
      cases hrun
      refine ⟨Nat.le_refl _, ?_, SameRows.refl _, Extends.refl _, trivial, by simp [newRows], .nil⟩
      rw [List.append_nil]
      exact h
  | cons row rows ih =>
      unfold reserveChoices at hrun
      obtain ⟨⟨c, missing₁, s₂⟩, hname, hrun⟩ := bind_ok_iff.mp hrun
      obtain ⟨⟨choices', missing₂, s₃⟩, hrec, hresult⟩ := bind_ok_iff.mp hrun
      cases hresult
      obtain ⟨hone, t, s₁, hl, hcost, hselect, hrest⟩ := reserveName_ok h hname
      have h₀ := h.work (s.work - 1)
      have hrow : s.relocations[index]? = some row := by
        rw [hrows, hindex, List.getElem?_append_right (Nat.le_refl _), Nat.sub_self]
        rfl
      have hrelocations {s₂ : State} (hsame : SameRows { s with work := s.work - 1 } s₂) :
          s₂.relocations = seen ++ [row] ++ rows := by
        rw [hsame.relocations, List.append_assoc]
        exact hrows
      have hlength : index + 1 = (seen ++ [row]).length := by simp [hindex]
      -- The charge for the row itself is not needed again.
      have hfrom {s₂ : State}
          (hstep : Reserved known seen row c.slot { s with work := s.work - 1 } s₂) :
          Reserved known seen row c.slot s s₂ := by
        obtain ⟨hcontent, hsame, hextends, hnamed, t, hfound, hspent⟩ := hstep
        have hspent' : s₂.rowCost row t + s₂.work ≤ s.work - 1 := hspent
        have hle : s₂.work ≤ s.work - 1 := hsame.work
        exact ⟨hcontent, ⟨hsame.symbols, hsame.relocations, hsame.slots, by omega⟩, hextends,
          hnamed, t, hfound, by omega⟩
      rcases hrest with ⟨hfull, rfl, rfl⟩ | ⟨hempty, hpaid, rfl, rfl⟩
      · obtain ⟨hstep, hmem, hflag⟩ := h₀.reserve_found hl hfull hcost
        obtain ⟨hle, hall⟩ := ih hstep.content (hrelocations hstep.same) hlength hrec
        refine ⟨hle, hall.cons (hfrom hstep) ?_ ?_⟩
        · rw [if_pos hfull, hflag] at hselect
          exact hselect
        · rw [if_pos (List.mem_append.mpr hmem)]
      · subst hindex
        obtain ⟨hstep, hknown, hseen⟩ := h₀.reserve_new hl hempty hrow (by omega)
        obtain ⟨hle, hall⟩ := ih hstep.content (hrelocations hstep.same) hlength hrec
        simp only at hle hall
        refine ⟨by omega, hall.cons (hfrom hstep) ?_ ?_⟩
        · rw [if_neg (not_not.mpr hempty)] at hselect
          rw [undefinedFlag_notMem hknown]
          exact hselect
        · rw [if_neg fun hmem => (List.mem_append.mp hmem).elim hknown hseen]
          omega

end Relocations

end Whale.Asmobj
