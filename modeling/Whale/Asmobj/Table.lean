import Mathlib.Data.Nat.Bitwise
import Whale.Asmobj.Convert
import Whale.Lib.Probing

set_option autoImplicit false

/-! # The name table

The scratch words are an open-addressing table of names. Looking a name up finds its slot or
the empty slot where it belongs (`findName_ok`), and looking it up again later, when the table
has more names, finds the same slot at the same cost (`findName_again`). -/

namespace Whale.Asmobj

open Probing

/-! ## Budget -/

theorem charge_ok {s s' : State} {amount : Nat} (h : charge s amount = (true, s')) :
    amount ≤ s.work ∧ s' = { s with work := s.work - amount } := by
  unfold charge at h
  by_cases hlt : s.work < amount
  · rw [if_pos hlt] at h
    cases h
  · rw [if_neg hlt] at h
    cases h
    exact ⟨Nat.le_of_not_lt hlt, rfl⟩

theorem charge_of_le {s : State} {amount : Nat} (h : amount ≤ s.work) :
    charge s amount = (true, { s with work := s.work - amount }) :=
  if_neg (Nat.not_lt.mpr h)

/-! ## The table -/

/-- The slot where the search for a name starts. -/
def State.start (s : State) (name : List UInt8) : Nat := hashBytes name % s.slots

/-- The name in a slot. -/
def State.name (s : State) (slot : Nat) : Option (List UInt8) :=
  (sourceName s (s.word (slot * 4)) (s.word (slot * 4 + 1))).map Span.bytes

/-- The work of comparing `name` with another name that is met. -/
def compareCost (name other : List UInt8) : Nat :=
  if hashBytes other = hashBytes name ∧ name.length = other.length then name.length else 0

/-- Every slot that is not empty has a name and its hash, and every name is found. -/
structure TableInv (s : State) : Prop where
  power : ∃ k, s.slots = 2 ^ k
  length : s.scratch.length = s.slots * 4
  sound : ∀ slot < s.slots, s.word (slot * 4) ≠ 0 → ∃ name, s.name slot = some name ∧
    s.word (slot * 4 + 3) = hashBytes name
  consistent : Consistent s.slots s.start s.name

/-- The cost of passing `t` slots on the way to a name. -/
def State.pathCost (s : State) (name : List UInt8) (t : Nat) : Nat :=
  passCost s.slots (s.start name) s.name (compareCost name) t

theorem TableInv.slots_pos {s : State} (h : TableInv s) : 0 < s.slots := by
  obtain ⟨k, hk⟩ := h.power
  rw [hk]
  exact Nat.two_pow_pos k

theorem TableInv.work {s : State} (h : TableInv s) (work : Nat) :
    TableInv { s with work := work } := ⟨h.power, h.length, h.sound, h.consistent⟩

theorem TableInv.mask {s : State} (h : TableInv s) (a : Nat) :
    a &&& (s.slots - 1) = a % s.slots := by
  obtain ⟨k, hk⟩ := h.power
  rw [hk, Nat.and_two_pow_sub_one_eq_mod]

theorem name_of_empty {s : State} {slot : Nat} (h : s.word (slot * 4) = 0) :
    s.name slot = none := by
  unfold State.name sourceName
  rw [h]
  rfl

/-- The next slot, around the end. -/
theorem TableInv.next {s : State} (h : TableInv s) (start t : Nat) :
    (slotAt s.slots start t + 1) &&& (s.slots - 1) = slotAt s.slots start (t + 1) := by
  rw [h.mask]
  unfold slotAt
  rw [Nat.mod_add_mod, Nat.add_assoc]

/-! ## One step of a search -/

theorem namesEqual_self {s : State} {left right : Span} (h : left.bytes = right.bytes)
    (hwork : left.length ≤ s.work) :
    namesEqual s left right = (true, { s with work := s.work - left.length }) := by
  have hlength : ¬ left.length ≠ right.length := by
    unfold Span.length
    rw [h]
    exact fun hne => hne rfl
  unfold namesEqual
  rw [if_neg hlength, charge_of_le hwork]
  exact congrArg (fun b => (b, _)) (decide_eq_true h)

/-- Different names cost a comparison only when they are equally long. -/
theorem namesEqual_ne {s : State} {left : Span} (right : Span) (h : left.bytes ≠ right.bytes)
    (hwork : (if left.length = right.length then left.length else 0) ≤ s.work) :
    namesEqual s left right = (false, { s with
      work := s.work - if left.length = right.length then left.length else 0 }) := by
  unfold namesEqual
  by_cases hlength : left.length = right.length
  · rw [if_pos hlength] at hwork ⊢
    rw [if_neg (not_not.mpr hlength), charge_of_le hwork]
    exact congrArg (fun b => (b, _)) (decide_eq_false h)
  · rw [if_neg hlength, if_pos hlength]
    rfl

/-- The name in a slot that is not empty, as the search reads it. -/
theorem TableInv.read {s : State} (h : TableInv s) {slot : Nat} {other : List UInt8}
    (hslot : slot < s.slots) (hname : s.name slot = some other) :
    s.word (slot * 4) ≠ 0 ∧ s.word (slot * 4 + 3) = hashBytes other ∧
      ∃ span, sourceName s (s.word (slot * 4)) (s.word (slot * 4 + 1)) = some span ∧
        span.bytes = other := by
  have hsource : s.word (slot * 4) ≠ 0 := fun hzero => by
    rw [name_of_empty hzero] at hname
    cases hname
  obtain ⟨name, hname', hhash⟩ := h.sound slot hslot hsource
  cases hname.symm.trans hname'
  obtain ⟨span, hspan, hbytes⟩ := Option.map_eq_some_iff.mp hname
  exact ⟨hsource, hhash, span, hspan, hbytes⟩

section Examine

variable {s s' : State} {name : Span} {slot : Nat} {b : Bool} {other : List UInt8}

theorem examine_empty (hash : Nat) (hempty : s.word (slot * 4) = 0) :
    examine name hash s slot =
      (some true, { s with scratch := s.scratch.set (slot * 4 + 3) hash }) := if_pos hempty

theorem examine_name (h : TableInv s) (hslot : slot < s.slots)
    (hname : s.name slot = some name.bytes) (hwork : name.length ≤ s.work) :
    examine name (hashBytes name.bytes) s slot =
      (some true, { s with work := s.work - name.length }) := by
  obtain ⟨hsource, hhash, span, hspan, hbytes⟩ := h.read hslot hname
  unfold examine
  dsimp only
  rw [if_neg hsource, if_pos hhash, hspan]
  dsimp only
  rw [namesEqual_self hbytes.symm hwork]

theorem examine_other (h : TableInv s) (hslot : slot < s.slots)
    (hname : s.name slot = some other) (hne : other ≠ name.bytes) (hstatus : s.status = 0)
    (hwork : compareCost name.bytes other ≤ s.work) :
    examine name (hashBytes name.bytes) s slot =
      (some false, { s with work := s.work - compareCost name.bytes other }) := by
  obtain ⟨hsource, hhash, span, hspan, rfl⟩ := h.read hslot hname
  unfold examine
  dsimp only
  rw [if_neg hsource, hhash]
  unfold compareCost at hwork ⊢
  by_cases hsame : hashBytes span.bytes = hashBytes name.bytes
  · -- The hashes agree, so the names are compared; they differ.
    simp only [hsame, true_and] at hwork ⊢
    rw [if_pos trivial, hspan]
    dsimp only
    have hequal := namesEqual_ne span hne.symm hwork
    unfold Span.length at hequal
    rw [hequal]
    dsimp only
    rw [if_neg (not_not.mpr hstatus)]
  · rw [if_neg hsame, if_neg fun hand => hsame hand.1]
    rfl

/-- What an examination that does not fail has done. -/
theorem examine_ok (h : TableInv s) (hslot : slot < s.slots) (hstatus : s.status = 0)
    (hrun : examine name (hashBytes name.bytes) s slot = (some b, s')) :
    (s.word (slot * 4) = 0 ∧ b = true ∧
        s' = { s with scratch := s.scratch.set (slot * 4 + 3) (hashBytes name.bytes) }) ∨
      (s.name slot = some name.bytes ∧ b = true ∧ name.length ≤ s.work ∧
        s' = { s with work := s.work - name.length }) ∨
      ∃ other, s.name slot = some other ∧ other ≠ name.bytes ∧ b = false ∧
        compareCost name.bytes other ≤ s.work ∧
        s' = { s with work := s.work - compareCost name.bytes other } := by
  by_cases hempty : s.word (slot * 4) = 0
  · rw [examine_empty _ hempty] at hrun
    obtain ⟨hb, hs⟩ := Prod.mk.inj hrun
    exact .inl ⟨hempty, (Option.some.inj hb).symm, hs.symm⟩
  · obtain ⟨other, hname, hhash⟩ := h.sound slot hslot hempty
    by_cases hsame : other = name.bytes
    · subst hsame
      by_cases hwork : name.length ≤ s.work
      · rw [examine_name h hslot hname hwork] at hrun
        obtain ⟨hb, hs⟩ := Prod.mk.inj hrun
        exact .inr (.inl ⟨hname, (Option.some.inj hb).symm, hwork, hs.symm⟩)
      · -- The comparison is too expensive.
        obtain ⟨hsource, hhash, span, hspan, hbytes⟩ := h.read hslot hname
        unfold examine at hrun
        dsimp only at hrun
        rw [if_neg hsource, if_pos hhash, hspan] at hrun
        have hlength : ¬ name.length ≠ span.length := by
          unfold Span.length
          rw [hbytes]
          exact not_not.mpr rfl
        unfold namesEqual charge at hrun
        dsimp only at hrun
        rw [if_neg hlength, if_pos (Nat.lt_of_not_le hwork)] at hrun
        cases hrun
    · by_cases hwork : compareCost name.bytes other ≤ s.work
      · rw [examine_other h hslot hname hsame hstatus hwork] at hrun
        obtain ⟨hb, hs⟩ := Prod.mk.inj hrun
        exact .inr (.inr ⟨other, hname, hsame, (Option.some.inj hb).symm, hwork, hs.symm⟩)
      · obtain ⟨hsource, hhash, span, hspan, hbytes⟩ := h.read hslot hname
        have hand : hashBytes other = hashBytes name.bytes ∧
            name.bytes.length = other.length := by
          by_contra hnot
          unfold compareCost at hwork
          rw [if_neg hnot] at hwork
          exact hwork (Nat.zero_le _)
        unfold compareCost at hwork
        rw [if_pos hand] at hwork
        unfold examine at hrun
        dsimp only at hrun
        rw [if_neg hsource, if_pos (hhash.trans hand.1), hspan] at hrun
        have hlength : ¬ name.length ≠ span.length := by
          unfold Span.length
          rw [hbytes]
          exact not_not.mpr hand.2
        have hshort : s.work < name.length := Nat.lt_of_not_le hwork
        unfold namesEqual charge at hrun
        dsimp only at hrun
        rw [if_neg hlength, if_pos hshort] at hrun
        cases hrun

end Examine

/-! ## Searches -/

/-- What a search finds: the slot where it stopped, and the work that is left. -/
structure Lookup (s s' : State) (name : Span) (slot t : Nat) : Prop where
  steps : t < s.slots
  passed : Passed s.slots s.start s.name name.bytes t
  position : slot = slotAt s.slots (s.start name.bytes) t * 4
  frame : s' = { s with work := s'.work, scratch := s'.scratch }
  /-- The name is there, or the slot is empty and gets the hash of the name. -/
  result : s.name (slotAt s.slots (s.start name.bytes) t) = some name.bytes ∧
      s'.scratch = s.scratch ∧
      s'.work + (s.pathCost name.bytes t + 1 + 2 * name.length) = s.work ∨
    s.word slot = 0 ∧ s'.scratch = s.scratch.set (slot + 3) (hashBytes name.bytes) ∧
      s'.work + (s.pathCost name.bytes t + 1 + name.length) = s.work

theorem pathCost_succ {s : State} {name other : List UInt8} {t : Nat}
    (h : s.name (slotAt s.slots (s.start name) t) = some other) :
    s.pathCost name (t + 1) = s.pathCost name t + 1 + compareCost name other := by
  unfold State.pathCost
  rw [passCost, h]
  rfl

/-- The slots that a search still has to look at, by induction on their number. -/
theorem probe_ok {s s' : State} {name : Span} {probes t r : Nat} (h : TableInv s)
    (hstatus : s.status = 0) (hprobes : t + probes = s.slots)
    (hpassed : Passed s.slots s.start s.name name.bytes t)
    (hrun : probe name (hashBytes name.bytes) probes s (slotAt s.slots (s.start name.bytes) t) =
      (some r, s')) :
    ∃ t', t' < s.slots ∧ Passed s.slots s.start s.name name.bytes t' ∧
      r = slotAt s.slots (s.start name.bytes) t' * 4 ∧
      s' = { s with work := s'.work, scratch := s'.scratch } ∧
      (s.name (slotAt s.slots (s.start name.bytes) t') = some name.bytes ∧
          s'.scratch = s.scratch ∧
          s'.work + (s.pathCost name.bytes t' + 1 + name.length) =
            s.work + s.pathCost name.bytes t ∨
        s.word r = 0 ∧ s'.scratch = s.scratch.set (r + 3) (hashBytes name.bytes) ∧
          s'.work + (s.pathCost name.bytes t' + 1) = s.work + s.pathCost name.bytes t) := by
  -- `t` counts the slots passed; each turn spends one probe and one unit of work.
  induction probes generalizing s t with
  | zero => cases hrun
  | succ probes ih =>
      have hslot : slotAt s.slots (s.start name.bytes) t < s.slots := slotAt_lt h.slots_pos
      unfold probe at hrun
      cases hcharge : charge s 1 with
      | mk b s₁ =>
          rw [hcharge] at hrun
          cases b with
          | false => cases hrun
          | true =>
              obtain ⟨hone, rfl⟩ := charge_ok hcharge
              dsimp only at hrun
              cases hexamine : examine name (hashBytes name.bytes) { s with work := s.work - 1 }
                  (slotAt s.slots (s.start name.bytes) t) with
              | mk o s₂ =>
                  rw [hexamine] at hrun
                  cases o with
                  | none => cases hrun
                  | some b =>
                      -- The slot is free, holds the name, or holds another one.
                      rcases examine_ok (h.work (s.work - 1)) hslot hstatus hexamine with
                        ⟨hempty, rfl, rfl⟩ | ⟨hname, rfl, hwork, rfl⟩ |
                          ⟨other, hname, hne, rfl, hwork, rfl⟩
                      · cases hrun
                        exact ⟨t, by omega, hpassed, rfl, rfl, .inr ⟨hempty, rfl, by
                          show s.work - 1 + (s.pathCost name.bytes t + 1) = _
                          omega⟩⟩
                      · cases hrun
                        have hwork' : name.length ≤ s.work - 1 := hwork
                        exact ⟨t, by omega, hpassed, rfl, rfl, .inl ⟨hname, rfl, by
                          show s.work - 1 - name.length +
                            (s.pathCost name.bytes t + 1 + name.length) = _
                          omega⟩⟩
                      · -- Another name: the search goes on at the next slot.
                        have hwork' : compareCost name.bytes other ≤ s.work - 1 := hwork
                        have hname' : s.name (slotAt s.slots (s.start name.bytes) t) =
                          some other := hname
                        have hnext := h.next (s.start name.bytes) t
                        dsimp only at hrun
                        rw [hnext] at hrun
                        have hcost : s.pathCost name.bytes (t + 1) =
                            s.pathCost name.bytes t + 1 + compareCost name.bytes other :=
                          pathCost_succ hname'
                        obtain ⟨t', ht', hpassed', hr, hframe, hresult⟩ :=
                          ih (h.work (s.work - 1 - compareCost name.bytes other)) hstatus
                            (by show t + 1 + probes = s.slots; omega) (hpassed.succ hname' hne)
                            hrun
                        refine ⟨t', ht', hpassed', hr, hframe, ?_⟩
                        rcases hresult with ⟨hfound, hscratch, hsum⟩ | ⟨hempty, hscratch, hsum⟩
                        · refine .inl ⟨hfound, hscratch, ?_⟩
                          have hsum' : s'.work + (s.pathCost name.bytes t' + 1 + name.length) =
                            s.work - 1 - compareCost name.bytes other +
                              s.pathCost name.bytes (t + 1) := hsum
                          omega
                        · refine .inr ⟨hempty, hscratch, ?_⟩
                          have hsum' : s'.work + (s.pathCost name.bytes t' + 1) =
                            s.work - 1 - compareCost name.bytes other +
                              s.pathCost name.bytes (t + 1) := hsum
                          omega

theorem findName_ok {s s' : State} {name : Span} {slot : Nat} (h : TableInv s)
    (hstatus : s.status = 0) (hrun : findName s name = (some slot, s')) :
    ∃ t, Lookup s s' name slot t := by
  unfold findName nameHash at hrun
  cases hcharge : charge s name.length with
  | mk b s₁ =>
      rw [hcharge] at hrun
      cases b with
      | false => cases hrun
      | true =>
          obtain ⟨hlength, rfl⟩ := charge_ok hcharge
          dsimp only at hrun
          have hstart : hashBytes name.bytes &&& (s.slots - 1) =
              slotAt s.slots (s.start name.bytes) 0 := by
            rw [h.mask]
            unfold slotAt State.start
            rw [Nat.add_zero, Nat.mod_mod]
          rw [hstart] at hrun
          obtain ⟨t, ht, hpassed, hslot, hframe, hresult⟩ :=
            probe_ok (h.work (s.work - name.length)) hstatus (Nat.zero_add _) passed_zero hrun
          refine ⟨t, ht, hpassed, hslot, hframe, ?_⟩
          rcases hresult with ⟨hfound, hscratch, hsum⟩ | ⟨hempty, hscratch, hsum⟩
          · refine .inl ⟨hfound, hscratch, ?_⟩
            have hsum' : s'.work + (s.pathCost name.bytes t + 1 + name.length) =
              s.work - name.length + 0 := hsum
            omega
          · refine .inr ⟨hempty, hscratch, ?_⟩
            have hsum' : s'.work + (s.pathCost name.bytes t + 1) = s.work - name.length + 0 :=
              hsum
            omega

/-! ## Searching again -/

theorem probe_again {s : State} (name : Span) {probes t t' : Nat} (h : TableInv s)
    (hstatus : s.status = 0) (hfound : Found s.slots s.start s.name name.bytes t')
    (ht : t ≤ t') (hprobes : t + probes = s.slots)
    (hwork : s.pathCost name.bytes t' + 1 + name.length ≤ s.work + s.pathCost name.bytes t) :
    probe name (hashBytes name.bytes) probes s (slotAt s.slots (s.start name.bytes) t) =
      (some (slotAt s.slots (s.start name.bytes) t' * 4), { s with
        work := s.work + s.pathCost name.bytes t -
          (s.pathCost name.bytes t' + 1 + name.length) }) := by
  have hmono : s.pathCost name.bytes t ≤ s.pathCost name.bytes t' := passCost_mono ht
  -- Up to `t'` every slot holds another name; at `t'` the name itself ends the walk.
  induction probes generalizing s t with
  | zero =>
      have hlt := hfound.1
      omega
  | succ probes ih =>
      have hslot : slotAt s.slots (s.start name.bytes) t < s.slots := slotAt_lt h.slots_pos
      have hone : 1 ≤ s.work := by omega
      unfold probe
      rw [charge_of_le hone]
      dsimp only
      rcases Nat.eq_or_lt_of_le ht with rfl | hlt
      · have hlength : name.length ≤ s.work - 1 := by omega
        rw [examine_name (h.work (s.work - 1)) hslot hfound.2.2 hlength]
        dsimp only
        congr 2
        omega
      · obtain ⟨other, hname, hne⟩ := hfound.2.1 t hlt
        have hsucc := pathCost_succ hname
        have hnext : s.pathCost name.bytes (t + 1) ≤ s.pathCost name.bytes t' :=
          passCost_mono hlt
        have hcompare : compareCost name.bytes other ≤ s.work - 1 := by omega
        rw [examine_other (h.work (s.work - 1)) hslot hname hne hstatus hcompare]
        dsimp only
        rw [h.next]
        have hrest := ih (h.work (s.work - 1 - compareCost name.bytes other)) hstatus hfound hlt
          (by show t + 1 + probes = s.slots; omega)
          (by
            show s.pathCost name.bytes t' + 1 + name.length ≤
              s.work - 1 - compareCost name.bytes other + s.pathCost name.bytes (t + 1)
            omega)
          hnext
        refine hrest.trans ?_
        congr 2
        show s.work - 1 - compareCost name.bytes other + s.pathCost name.bytes (t + 1) -
          (s.pathCost name.bytes t' + 1 + name.length) = _
        omega

/-- A name that is in the table is found again, at the cost of its path. -/
theorem findName_again {s : State} {name : Span} {t : Nat} (h : TableInv s)
    (hstatus : s.status = 0) (hfound : Found s.slots s.start s.name name.bytes t)
    (hwork : s.pathCost name.bytes t + 1 + 2 * name.length ≤ s.work) :
    findName s name = (some (slotAt s.slots (s.start name.bytes) t * 4), { s with
      work := s.work - (s.pathCost name.bytes t + 1 + 2 * name.length) }) := by
  have hlength : name.length ≤ s.work := by omega
  unfold findName nameHash
  rw [charge_of_le hlength]
  dsimp only
  have hstart : hashBytes name.bytes &&& (s.slots - 1) =
      slotAt s.slots (s.start name.bytes) 0 := by
    rw [h.mask]
    unfold slotAt State.start
    rw [Nat.add_zero, Nat.mod_mod]
  rw [hstart]
  have hrest := probe_again name (h.work (s.work - name.length)) hstatus hfound
    (Nat.zero_le t) (Nat.zero_add _)
    (by
      show s.pathCost name.bytes t + 1 + name.length ≤ s.work - name.length + 0
      omega)
  refine hrest.trans ?_
  congr 2
  show s.work - name.length + 0 - (s.pathCost name.bytes t + 1 + name.length) = _
  omega

/-! ## Filling a slot -/

theorem getD_set {l : List Nat} {i : Nat} (h : i < l.length) (k v : Nat) :
    (l.set i v).getD k 0 = if k = i then v else l.getD k 0 := by
  rw [List.getD_eq_getElem?_getD, List.getElem?_set, List.getD_eq_getElem?_getD]
  by_cases hk : k = i
  · rw [if_pos hk.symm, if_pos hk, if_pos h]
    rfl
  · rw [if_neg (Ne.symm hk), if_neg hk]

theorem fill_word {s : State} {slot source index undefined : Nat}
    (h : slot + 2 < s.scratch.length) (k : Nat) :
    (s.fill slot source index undefined).word k =
      if k = slot + 2 then undefined else if k = slot + 1 then index
      else if k = slot then source else s.word k := by
  unfold State.word State.fill
  dsimp only
  rw [getD_set (by simpa using h), getD_set (by rw [List.length_set]; omega),
    getD_set (by omega)]

namespace Lookup

variable {s s' : State} {name : Span} {slot t source index undefined : Nat}

theorem slot_lt (h : TableInv s) : slotAt s.slots (s.start name.bytes) t < s.slots :=
  slotAt_lt h.slots_pos

/-- The words after the slot is filled: those of the slot, and the others as before. -/
theorem word (hl : Lookup s s' name slot t) (h : TableInv s) (k : Nat) :
    (s'.fill slot source index undefined).word k =
      if k = slot + 2 then undefined else if k = slot + 1 then index
      else if k = slot then source else if k = slot + 3 then hashBytes name.bytes
      else s.word k := by
  have hslot : slotAt s.slots (s.start name.bytes) t < s.slots := slot_lt h
  have hposition := hl.position
  have hlength := h.length
  have hbound : slot + 3 < s.scratch.length := by omega
  rcases hl.result with ⟨hname, hscratch, -⟩ | ⟨-, hscratch, -⟩
  · -- The name is there, so its hash is.
    obtain ⟨-, hhash, -⟩ := h.read hslot hname
    rw [← hposition] at hhash
    rw [fill_word (by rw [hscratch]; omega)]
    have hword : s'.word k = s.word k := by
      unfold State.word
      rw [hscratch]
    rw [hword]
    by_cases hk : k = slot + 3
    · rw [hk, if_pos rfl, hhash]
    · rw [if_neg hk]
  · rw [fill_word (by rw [hscratch, List.length_set]; omega)]
    have hword : s'.word k = if k = slot + 3 then hashBytes name.bytes else s.word k := by
      unfold State.word
      rw [hscratch]
      exact getD_set hbound k _
    rw [hword]

theorem sourceName_eq (hl : Lookup s s' name slot t) (kind i : Nat) :
    sourceName (s'.fill slot source index undefined) kind i = sourceName s kind i := by
  have hsymbols : s'.symbols = s.symbols := by rw [hl.frame]
  have hrelocations : s'.relocations = s.relocations := by rw [hl.frame]
  unfold sourceName State.fill
  dsimp only
  rw [hsymbols, hrelocations]

theorem fill_name (hl : Lookup s s' name slot t) (h : TableInv s) (undefined : Nat)
    (hsource : (sourceName s source index).map Span.bytes = some name.bytes) :
    (s'.fill slot source index undefined).name =
      Function.update s.name (slotAt s.slots (s.start name.bytes) t) (some name.bytes) := by
  have hposition := hl.position
  funext q
  unfold State.name
  rw [hl.sourceName_eq, hl.word h, hl.word h]
  by_cases hq : q = slotAt s.slots (s.start name.bytes) t
  · have hfirst : q * 4 = slot := by omega
    rw [if_neg (by omega), if_neg (by omega), if_pos hfirst, if_neg (by omega),
      if_pos (by omega), hsource, hq, Function.update_self]
  · have hfirst : q * 4 ≠ slot := by omega
    rw [if_neg (by omega), if_neg (by omega), if_neg hfirst, if_neg (by omega),
      if_neg (by omega), if_neg (by omega), if_neg (by omega), if_neg (by omega),
      Function.update_of_ne hq]

theorem fill_slots (hl : Lookup s s' name slot t) (source index undefined : Nat) :
    (s'.fill slot source index undefined).slots = s.slots := by
  unfold State.fill
  rw [hl.frame]

theorem fill_start (hl : Lookup s s' name slot t) (source index undefined : Nat) :
    (s'.fill slot source index undefined).start = s.start := by
  funext name
  unfold State.start
  rw [hl.fill_slots source index undefined]

/-- The slot is empty, or the name is there. -/
theorem stop (hl : Lookup s s' name slot t) :
    s.name (slotAt s.slots (s.start name.bytes) t) = none ∨
      s.name (slotAt s.slots (s.start name.bytes) t) = some name.bytes := by
  rcases hl.result with ⟨hname, -⟩ | ⟨hempty, -⟩
  · exact .inr hname
  · exact .inl (name_of_empty (by rw [← hl.position]; exact hempty))

theorem fill_inv (hl : Lookup s s' name slot t) (h : TableInv s)
    (hsource : (sourceName s source index).map Span.bytes = some name.bytes) :
    TableInv (s'.fill slot source index undefined) := by
  have hslots := hl.fill_slots source index undefined
  have hstart := hl.fill_start source index undefined
  have hname := hl.fill_name h undefined hsource
  have hposition := hl.position
  refine ⟨by rw [hslots]; exact h.power, ?_, ?_, ?_⟩
  · rw [hslots]
    unfold State.fill
    dsimp only
    rw [List.length_set, List.length_set, List.length_set, ← h.length]
    rcases hl.result with ⟨-, hscratch, -⟩ | ⟨-, hscratch, -⟩
    · rw [hscratch]
    · rw [hscratch, List.length_set]
  · intro q hq hne
    rw [hslots] at hq
    rw [hname]
    by_cases hqslot : q = slotAt s.slots (s.start name.bytes) t
    · refine ⟨name.bytes, by rw [hqslot, Function.update_self], ?_⟩
      rw [hl.word h, if_neg (by omega), if_neg (by omega), if_neg (by omega),
        if_pos (by omega)]
    · rw [hl.word h, if_neg (by omega), if_neg (by omega), if_neg (by omega),
        if_neg (by omega)] at hne
      obtain ⟨other, hother, hhash⟩ := h.sound q hq hne
      refine ⟨other, by rw [Function.update_of_ne hqslot]; exact hother, ?_⟩
      rw [hl.word h, if_neg (by omega), if_neg (by omega), if_neg (by omega),
        if_neg (by omega)]
      exact hhash
  · rw [hslots, hstart, hname]
    exact h.consistent.update hl.steps hl.passed hl.stop

theorem fill_extends (hl : Lookup s s' name slot t) (h : TableInv s) (undefined : Nat)
    (hsource : (sourceName s source index).map Span.bytes = some name.bytes) :
    Extends s.name (s'.fill slot source index undefined).name := by
  rw [hl.fill_name h undefined hsource]
  exact extends_update hl.stop

theorem fill_cases (hl : Lookup s s' name slot t) (h : TableInv s)
    (hsource : (sourceName s source index).map Span.bytes = some name.bytes) {p : Nat}
    {other : List UInt8} (hp : p < s.slots)
    (hother : (s'.fill slot source index undefined).name p = some other) :
    (other = name.bytes ∧ (s'.fill slot source index undefined).word (p * 4) = source ∧
        (s'.fill slot source index undefined).word (p * 4 + 1) = index ∧
        (s'.fill slot source index undefined).word (p * 4 + 2) = undefined) ∨
      other ≠ name.bytes ∧ s.name p = some other ∧
        ∀ i < 3, (s'.fill slot source index undefined).word (p * 4 + i) = s.word (p * 4 + i) := by
  have hposition := hl.position
  rw [hl.fill_name h undefined hsource] at hother
  by_cases hslot : p = slotAt s.slots (s.start name.bytes) t
  · rw [hslot, Function.update_self] at hother
    refine .inl ⟨(Option.some.inj hother).symm, ?_, ?_, ?_⟩
    · rw [hl.word h, if_neg (by omega), if_neg (by omega), if_pos (by omega)]
    · rw [hl.word h, if_neg (by omega), if_pos (by omega)]
    · rw [hl.word h, if_pos (by omega)]
  · rw [Function.update_of_ne hslot] at hother
    refine .inr ⟨?_, hother, fun i hi => ?_⟩
    · rintro rfl
      rcases hl.stop with hnone | hsome
      · exact h.consistent.notMem hl.passed hnone p hp hother
      · exact hslot (h.consistent.unique hp (slot_lt h) hother hsome)
    · rw [hl.word h, if_neg (by omega), if_neg (by omega), if_neg (by omega),
        if_neg (by omega)]

/-- The filled slot has the name, and it is found there at the same cost. -/
theorem fill_found (hl : Lookup s s' name slot t) (h : TableInv s) (undefined : Nat)
    (hsource : (sourceName s source index).map Span.bytes = some name.bytes) :
    Found (s'.fill slot source index undefined).slots
        (s'.fill slot source index undefined).start
        (s'.fill slot source index undefined).name name.bytes t ∧
      (s'.fill slot source index undefined).pathCost name.bytes t = s.pathCost name.bytes t := by
  have hextends := extends_update hl.stop
  unfold State.pathCost
  rw [hl.fill_slots source index undefined, hl.fill_start source index undefined,
    hl.fill_name h undefined hsource]
  refine ⟨⟨hl.steps, hl.passed.mono hextends, ?_⟩, passCost_extends hl.passed hextends⟩
  rw [Function.update_self]

theorem fill_self (hl : Lookup s s' name slot t) (h : TableInv s)
    (hsource : (sourceName s source index).map Span.bytes = some name.bytes) :
    (s'.fill slot source index undefined).name (slotAt s.slots (s.start name.bytes) t) =
      some name.bytes := by
  rw [hl.fill_name h undefined hsource, Function.update_self]

end Lookup

end Whale.Asmobj
