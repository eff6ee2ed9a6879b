import Mathlib.Tactic.IntervalCases
import Mathlib.Tactic.Push
import Whale.Lib.Bits
import Whale.Object.Coff.Symbols
import Whale.Object.Valid

set_option autoImplicit false

/-! # Addends in relocated fields

Whatever addend the writer puts into a field, the reader finds there, up to the bits the field
has (`applyAddend_spec`). -/

namespace Whale.Coff

/-! ## Words -/

/-- A signed number read from the bits of a number is congruent to it. -/
theorem toInt_ofInt_modEq (n : Nat) (i : Int) : (BitVec.ofInt n i).toInt ≡ i [ZMOD 2 ^ n] := by
  rw [BitVec.toInt_ofInt]
  have h : i.bmod (2 ^ n) % ((2 ^ n : Nat) : Int) = i % ((2 ^ n : Nat) : Int) := Int.bmod_emod
  exact_mod_cast h

/-! ## Instructions -/

/-- The bits of a branch distance, and the distance they denote. -/
theorem branch_spec {addend : Int} {bits : Nat} {value : BitVec 32} (hbits : 0 < bits)
    (hle : bits ≤ 32) (hmask : CoversField (BitVec.ofNat 32 (2 ^ bits - 1)) 0 bits)
    (h : branch addend bits = some value) :
    value.extractLsb' 0 bits = BitVec.ofInt bits (addend / 4) ∧
      (BitVec.ofInt bits (addend / 4)).toInt * 4 = addend := by
  unfold branch at h
  by_cases hbad : addend % 4 ≠ 0 ∨ ¬ (-(2 ^ (bits + 1)) ≤ addend ∧ addend < 2 ^ (bits + 1))
  · rw [if_pos hbad] at h
    cases h
  · rw [if_neg hbad] at h
    cases h
    push Not at hbad
    obtain ⟨hmod, hlow, hhigh⟩ := hbad
    have hpow : (2 : Int) ^ (bits + 1) = 4 * 2 ^ (bits - 1) := by
      obtain ⟨k, rfl⟩ : ∃ k, bits = k + 1 := ⟨bits - 1, by omega⟩
      rw [Nat.add_sub_cancel, pow_succ, pow_succ]
      omega
    refine ⟨?_, ?_⟩
    · rw [hmask.and, extractLsb'_ofInt _ hle]
    · rw [BitVec.toInt_ofInt_eq_self hbits (by omega) (by omega)]
      omega

/-- The two fields of an address hold the low and the high bits of the distance. -/
theorem address_spec {addend : Int} (hlow : -(2 ^ 20) ≤ addend) (hhigh : addend < 2 ^ 20)
    {bits : BitVec 32} (hbits : bits = BitVec.ofInt 32 addend &&& 0x1fffff#32) :
    ((((bits &&& 3#32) <<< 29) ||| ((bits >>> 2) <<< 5)).extractLsb' 5 19 ++
      (((bits &&& 3#32) <<< 29) ||| ((bits >>> 2) <<< 5)).extractLsb' 29 2).toInt = addend := by
  have hmask : CoversField 0x1fffff#32 0 21 := by decide
  have hnumber : bits.extractLsb' 0 21 = BitVec.ofInt 21 addend := by
    rw [hbits, hmask.and, extractLsb'_ofInt _ (by decide)]
  have hbig : ∀ i, 21 ≤ i → bits.getLsbD i = false := by
    intro i hi
    rw [hbits, BitVec.getLsbD_and]
    by_cases h32 : i < 32
    · have hmaskBit : (0x1fffff#32).getLsbD i = false := by
        interval_cases i <;> decide
      rw [hmaskBit, Bool.and_false]
    · rw [BitVec.getLsbD_of_ge _ _ (by omega), Bool.false_and]
  have hhighField : (((bits &&& 3#32) <<< 29) ||| ((bits >>> 2) <<< 5)).extractLsb' 5 19 =
      (bits.extractLsb' 0 21).extractLsb' 2 19 := by
    apply BitVec.eq_of_getLsbD_eq
    intro i hi
    have h₁ : 5 + i < 32 := by omega
    have h₂ : 5 + i < 29 := by omega
    simp [hi, h₁, h₂]
  have hlowField : (((bits &&& 3#32) <<< 29) ||| ((bits >>> 2) <<< 5)).extractLsb' 29 2 =
      (bits.extractLsb' 0 21).extractLsb' 0 2 := by
    apply BitVec.eq_of_getLsbD_eq
    intro i hi
    have h26 : bits[26] = false := hbig 26 (by decide)
    have h27 : bits[27] = false := hbig 27 (by decide)
    interval_cases i
    · simp [h26]
    · simp [h27]
  rw [hhighField, hlowField, hnumber]
  have happend : (BitVec.ofInt 21 addend).extractLsb' 2 19 ++
      (BitVec.ofInt 21 addend).extractLsb' 0 2 = BitVec.ofInt 21 addend :=
    BitVec.extractLsb'_append_extractLsb' (w := 19)
  rw [happend]
  exact BitVec.toInt_ofInt_eq_self (by decide) (by omega) (by omega)

/-- The addend in an instruction, by the code of the relocation. -/
theorem instructionAddend_spec {code : UInt16} {word mask value : BitVec 32} {addend : Int}
    (h : instructionAddend code word addend = some (mask, value)) {bs : List UInt8}
    (hslice : slice bs 0 4 = leBytes 4 ((word &&& ~~~ mask) ||| value).toNat) :
    readAddend .aArch64 code.toNat bs = some addend := by
  unfold instructionAddend at h
  -- A branch by 26 bits, a branch by 19 bits, and `adr` with its split field.
  by_cases h3 : code = 3
  · rw [if_pos h3] at h
    by_cases hword : word &&& 0x7c000000 ≠ 0x14000000
    · rw [if_pos hword] at h
      cases h
    · rw [if_neg hword, Option.map_eq_some_iff] at h
      obtain ⟨v, hv, hpair⟩ := h
      cases hpair
      obtain ⟨hfield, hint⟩ := branch_spec (by decide) (by decide) (by decide) hv
      subst h3
      show some (((BitVec.ofNat 32 (leValue (slice bs 0 4))).extractLsb' 0 26).toInt * 4) = _
      have hmask : CoversField 0x03ffffff#32 0 26 := by decide
      rw [word_of_slice hslice, hmask.replace, hfield, hint]
  · rw [if_neg h3] at h
    by_cases h15 : code = 15
    · rw [if_pos h15] at h
      by_cases hword : ¬ (word &&& 0xff000010 = 0x54000000 ∨ word &&& 0x7e000000 = 0x34000000)
      · rw [if_pos hword] at h
        cases h
      · rw [if_neg hword, Option.map_eq_some_iff] at h
        obtain ⟨v, hv, hpair⟩ := h
        cases hpair
        obtain ⟨hfield, hint⟩ := branch_spec (by decide) (by decide) (by decide) hv
        subst h15
        show some (((BitVec.ofNat 32 (leValue (slice bs 0 4))).extractLsb' 5 19).toInt * 4) = _
        have hmask : CoversField 0x00ffffe0#32 5 19 := by decide
        rw [word_of_slice hslice, hmask.replace, extractLsb'_shiftLeft_self (by decide), hfield,
          hint]
    · rw [if_neg h15] at h
      by_cases h5 : code = 5
      · rw [if_pos h5] at h
        by_cases hword : word &&& 0x9f000000 ≠ 0x10000000
        · rw [if_pos hword] at h
          cases h
        · rw [if_neg hword] at h
          by_cases hrange : ¬ (-(2 ^ 20) ≤ addend ∧ addend < 2 ^ 20)
          · rw [if_pos hrange] at h
            cases h
          · rw [if_neg hrange] at h
            rw [not_not] at hrange
            cases h
            subst h5
            show some (((BitVec.ofNat 32 (leValue (slice bs 0 4))).extractLsb' 5 19 ++
              (BitVec.ofNat 32 (leValue (slice bs 0 4))).extractLsb' 29 2)).toInt = _
            have hhigh : CoversField 0x60ffffe0#32 5 19 := by decide
            have hlow : CoversField 0x60ffffe0#32 29 2 := by decide
            rw [word_of_slice hslice, hhigh.replace, hlow.replace,
              address_spec hrange.1 hrange.2 rfl]
      · rw [if_neg h5] at h
        cases h

/-- The field has the width of the relocation, and its addend is read back. -/
theorem applyAddend_spec {bytes out : List UInt8} {kind : RelocKind} {addend : Int64}
    {machine : Machine} {e : Nat × Nat} (hencoding : kind.coffEncoding machine = some e)
    (h : applyAddend bytes kind addend = some out) :
    out.length = e.2 ∧ ∀ bs, slice bs 0 e.2 = out →
      ∃ a, readAddend machine e.1 bs = some a ∧
        a ≡ addend.toInt [ZMOD 2 ^ addendBits machine e.1] := by
  cases kind with
  | coffSpecific m code =>
      simp only [applyAddend, Option.map_eq_some_iff] at h
      obtain ⟨⟨mask, value⟩, hfield, rfl⟩ := h
      cases machine <;> cases m <;> simp only [RelocKind.coffEncoding, reduceCtorEq] at hencoding
      by_cases hcode : code = 3 ∨ code = 5 ∨ code = 15
      · rw [if_pos hcode] at hencoding
        cases hencoding
        refine ⟨length_leBytes _ _, fun bs hbs => ⟨addend.toInt, ?_, Int.ModEq.refl _⟩⟩
        exact instructionAddend_spec hfield hbs
      · rw [if_neg hcode] at hencoding
        cases hencoding
  | absolute64 =>
      cases h
      refine ⟨?_, fun bs hbs => ⟨(BitVec.ofInt 64 addend.toInt).toInt, ?_, ?_⟩⟩
      · cases machine <;> cases hencoding <;> exact length_leBytes _ _
      · cases machine <;> cases hencoding
        · exact congrArg (fun w : BitVec 64 => some w.toInt) (doubleword_of_slice hbs)
        · exact congrArg (fun w : BitVec 64 => some w.toInt) (doubleword_of_slice hbs)
      · cases machine <;> cases hencoding <;> exact toInt_ofInt_modEq 64 _
  | absolute32 =>
      simp only [applyAddend] at h
      by_cases hrange : -(2 ^ 31) ≤ addend.toInt ∧ addend.toInt < 2 ^ 32
      · rw [if_pos hrange] at h
        cases h
        refine ⟨?_, fun bs hbs => ⟨(BitVec.ofInt 32 addend.toInt).toInt, ?_, ?_⟩⟩
        · cases machine <;> cases hencoding <;> exact length_leBytes _ _
        · cases machine <;> cases hencoding
          · exact congrArg (fun w : BitVec 32 => some w.toInt) (word_of_slice hbs)
          · exact congrArg (fun w : BitVec 32 => some w.toInt) (word_of_slice hbs)
        · cases machine <;> cases hencoding <;> exact toInt_ofInt_modEq 32 _
      · rw [if_neg hrange] at h
        cases h
  | relative32 | plt32 =>
      simp only [applyAddend] at h
      -- The format counts from the field's end, so four is added here and taken off in reading.
      by_cases hrange : -(2 ^ 31) ≤ addend.toInt + 4 ∧ addend.toInt + 4 < 2 ^ 31
      · rw [if_pos hrange] at h
        cases h
        have hint : (BitVec.ofInt 32 (addend.toInt + 4)).toInt - 4 = addend.toInt := by
          rw [BitVec.toInt_ofInt_eq_self (by decide) (by omega) (by omega)]
          omega
        cases machine <;> cases hencoding
        refine ⟨length_leBytes _ _, fun bs hbs => ⟨addend.toInt, ?_, Int.ModEq.refl _⟩⟩
        show some ((BitVec.ofNat 32 (leValue (slice bs 0 4))).toInt - 4) = _
        rw [word_of_slice hbs, hint]
      · rw [if_neg hrange] at h
        cases h
  | targetSpecific | machSpecific | signedAbsolute32 | relative8 | gotPcRel => cases h

/-! # The sections of COFF objects

The plan gives every section its own part of the file, in order. Emission writes the header,
the data, the relocations and the symbol of each section, and no step touches what another one
wrote (`emitSections_spec`). -/

/-! ## Characteristics -/

variable {s : Section}

/-- The characteristics of a section give back its kind and its alignment. -/
theorem characteristics_spec {flags : Nat} (h : characteristics s = .ok flags) :
    flags < 2 ^ 32 ∧ readKind flags = some s.kind ∧ readAlign flags = max s.align.toNat 1 := by
  obtain ⟨_, hrequire, h₁⟩ := bind_ok_iff.mp h
  obtain ⟨hle, hpower⟩ := require_ok_iff.mp hrequire
  have hflags := (Except.ok.inj h₁).symm
  obtain ⟨k, hpow⟩ := isPowerOfTwo_iff.mp hpower
  have hk : k < 14 := by
    rw [hpow] at hle
    exact (Nat.pow_lt_pow_iff_right (by decide)).mp (Nat.lt_of_le_of_lt hle (by decide))
  -- One of fourteen alignments, for each kind.
  rw [hpow, Nat.log2_two_pow] at hflags
  rw [hpow, hflags]
  cases s.kind <;> interval_cases k <;> decide

/-! ## The plan -/

/-- The layout of a section with `count` relocations between `lo` and `hi`. -/
structure Planned (strings : Strings) (s : Section) (count lo hi : Nat) (l : SectionLayout) :
    Prop where
  order : lo ≤ hi
  few : count < 65535
  nameLength : l.name.length = 8
  name : ∀ table, strings.Within table → readSectionName table l.name = some (asBytes s.name)
  symbolNameLength : l.symbolName.length = 8
  noData : NoData s → l.data = 0
  data : ¬ NoData s → lo ≤ l.data ∧ l.data + s.data.length ≤ hi ∧
    (count ≠ 0 → l.data + s.data.length ≤ l.relocation)
  relocation : count ≠ 0 → lo ≤ l.relocation ∧ l.relocation + count * 10 ≤ hi
  relocationLe : l.relocation ≤ hi
  relocationBound : l.relocation < 2 ^ 32
  dataBound : l.data < 2 ^ 32
  size : s.memorySize = some l.size ∧ l.size < 2 ^ 32
  flags : l.flags < 2 ^ 32 ∧ readKind l.flags = some s.kind ∧
    readAlign l.flags = max s.align.toNat 1

variable {cursor limit : Nat}

theorem planData_ok {r : Nat × Nat} (h : planData s cursor limit = .ok r)
    (hcursor : cursor < 2 ^ 32) :
    cursor ≤ r.2 ∧ r.2 < 2 ^ 32 ∧ r.1 ≤ r.2 ∧ (NoData s → r.1 = 0) ∧
      (¬ NoData s → cursor ≤ r.1 ∧ r.1 + s.data.length = r.2) := by
  unfold planData at h
  by_cases hno : s.kind = .bss ∨ s.data = []
  · rw [if_pos hno] at h
    cases h
    exact ⟨Nat.le_refl _, hcursor, Nat.zero_le _, fun _ => rfl, fun hn => absurd hno hn⟩
  · rw [if_neg hno] at h
    obtain ⟨start, hstart, h₁⟩ := bind_ok_iff.mp h
    obtain ⟨stop, hstop, h₂⟩ := bind_ok_iff.mp h₁
    cases h₂
    obtain ⟨hstartEq, -, -⟩ := grow_ok hstart
    obtain ⟨hstopEq, -, hbound⟩ := grow_ok hstop
    simp only
    exact ⟨by omega, hbound, by omega, fun hn => absurd hn hno, fun _ => ⟨by omega, by omega⟩⟩

theorem planRelocations_ok {count cursor limit : Nat} {r : Nat × Nat}
    (h : planRelocations count cursor limit = .ok r) (hcursor : cursor < 2 ^ 32) :
    cursor ≤ r.2 ∧ r.2 < 2 ^ 32 ∧ r.1 ≤ r.2 ∧
      (count ≠ 0 → cursor ≤ r.1 ∧ r.1 + count * 10 = r.2) := by
  unfold planRelocations at h
  by_cases hzero : count = 0
  · rw [if_pos hzero] at h
    cases h
    exact ⟨Nat.le_refl _, hcursor, Nat.zero_le _, fun hn => absurd hzero hn⟩
  · rw [if_neg hzero] at h
    obtain ⟨stop, hstop, h₁⟩ := bind_ok_iff.mp h
    cases h₁
    obtain ⟨hstopEq, -, hbound⟩ := grow_ok hstop
    simp only
    exact ⟨by omega, hbound, by omega, fun _ => ⟨Nat.le_refl _, by omega⟩⟩

variable {strings : Strings}

theorem plan_ok {count cursor limit : Nat} {p : SectionPlan}
    (h : plan s count strings cursor limit = .ok p) (hstrings : strings.Inv)
    (hcursor : cursor < 2 ^ 32) :
    p.strings.Inv ∧ strings.Within p.strings.bytes ∧ p.cursor < 2 ^ 32 ∧
      Planned p.strings s count cursor p.cursor p.layout := by
  obtain ⟨_, hcount, h₁⟩ := bind_ok_iff.mp h
  obtain ⟨data, hdata, h₂⟩ := bind_ok_iff.mp h₁
  obtain ⟨⟨name, t⟩, hname, h₃⟩ := bind_ok_iff.mp h₂
  obtain ⟨⟨symbolName, u⟩, hsymbolName, h₄⟩ := bind_ok_iff.mp h₃
  obtain ⟨relocation, hrelocation, h₅⟩ := bind_ok_iff.mp h₄
  obtain ⟨size, hsize, h₆⟩ := bind_ok_iff.mp h₅
  obtain ⟨_, hsizeBound, h₇⟩ := bind_ok_iff.mp h₆
  obtain ⟨flags, hflags, h₈⟩ := bind_ok_iff.mp h₇
  cases h₈
  obtain ⟨hdata₁, hdata₂, hdata₃, hdata₄, hdata₅⟩ := planData_ok hdata hcursor
  obtain ⟨hrel₁, hrel₂, hrel₃, hrel₄⟩ := planRelocations_ok hrelocation hdata₂
  obtain ⟨ht, hwithin, hlength, hread⟩ := Strings.name_spec hstrings hname
  obtain ⟨hu, hwithin', hlength', -⟩ := Strings.name_spec ht hsymbolName
  refine ⟨hu, hwithin.trans hwithin', hrel₂, ?_⟩
  exact {
    order := Nat.le_trans hdata₁ hrel₁
    few := require_ok_iff.mp hcount
    nameLength := hlength
    name := fun table htable => hread table (hwithin'.trans htable)
    symbolNameLength := hlength'
    noData := hdata₄
    data := fun hn => by
      obtain ⟨hlo, hstop⟩ := hdata₅ hn
      refine ⟨hlo, ?_, fun hne => ?_⟩
      · simp only
        omega
      · have hstart := (hrel₄ hne).1
        simp only
        omega
    relocation := fun hne => by
      obtain ⟨hlo, hstop⟩ := hrel₄ hne
      exact ⟨Nat.le_trans hdata₁ hlo, Nat.le_of_eq hstop⟩
    relocationLe := hrel₃
    relocationBound := Nat.lt_of_le_of_lt hrel₃ hrel₂
    dataBound := Nat.lt_of_le_of_lt hdata₃ hdata₂
    size := ⟨orThrow_ok_iff.mp hsize, require_ok_iff.mp hsizeBound⟩
    flags := characteristics_spec hflags }

/-- Layouts one behind the other. -/
def PlannedAll (strings : Strings) :
    List (Section × List ObjectRelocation) → List SectionLayout → Nat → Nat → Prop
  | [], [], lo, hi => lo ≤ hi
  | e :: es, l :: ls, lo, hi =>
      ∃ mid, Planned strings e.1 e.2.length lo mid l ∧ PlannedAll strings es ls mid hi
  | _, _, _, _ => False

theorem Planned.later {strings strings' : Strings} {count lo hi : Nat} {l : SectionLayout}
    (h : Planned strings s count lo hi l) (hwithin : strings.Within strings'.bytes) :
    Planned strings' s count lo hi l :=
  { h with name := fun table htable => h.name table (hwithin.trans htable) }

variable {es : List (Section × List ObjectRelocation)}

theorem planSections_ok {p : SectionPlans} (h : planSections limit es strings cursor = .ok p)
    (hstrings : strings.Inv) (hcursor : cursor < 2 ^ 32) :
    p.strings.Inv ∧ strings.Within p.strings.bytes ∧ p.cursor < 2 ^ 32 ∧
      PlannedAll p.strings es p.layouts cursor p.cursor := by
  induction es generalizing strings cursor p with
  | nil =>
      cases h
      exact ⟨hstrings, List.prefix_refl _, hcursor, Nat.le_refl _⟩
  | cons e es ih =>
      obtain ⟨q, hplan, h₁⟩ := bind_ok_iff.mp h
      obtain ⟨rest, hrest, h₂⟩ := bind_ok_iff.mp h₁
      cases h₂
      obtain ⟨hq, hwithin, hbound, hplanned⟩ := plan_ok hplan hstrings hcursor
      obtain ⟨hfinal, hwithin', hbound', hall⟩ := ih hrest hq hbound
      exact ⟨hfinal, hwithin.trans hwithin', hbound', q.cursor, hplanned.later hwithin', hall⟩

variable {ls : List SectionLayout}

theorem PlannedAll.le {lo hi : Nat} (h : PlannedAll strings es ls lo hi) : lo ≤ hi := by
  induction es generalizing ls lo with
  | nil =>
      cases ls with
      | nil => exact h
      | cons l ls => exact h.elim
  | cons e es ih =>
      cases ls with
      | nil => exact h.elim
      | cons l ls =>
          obtain ⟨mid, hplanned, hall⟩ := h
          exact Nat.le_trans hplanned.order (ih hall)

/-- The part of one of the sections. -/
theorem PlannedAll.get {lo hi : Nat} (h : PlannedAll strings es ls lo hi) {n : Nat}
    {e : Section × List ObjectRelocation} {l : SectionLayout} (he : es[n]? = some e)
    (hl : ls[n]? = some l) :
    ∃ lo' hi', lo ≤ lo' ∧ hi' ≤ hi ∧ Planned strings e.1 e.2.length lo' hi' l := by
  induction es generalizing ls lo n with
  | nil => cases he
  | cons e' es ih =>
      cases ls with
      | nil => cases hl
      | cons l' ls =>
          obtain ⟨mid, hfirst, hrest⟩ := h
          cases n with
          | zero =>
              cases he
              cases hl
              exact ⟨lo, mid, Nat.le_refl _, hrest.le, hfirst⟩
          | succ n =>
              obtain ⟨lo', hi', hlo, hhi, hplanned⟩ := ih hrest he hl
              exact ⟨lo', hi', Nat.le_trans hfirst.order hlo, hhi, hplanned⟩

theorem PlannedAll.length {lo hi : Nat} (h : PlannedAll strings es ls lo hi) :
    ls.length = es.length := by
  induction es generalizing ls lo with
  | nil =>
      cases ls with
      | nil => rfl
      | cons l ls => exact h.elim
  | cons e es ih =>
      cases ls with
      | nil => exact h.elim
      | cons l ls =>
          obtain ⟨mid, -, hall⟩ := h
          rw [List.length_cons, List.length_cons, ih hall]

end Whale.Coff
