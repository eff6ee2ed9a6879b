import Whale.Linker.Archive

set_option autoImplicit false

/-! # The archive reader on any input

Whatever the input is, the reader comes to an end without a panic. The data of the members it
returns are parts of the input, one behind the other, and it spent no more than it may. -/

namespace Whale.Linker.Archive

/-- An error that the reader may report. -/
def Reported (e : ArchiveError) : Prop := e ≠ .panic

section

variable {input : List UInt8} {limits : Limits}

theorem chargeArchive_spec (work amount : Nat) :
    Answer (fun w => w = work + amount ∧ w ≤ limits.maxWork) Reported
      (chargeArchive work amount limits.maxWork) := by
  unfold chargeArchive
  refine (Answer.orThrow fun _ => nofun).mono fun w h => ?_
  obtain ⟨hsum, hle⟩ := Option.filter_eq_some_iff.mp h
  obtain ⟨rfl, -⟩ := checkedAdd_eq_some.mp hsum
  exact ⟨rfl, of_decide_eq_true hle⟩

theorem decimal_spec (t : Text) : Answer (fun n => n < wordBound) Reported (decimal t) := by
  unfold decimal
  refine (Answer.require fun _ => by rintro ⟨⟩).bind fun _ _ => ?_
  refine (Answer.require fun _ => by rintro ⟨⟩).bind fun _ h => ?_
  exact Answer.pure h

theorem index_spec {s : Slice} {lo hi : Nat} (hle : lo ≤ hi) (hlength : hi ≤ s.length) :
    Answer (fun t => s.get lo hi = some t) Reported (index s lo hi) := by
  unfold index
  rw [Slice.get_eq_some.mpr ⟨hle, hlength, rfl⟩]
  exact rfl

theorem plus_spec {a b : Nat} (h : a + b < wordBound) :
    Answer (fun n => n = a + b) Reported (plus a b) := by
  unfold plus
  rw [checkedAdd_eq_some.mpr ⟨rfl, h⟩]
  exact rfl

/-! ## Names -/

/-- What is known of a decoded name: the rest of the payload, and what was spent. -/
structure DecodedWithin (input : List UInt8) (limits : Limits) (work : Nat) (payload : Slice)
    (d : Decoded) : Prop where
  start : payload.start ≤ d.payload.start
  stop : d.payload.stop ≤ payload.stop
  longNames : ∀ t, d.longNames = some t → t.Inside input
  spent : work ≤ d.work
  work : d.work ≤ limits.maxWork

variable {work : Nat} {longNames : Option Slice} {payload : Slice}

theorem bsdName_spec (hnames : ∀ t, longNames = some t → t.Inside input) (count : Text) :
    Answer (DecodedWithin input limits work payload) Reported
      (bsdName input limits work longNames payload count) := by
  unfold bsdName
  refine (decimal_spec count).bind fun length _ => ?_
  refine (chargeArchive_spec work length).bind fun work' hwork => ?_
  refine (Answer.orThrow fun _ => by rintro ⟨⟩).bind fun name hname => ?_
  obtain ⟨-, hlength, -⟩ := Slice.get_eq_some.mp hname
  refine (index_spec hlength le_rfl).bind fun rest hrest => ?_
  refine (Answer.orThrow fun _ => by rintro ⟨⟩).bind fun text _ => ?_
  obtain ⟨hstart, hstop⟩ := Slice.get_within hrest
  exact Answer.pure ⟨hstart, hstop, hnames, by simp only; omega, hwork.2⟩

theorem longName_spec (hinput : input.length < wordMax)
    (hnames : ∀ t, longNames = some t → t.Inside input) (hwork : work ≤ limits.maxWork)
    (offset : Text) :
    Answer (DecodedWithin input limits work payload) Reported
      (longName input limits work longNames payload offset) := by
  unfold longName
  refine (decimal_spec offset).bind fun offset _ => ?_
  refine (Answer.orThrow fun _ => by rintro ⟨⟩).bind fun table htable => ?_
  refine (Answer.orThrow fun _ => by rintro ⟨⟩).bind fun suffix hsuffix => ?_
  have hinside := Slice.get_inside (hnames table htable) hsuffix
  rw [checkedSub_eq_some.mpr ⟨hwork, rfl⟩]
  refine (index_spec (Nat.zero_le _) (Nat.min_le_left _ _)).bind fun search hsearch => ?_
  have hshort : search.length ≤ suffix.length := by
    obtain ⟨-, hle, rfl⟩ := Slice.get_eq_some.mp hsearch
    simp only
    omega
  cases hfind : (search.bytes input).findIdx? fun b => b == 0x0a || b == 0 with
  | none =>
      simp only
      split
      · exact Answer.throw nofun
      · exact Answer.throw nofun
  | some length =>
      simp only
      have hlt := (List.findIdx?_eq_some_iff_getElem.mp hfind).1
      rw [Slice.length_bytes (Slice.get_inside hinside hsearch)] at hlt
      have hword : length + 1 < wordBound := by
        unfold Slice.Inside Slice.stop at hinside
        unfold wordMax at hinput
        omega
      refine (plus_spec hword).bind fun inspected _ => ?_
      refine (chargeArchive_spec work inspected).bind fun work' hspent => ?_
      refine (index_spec (Nat.zero_le _) (by omega)).bind fun name _ => ?_
      refine (Answer.orThrow fun _ => by rintro ⟨⟩).bind fun text _ => ?_
      exact Answer.pure ⟨le_rfl, le_rfl, hnames, by simp only; omega, hspent.2⟩

theorem decodeName_spec (hinput : input.length < wordMax)
    (hnames : ∀ t, longNames = some t → t.Inside input) (hpayload : payload.Inside input)
    (hwork : work ≤ limits.maxWork) (raw : Text) :
    Answer (DecodedWithin input limits work payload) Reported
      (decodeName input limits work longNames payload raw) := by
  unfold decodeName
  split
  · refine Answer.pure ⟨le_rfl, le_rfl, fun t ht => ?_, le_rfl, hwork⟩
    cases ht
    exact hpayload
  split
  · exact Answer.pure ⟨le_rfl, le_rfl, hnames, le_rfl, hwork⟩
  split
  · exact bsdName_spec hnames _
  split
  · exact longName_spec hinput hnames hwork _
  · exact Answer.pure ⟨le_rfl, le_rfl, hnames, le_rfl, hwork⟩

/-! ## Members -/

/-- The members so far are parts of the input before the cursor, one behind the other. -/
structure Parse.Good (input : List UInt8) (limits : Limits) (p : Parse) : Prop where
  members : ∀ m ∈ p.members, m.bytes.stop ≤ p.cursor ∧ m.bytes.Inside input
  ordered : p.members.Pairwise fun a b => a.bytes.Before b.bytes
  longNames : ∀ t, p.longNames = some t → t.Inside input
  strings : p.strings ≤ limits.maxStrings
  work : p.work ≤ limits.maxWork

theorem addMember_spec {p : Parse} (h : p.Good input limits) {payload : Slice}
    (hstart : p.cursor ≤ payload.start) (hinside : payload.Inside input) {d : Decoded}
    (hd : DecodedWithin input limits work payload d) :
    Answer (fun q => Parse.Good input limits { q with cursor := payload.stop }) Reported
      (addMember limits p d) := by
  have hbefore : ∀ m ∈ p.members, m.bytes.stop ≤ payload.stop ∧ m.bytes.Inside input := by
    intro m hm
    obtain ⟨hstop, hin⟩ := h.members m hm
    refine ⟨hstop.trans (hstart.trans ?_), hin⟩
    exact Nat.le_add_right _ _
  have hkeep : Parse.Good input limits
      { { p with work := d.work, longNames := d.longNames } with cursor := payload.stop } :=
    ⟨hbefore, h.ordered, hd.longNames, h.strings, hd.work⟩
  unfold addMember
  simp only
  cases d.name with
  | none => exact Answer.pure hkeep
  | some name =>
      simp only
      split
      · exact Answer.pure hkeep
      refine (Answer.orThrow fun _ => by rintro ⟨⟩).bind fun names _ => ?_
      refine (Answer.orThrow fun _ => by rintro ⟨⟩).bind fun strings hstrings => ?_
      refine (chargeArchive_spec d.work _).bind fun work' hwork => ?_
      refine (Answer.require fun _ => by rintro ⟨⟩).bind fun _ _ => ?_
      refine (Answer.require fun _ => by rintro ⟨⟩).bind fun _ _ => ?_
      refine Answer.pure ⟨?_, ?_, hd.longNames, ?_, hwork.2⟩
      · intro m hm
        rcases List.mem_append.mp hm with hm | hm
        · exact hbefore m hm
        · rw [List.mem_singleton.mp hm]
          exact ⟨hd.stop, hd.stop.trans hinside⟩
      · refine List.pairwise_append.mpr ⟨h.ordered, List.pairwise_singleton _ _, ?_⟩
        intro a ha b hb
        rw [List.mem_singleton.mp hb]
        exact (h.members a ha).1.trans (hstart.trans hd.start)
      · exact of_decide_eq_true (Option.filter_eq_some_iff.mp hstrings).2

theorem readMember_spec (hinput : input.length < wordMax) {p : Parse}
    (h : p.Good input limits) :
    Answer (fun q => q.Good input limits ∧ p.cursor < q.cursor) Reported
      (readMember input limits p) := by
  unfold readMember
  refine (chargeArchive_spec p.work 60).bind fun work hwork => ?_
  refine (Answer.orThrow fun _ => by rintro ⟨⟩).bind fun stop hstop => ?_
  obtain ⟨rfl, hword⟩ := checkedAdd_eq_some.mp hstop
  refine (Answer.orThrow fun _ => by rintro ⟨⟩).bind fun header hheader => ?_
  have hlength : header.length = 60 := by
    obtain ⟨-, -, rfl⟩ := Slice.get_eq_some.mp hheader
    simp only
    omega
  refine (index_spec (by omega) le_rfl).bind fun trailer _ => ?_
  refine (Answer.require fun _ => by rintro ⟨⟩).bind fun _ _ => ?_
  refine (index_spec (by omega) (by omega)).bind fun field _ => ?_
  have hdecimal : Answer (fun _ => True) Reported (decimalField (field.bytes input)) := by
    unfold decimalField
    refine (Answer.orThrow fun _ => by rintro ⟨⟩).bind fun text _ => ?_
    exact (decimal_spec _).mono fun _ _ => trivial
  refine hdecimal.bind fun size _ => ?_
  refine (plus_spec hword).bind fun start hstart => ?_
  subst hstart
  refine (Answer.orThrow fun _ => by rintro ⟨⟩).bind fun stop hstop => ?_
  obtain ⟨rfl, -⟩ := checkedAdd_eq_some.mp hstop
  refine (Answer.orThrow fun _ => by rintro ⟨⟩).bind fun payload hpayload => ?_
  have hin := Slice.get_inside (Slice.whole_inside input) hpayload
  obtain ⟨-, hle, rfl⟩ := Slice.get_eq_some.mp hpayload
  refine (index_spec (by omega) (by omega)).bind fun field _ => ?_
  refine (Answer.orThrow fun _ => by rintro ⟨⟩).bind fun raw _ => ?_
  refine (decodeName_spec hinput h.longNames hin hwork.2 _).bind fun d hd => ?_
  have hfrom : p.cursor ≤ (Slice.mk ((Slice.whole input).start + (p.cursor + 60))
      (p.cursor + 60 + size - (p.cursor + 60))).start := by
    simp only
    omega
  refine (addMember_spec h hfrom hin hd).bind fun q hq => ?_
  -- The padding, if there is any, is one byte of the input.
  have hstopAt : (Slice.mk ((Slice.whole input).start + (p.cursor + 60))
      (p.cursor + 60 + size - (p.cursor + 60))).stop = p.cursor + 60 + size := by
    unfold Slice.stop Slice.whole
    simp only
    omega
  rw [hstopAt] at hq
  have hpadding : Answer (fun cursor => p.cursor + 60 + size ≤ cursor) Reported
      (skipPadding input (p.cursor + 60 + size) size) := by
    unfold skipPadding
    split
    · refine (Answer.require fun _ => by rintro ⟨⟩).bind fun _ hbyte => ?_
      have hlt := (List.getElem?_eq_some_iff.mp hbyte).1
      refine (plus_spec ?_).mono fun n hn => ?_
      · unfold wordMax at hinput
        omega
      · omega
    · exact Answer.pure le_rfl
  refine hpadding.bind fun cursor hcursor => ?_
  refine Answer.pure ⟨⟨?_, hq.ordered, hq.longNames, hq.strings, hq.work⟩, by simp only; omega⟩
  intro m hm
  obtain ⟨hstop, hin⟩ := hq.members m hm
  exact ⟨hstop.trans hcursor, hin⟩

theorem readMembers_spec (hinput : input.length < wordMax) (fuel : Nat) {p : Parse}
    (h : p.Good input limits) (hfuel : input.length ≤ fuel + p.cursor) :
    Answer (fun q => q.Good input limits) Reported (readMembers input limits fuel p) := by
  induction fuel generalizing p with
  | zero =>
      unfold readMembers
      rw [if_neg (by omega)]
      exact Answer.pure h
  | succ fuel ih =>
      unfold readMembers
      split
      · refine (readMember_spec hinput h).bind fun q hq => ?_
        exact ih hq.1 (by omega)
      · exact Answer.pure h

end

/-- What a parse that succeeded returns. -/
structure Parsed (input : List UInt8) (limits : Limits) (members : List ArchiveMember)
    (strings work : Nat) : Prop where
  inside : ∀ m ∈ members, m.bytes.Inside input
  disjoint : members.Pairwise fun a b => a.bytes.Before b.bytes
  strings : strings ≤ limits.maxStrings
  work : work ≤ limits.maxWork

/-- The reader does not panic, and the members it returns are disjoint parts of the input. -/
theorem parseArchive_spec (input : List UInt8) (limits : Limits) :
    Answer (fun r => Parsed input limits r.1 r.2.1 r.2.2) Reported (parseArchive input limits) := by
  unfold parseArchive
  refine (Answer.require fun _ => by rintro ⟨⟩).bind fun _ _ => ?_
  refine (Answer.require fun _ => by rintro ⟨⟩).bind fun _ hlength => ?_
  refine (chargeArchive_spec 0 8).bind fun work hwork => ?_
  have hinput : input.length < wordMax := hlength.trans_lt (by decide)
  have hstart : Parse.Good input limits
      { work := work, cursor := 8, members := [], names := 0, strings := 0, longNames := none } := by
    refine ⟨List.forall_mem_nil _, List.Pairwise.nil, fun t ht => ?_, Nat.zero_le _, hwork.2⟩
    cases ht
  refine (readMembers_spec hinput input.length hstart (Nat.le_add_right _ _)).bind fun p hp => ?_
  exact Answer.pure ⟨fun m hm => (hp.members m hm).2, hp.ordered, hp.strings, hp.work⟩

end Whale.Linker.Archive
