import Whale.Linker.ArchiveSafe

set_option autoImplicit false

/-! # Reading what was written

An archive of well-formed entries is read back: the reader goes from entry to entry, and returns
the object members in order, as long as it stays within its limits (`parseArchive_inverts`). -/

namespace Whale.Linker.Archive

/-! ## Text -/

theorem isWhite_of_isDigit {c : Char} (h : c.isDigit = true) : Text.isWhite c = false := by
  obtain ⟨hlo, hhi⟩ := toNat_le_of_isDigit h
  unfold Text.isWhite
  simp only [Bool.or_eq_false_iff, Bool.and_eq_false_iff, decide_eq_false_iff_not]
  omega

theorem isWhite_space : Text.isWhite ' ' = true := by decide

theorem rdropWhile_replicate {α : Type} {p : α → Bool} {a : α} (ha : p a = true) (n : Nat)
    (t : List α) : (t ++ List.replicate n a).rdropWhile p = t.rdropWhile p := by
  induction n with
  | zero => rw [List.replicate_zero, List.append_nil]
  | succ n ih =>
      rw [List.replicate_succ', ← List.append_assoc, List.rdropWhile_concat_pos _ _ _ ha, ih]

theorem rdropWhile_eq_self {α : Type} {p : α → Bool} {t : List α}
    (h : ∀ a, t.getLast? = some a → p a = false) : t.rdropWhile p = t := by
  rcases List.eq_nil_or_concat t with rfl | ⟨t, a, rfl⟩
  · rfl
  · rw [List.concat_eq_append] at h ⊢
    rw [List.rdropWhile_concat_neg]
    rw [h a (by rw [List.getLast?_concat])]
    exact Bool.false_ne_true

theorem trimEnd_spaces {t : Text} (n : Nat)
    (h : ∀ c, t.getLast? = some c → Text.isWhite c = false) : trimEnd (t ++ spaces n) = t := by
  unfold trimEnd spaces
  rw [rdropWhile_replicate isWhite_space, rdropWhile_eq_self h]

section

variable {t : Text} (h : ∀ c ∈ t, c.isDigit = true)

include h

theorem trim_digits (n : Nat) : (t ++ spaces n).trim = t := by
  unfold Text.trim spaces
  cases t with
  | nil =>
      rw [List.nil_append, List.dropWhile_replicate, if_pos isWhite_space]
      rfl
  | cons c cs =>
      have hc : ¬ Text.isWhite c = true := by
        rw [isWhite_of_isDigit (h c List.mem_cons_self)]
        exact Bool.false_ne_true
      rw [List.cons_append, List.dropWhile_cons_of_neg hc, ← List.cons_append,
        rdropWhile_replicate isWhite_space]
      refine rdropWhile_eq_self fun a ha => ?_
      exact isWhite_of_isDigit (h a (List.mem_of_getLast? ha))

theorem textBytes_digits (n : Nat) :
    (textBytes (t ++ spaces n)).length = t.length + n := by
  rw [textBytes_ascii, List.length_map, List.length_append]
  · unfold spaces
    rw [List.length_replicate]
  · intro c hc
    rcases List.mem_append.mp hc with hc | hc
    · have hdigit := (toNat_le_of_isDigit (h c hc)).2
      exact hdigit.trans (by decide)
    · rw [List.eq_of_mem_replicate hc]
      decide

end

theorem isDigit_toDigits (n : Nat) : ∀ c ∈ Nat.toDigits 10 n, c.isDigit = true :=
  fun _ hc => Nat.isDigit_of_mem_toDigits (by decide) (by decide) hc

theorem toDigits_ne_nil (n : Nat) : Nat.toDigits 10 n ≠ [] := by
  intro h
  have hpos := Nat.length_toDigits_pos (b := 10) (n := n)
  rw [h] at hpos
  exact absurd hpos (by decide)

/-- A number that is written in decimal is read back. -/
theorem decimal_toDigits {n : Nat} (h : n < wordBound) (k : Nat) :
    decimal (Nat.toDigits 10 n ++ spaces k) = .ok n := by
  have hall : (Nat.toDigits 10 n).all Char.isDigit = true :=
    List.all_eq_true.mpr (isDigit_toDigits n)
  unfold decimal
  simp only
  rw [trim_digits (isDigit_toDigits n), require_of ⟨toDigits_ne_nil n, hall⟩, ok_bind,
    Nat.ofDigitChars_ten_toDigits, require_of h, ok_bind]
  rfl

theorem decimal_toDigits' {n : Nat} (h : n < wordBound) : decimal (Nat.toDigits 10 n) = .ok n := by
  have hdecimal := decimal_toDigits h 0
  unfold spaces at hdecimal
  rw [List.replicate_zero, List.append_nil] at hdecimal
  exact hdecimal

theorem length_fieldBytes {width : Nat} {t : Text} (h : (textBytes t).length ≤ width) :
    (fieldBytes width t).length = width := by
  have hspaces : ∀ n, (textBytes (spaces n)).length = n := by
    intro n
    have hlength := textBytes_digits (t := []) (fun _ hc => (nomatch hc)) n
    rw [List.nil_append, List.length_nil, Nat.zero_add] at hlength
    exact hlength
  unfold fieldBytes
  rw [textBytes_append, List.length_append, hspaces]
  omega

theorem decimalField_toDigits {n width : Nat} (h : n < wordBound) :
    decimalField (fieldBytes width (Nat.toDigits 10 n)) = .ok n := by
  unfold decimalField fieldBytes
  rw [ofBytes_textBytes, orThrow_some, ok_bind, String.toList_ofList]
  exact decimal_toDigits h _

theorem length_textBytes_digits (n : Nat) :
    (textBytes (Nat.toDigits 10 n)).length = (Nat.toDigits 10 n).length := by
  have hlength := textBytes_digits (isDigit_toDigits n) 0
  unfold spaces at hlength
  rw [List.replicate_zero, List.append_nil] at hlength
  exact hlength

theorem stripPrefix_append (a b : Text) : Text.stripPrefix a (a ++ b) = some b := by
  unfold Text.stripPrefix
  rw [if_pos (List.isPrefixOf_iff_prefix.mpr (List.prefix_append a b)), List.drop_left]

theorem stripPrefix_eq_none {a t : Text} (h : ¬ a <+: t) : Text.stripPrefix a t = none := by
  unfold Text.stripPrefix
  rw [if_neg fun hp => h (List.isPrefixOf_iff_prefix.mp hp)]

/-- Characters behind a name that are trimmed. -/
theorem trimEndMatches_replicate {name : String} {c : Char} (n : Nat)
    (h : ∀ a, name.toList.getLast? = some a → a ≠ c) :
    trimEndMatches c (name.toList ++ List.replicate n c) = name := by
  unfold trimEndMatches
  rw [rdropWhile_replicate (by simp), rdropWhile_eq_self, String.ofList_toList]
  intro a ha
  simpa using h a ha

/-! ## Names -/

/-- The limits are machine words. -/
structure Limits.InWords (limits : Limits) : Prop where
  names : limits.maxNames < wordBound
  strings : limits.maxStrings < wordBound
  work : limits.maxWork < wordBound

theorem chargeArchive_then_ok_iff {β : Type} {limit work amount : Nat} (hlimit : limit < wordBound)
    {f : Nat → Except ArchiveError β} {b : β} :
    chargeArchive work amount limit >>= f = .ok b ↔
      work + amount ≤ limit ∧ f (work + amount) = .ok b := by
  unfold chargeArchive
  by_cases hle : work + amount ≤ limit
  · have hsum : (checkedAdd work amount).filter (· ≤ limit) = some (work + amount) := by
      rw [checkedAdd_eq_some.mpr ⟨rfl, hle.trans_lt hlimit⟩]
      simp [Option.filter, hle]
    rw [hsum, orThrow_some, ok_bind]
    exact ⟨fun h => ⟨hle, h⟩, fun h => h.2⟩
  · have hsum : (checkedAdd work amount).filter (· ≤ limit) = none := by
      rw [Option.filter_eq_none_iff]
      intro n hn
      obtain ⟨rfl, -⟩ := checkedAdd_eq_some.mp hn
      simpa using hle
    rw [hsum, orThrow_none, error_bind]
    exact ⟨nofun, fun h => absurd h.1 hle⟩

/-- The table of long names is where it was read. -/
def TableIs (input : List UInt8) (longNames : Option Slice) : Option (List UInt8) → Prop
  | none => longNames = none
  | some t => ∃ s, longNames = some s ∧ s.Inside input ∧ s.bytes input = t

def Item.name : Item → Option String
  | .member name _ _ => some name
  | _ => none

/-- The table of long names behind an entry with this payload. -/
def Item.longNamesSlice (payload : Slice) (before : Option Slice) : Item → Option Slice
  | .longNames _ => some payload
  | _ => before

/-- The slice of the data of an item. -/
def Item.dataSlice (i : Item) (payload : Slice) : Slice :=
  ⟨payload.start + i.before.length, payload.length - i.before.length⟩

/-- What an item decodes to. -/
def Item.decoded (i : Item) (work : Nat) (longNames : Option Slice) (payload : Slice) :
    Decoded where
  name := i.name
  payload := i.dataSlice payload
  inspected := i.inspected
  longNames := i.longNamesSlice payload longNames
  work := work + i.inspected.getD 0

variable {table : Option (List UInt8)}

variable {data : List UInt8}

section

variable {input : List UInt8} {limits : Limits} {work : Nat} {longNames : Option Slice}
  {payload : Slice}

/-- The name of a member does not end in a slash or in white space. -/
theorem GoodName.last_ne_slash {name : String} (h : GoodName name) :
    ∀ a, name.toList.getLast? = some a → a ≠ '/' := fun a ha => (h.last a ha).1

theorem GoodName.last_ne_zero {name : String} (h : GoodName name) :
    ∀ a, name.toList.getLast? = some a → a ≠ '\x00' := by
  rintro a ha rfl
  exact h.zero (List.mem_of_getLast? ha)

theorem decodeName_short {name : String} (hgood : GoodName name) {slash : Bool}
    (hfinds : NameForm.Finds none name (.short slash)) :
    decodeName input limits work longNames payload
        (Item.nameText (.member name (.short slash) data)) =
      .ok (Item.decoded (.member name (.short slash) data) work longNames payload) := by
  obtain ⟨hslash, hbsd⟩ := hfinds
  have hname : trimEndMatches '/' (name.toList ++ if slash then ['/'] else []) = name := by
    cases slash with
    | false => exact trimEndMatches_replicate 0 hgood.last_ne_slash
    | true => exact trimEndMatches_replicate 1 hgood.last_ne_slash
  have htext : ∀ t : Text, "/".toList <+: t →
      (name.toList ++ if slash then ['/'] else []) ≠ t := by
    rintro t ht rfl
    exact hslash ht
  unfold decodeName Item.nameText
  rw [if_neg (htext _ (by decide)), if_neg, stripPrefix_eq_none hbsd, stripPrefix_eq_none hslash]
  · simp only [hname]
    rfl
  · rintro (h | h)
    · exact htext _ (by decide) h
    · exact htext _ (by decide) h

theorem decodeName_bsd (hwords : limits.InWords) (hinput : input.length ≤ maxInput) {name : String}
    (hgood : GoodName name) {zeros : Nat} (hinside : payload.Inside input)
    (hpayload : payload.bytes input = Item.payload (.member name (.bsd zeros) data)) {d : Decoded} :
    decodeName input limits work longNames payload
        (Item.nameText (.member name (.bsd zeros) data)) = .ok d ↔
      work + ((asBytes name).length + zeros) ≤ limits.maxWork ∧
        d = Item.decoded (.member name (.bsd zeros) data) work longNames payload := by
  have hlength := Slice.length_bytes hinside
  rw [hpayload] at hlength
  unfold Item.payload Item.before Item.data at hpayload hlength
  simp only [List.length_append, List.length_replicate] at hlength
  have hword : (asBytes name).length + zeros < wordBound := by
    unfold Slice.Inside Slice.stop at hinside
    have hmax : maxInput < wordBound := by decide
    omega
  have hfirst : payload.get 0 ((asBytes name).length + zeros) =
      some ⟨payload.start, (asBytes name).length + zeros⟩ :=
    Slice.get_eq_some.mpr ⟨Nat.zero_le _, by omega, rfl⟩
  have hrest : payload.get ((asBytes name).length + zeros) payload.length =
      some (Item.dataSlice (.member name (.bsd zeros) data) payload) := by
    refine Slice.get_eq_some.mpr ⟨by omega, le_rfl, ?_⟩
    unfold Item.dataSlice Item.before
    rw [List.length_append, List.length_replicate]
  have hbytes : Slice.bytes ⟨payload.start, (asBytes name).length + zeros⟩ input =
      textBytes (name.toList ++ List.replicate zeros '\x00') := by
    have htake : Slice.bytes ⟨payload.start, (asBytes name).length + zeros⟩ input =
        (payload.bytes input).take ((asBytes name).length + zeros) := by
      unfold Slice.bytes slice
      rw [List.take_take, Nat.min_eq_left (by omega)]
    have hzeros : textBytes (List.replicate zeros '\x00') = List.replicate zeros 0 := by
      rw [textBytes_ascii, List.map_replicate]
      · rfl
      · intro c hc
        rw [List.eq_of_mem_replicate hc]
        decide
    rw [htake, hpayload, List.take_left' (by simp), textBytes_append, hzeros]
    rfl
  have hne : ∀ t : Text, ¬ "#1/".toList <+: t →
      "#1/".toList ++ Nat.toDigits 10 ((asBytes name).length + zeros) ≠ t := by
    rintro t ht rfl
    exact ht (List.prefix_append _ _)
  unfold decodeName Item.nameText
  rw [if_neg (hne _ (by decide)), if_neg, stripPrefix_append]
  · show bsdName input limits work longNames payload _ = .ok d ↔ _
    unfold bsdName index
    rw [decimal_toDigits' hword, ok_bind, chargeArchive_then_ok_iff hwords.work, hfirst,
      orThrow_some, ok_bind, hrest, orThrow_some, ok_bind, hbytes, ofBytes_textBytes, orThrow_some,
      ok_bind, String.toList_ofList, trimEndMatches_replicate zeros hgood.last_ne_zero]
    refine and_congr_right fun _ => ?_
    rw [pure_eq_ok, Except.ok.injEq]
    exact eq_comm
  · rintro (h | h)
    · exact hne _ (by decide) h
    · exact hne _ (by decide) h

theorem byte_notMem_asBytes {name : String} {b : UInt8} {c : Char} (hb : b.toNat < 0x80)
    (hc : c.val.toNat = b.toNat) (h : c ∉ name.toList) : b ∉ asBytes name :=
  fun hmem => h (mem_of_mem_textBytes hb hc hmem)

/-- The end of a long name is the first line feed or zero byte behind its start. -/
theorem findIdx_terminator {bs : List UInt8} {terminator : UInt8} (rest : List UInt8) (k : Nat)
    (hend : terminator = 0x0a ∨ terminator = 0) (hbs : ∀ b ∈ bs, b ≠ 0x0a ∧ b ≠ 0) :
    ((bs ++ terminator :: rest).take k).findIdx? (fun b => b == 0x0a || b == 0) =
      if bs.length < k then some bs.length else none := by
  have hnone : ∀ b ∈ bs, (b == 0x0a || b == 0) = false := by
    intro b hb
    simpa using hbs b hb
  split
  · rename_i hlt
    rw [List.findIdx?_eq_some_iff_getElem]
    have hlength : bs.length < ((bs ++ terminator :: rest).take k).length := by
      rw [List.length_take, List.length_append, List.length_cons]
      omega
    refine ⟨hlength, ?_, fun j hj => ?_⟩
    · rw [List.getElem_take, List.getElem_append_right le_rfl]
      simpa using hend
    · rw [List.getElem_take, List.getElem_append_left hj, hnone _ (List.getElem_mem hj)]
      exact Bool.false_ne_true
  · rename_i hle
    rw [List.findIdx?_eq_none_iff, List.take_append_of_le_length (by omega)]
    exact fun b hb => hnone b (List.mem_of_mem_take hb)

theorem decodeName_long (hwords : limits.InWords) (hinput : input.length ≤ maxInput)
    (hwork : work ≤ limits.maxWork) {name : String} (hgood : GoodName name)
    (htable : TableIs input longNames table) {offset slashes : Nat}
    (hfinds : NameForm.Finds table name (.long offset slashes)) {d : Decoded} :
    decodeName input limits work longNames payload
        (Item.nameText (.member name (.long offset slashes) data)) = .ok d ↔
      work + ((asBytes name).length + slashes + 1) ≤ limits.maxWork ∧
        d = Item.decoded (.member name (.long offset slashes) data) work longNames payload := by
  obtain ⟨t, rfl, before, rest, terminator, ht, hoffset, hend⟩ := hfinds
  obtain ⟨s, rfl, hinside, hbytes⟩ := htable
  have hlength := Slice.length_bytes hinside
  rw [hbytes, ht] at hlength
  simp only [List.length_append, List.length_replicate, List.length_cons] at hlength
  have hstop : s.length ≤ input.length := by
    unfold Slice.Inside Slice.stop at hinside
    omega
  have hmax : maxInput + 2 < wordBound := by
    unfold maxInput wordBound
    omega
  have hword : offset < wordBound := by omega
  have hsuffix : s.get offset s.length = some ⟨s.start + offset, s.length - offset⟩ :=
    Slice.get_eq_some.mpr ⟨by omega, le_rfl, rfl⟩
  -- What is behind the offset: the name, slashes, the end and the rest.
  have hparts : ∀ k ≤ s.length - offset, Slice.bytes ⟨s.start + offset, k⟩ input =
      ((asBytes name ++ List.replicate slashes 0x2f) ++ terminator :: rest).take k := by
    intro k hk
    have hdrop : Slice.bytes ⟨s.start + offset, k⟩ input =
        ((s.bytes input).drop offset).take k := by
      unfold Slice.bytes slice
      rw [List.drop_take, List.take_take, List.drop_drop, Nat.min_eq_left hk]
    rw [hdrop, hbytes, ht, ← hoffset, List.drop_left]
  have hnever : ∀ b ∈ asBytes name ++ List.replicate slashes 0x2f, b ≠ 0x0a ∧ b ≠ 0 := by
    intro b hb
    rcases List.mem_append.mp hb with hb | hb
    · constructor
      · rintro rfl
        exact byte_notMem_asBytes (c := '\n') (by decide) (by decide) hgood.lineFeed hb
      · rintro rfl
        exact byte_notMem_asBytes (c := '\x00') (by decide) (by decide) hgood.zero hb
    · rw [List.eq_of_mem_replicate hb]
      decide
  have hsub : checkedSub limits.maxWork work = some (limits.maxWork - work) :=
    checkedSub_eq_some.mpr ⟨hwork, rfl⟩
  have hwindow : min (s.length - offset) (min (limits.maxWork - work + 1) wordMax) =
      min (s.length - offset) (limits.maxWork - work + 1) := by
    have hshort : s.length - offset ≤ wordMax :=
      calc s.length - offset ≤ s.length := Nat.sub_le _ _
        _ ≤ input.length := hstop
        _ ≤ maxInput := hinput
        _ ≤ wordMax := by decide
    rw [← Nat.min_assoc, Nat.min_eq_left ((Nat.min_le_left _ _).trans hshort)]
  have hsearch : Slice.get ⟨s.start + offset, s.length - offset⟩ 0
      (min (s.length - offset) (limits.maxWork - work + 1)) =
      some ⟨s.start + offset, min (s.length - offset) (limits.maxWork - work + 1)⟩ :=
    Slice.get_eq_some.mpr ⟨Nat.zero_le _, Nat.min_le_left _ _, rfl⟩
  have hfind := findIdx_terminator rest
    (min (s.length - offset) (limits.maxWork - work + 1)) hend hnever
  have hnameLength : (asBytes name ++ List.replicate slashes 0x2f).length =
      (asBytes name).length + slashes := by
    rw [List.length_append, List.length_replicate]
  rw [hnameLength] at hfind
  have hlong : longName input limits work (some s) payload (Nat.toDigits 10 offset) = .ok d ↔
      work + ((asBytes name).length + slashes + 1) ≤ limits.maxWork ∧
        d = Item.decoded (.member name (.long offset slashes) data) work (some s) payload := by
    unfold longName index
    rw [decimal_toDigits' hword, ok_bind, orThrow_some, ok_bind, hsuffix, orThrow_some, ok_bind, hsub,
      orThrow_some, ok_bind]
    simp only
    rw [hwindow, hsearch, orThrow_some, ok_bind, hparts _ (Nat.min_le_left _ _), hfind]
    by_cases hfound : (asBytes name).length + slashes <
        min (s.length - offset) (limits.maxWork - work + 1)
    · have hplus : plus ((asBytes name).length + slashes) 1 =
          .ok ((asBytes name).length + slashes + 1) :=
        orThrow_ok_iff.mpr (checkedAdd_eq_some.mpr ⟨rfl, by omega⟩)
      have hname : Slice.get ⟨s.start + offset, s.length - offset⟩ 0
          ((asBytes name).length + slashes) =
          some ⟨s.start + offset, (asBytes name).length + slashes⟩ :=
        Slice.get_eq_some.mpr ⟨Nat.zero_le _, by simp only; omega, rfl⟩
      have hslashes : List.replicate slashes 0x2f = textBytes (List.replicate slashes '/') := by
        rw [textBytes_ascii, List.map_replicate]
        · rfl
        · intro c hc
          rw [List.eq_of_mem_replicate hc]
          decide
      have htext : Slice.bytes ⟨s.start + offset, (asBytes name).length + slashes⟩ input =
          textBytes (name.toList ++ List.replicate slashes '/') := by
        rw [hparts _ (by omega), List.take_left' hnameLength, hslashes, textBytes_append]
        rfl
      rw [if_pos hfound]
      simp only
      rw [hplus, ok_bind, chargeArchive_then_ok_iff hwords.work, hname, orThrow_some, ok_bind, htext,
        ofBytes_textBytes, orThrow_some, ok_bind, String.toList_ofList,
        trimEndMatches_replicate slashes hgood.last_ne_slash, pure_eq_ok, Except.ok.injEq]
      refine and_congr_right fun _ => ?_
      exact eq_comm
    · rw [if_neg hfound]
      simp only
      constructor
      · intro h
        split at h <;> cases h
      · intro h
        omega
  have hdigits := isDigit_toDigits offset
  have hne : ∀ t : Text, (∃ c ∈ t, c.isDigit = false) ∨ t = [] →
      "/".toList ++ Nat.toDigits 10 offset ≠ "/".toList ++ t := by
    intro t ht h
    rw [List.append_cancel_left h] at hdigits
    rcases ht with ⟨c, hc, hdigit⟩ | rfl
    · rw [hdigits c hc] at hdigit
      cases hdigit
    · exact toDigits_ne_nil offset (List.append_cancel_left h)
  unfold decodeName Item.nameText
  have hdouble : "/".toList ++ Nat.toDigits 10 offset ≠ "//".toList :=
    hne ['/'] (.inl ⟨'/', by decide, by decide⟩)
  rw [if_neg hdouble, if_neg, stripPrefix_eq_none, stripPrefix_append]
  · exact hlong
  · show ¬ ['#', '1', '/'] <+: '/' :: Nat.toDigits 10 offset
    rw [List.cons_prefix_cons]
    exact fun h => absurd h.1 (by decide)
  · rintro (h | h)
    · exact hne [] (.inr rfl) h
    · exact hne "SYM64/".toList (.inl ⟨'S', by decide, by decide⟩) h

/-- The name field of an entry is decoded to what the entry says, if there is work left for it. -/
theorem decodeName_ok_iff (hwords : limits.InWords) (hinput : input.length ≤ maxInput)
    (hwork : work ≤ limits.maxWork) {item : Item} (hitem : item.WellFormed table)
    (htable : TableIs input longNames table) (hinside : payload.Inside input)
    (hpayload : payload.bytes input = item.payload) {d : Decoded} :
    decodeName input limits work longNames payload item.nameText = .ok d ↔
      work + item.inspected.getD 0 ≤ limits.maxWork ∧
        d = item.decoded work longNames payload := by
  have hfree : ∀ d' : Decoded, (Except.ok d' : Except ArchiveError Decoded) = .ok d ↔
      work + 0 ≤ limits.maxWork ∧ d = d' := by
    intro d'
    rw [Except.ok.injEq]
    exact ⟨fun h => ⟨hwork, h.symm⟩, fun h => h.2.symm⟩
  match item with
  | .member name (.short slash) data =>
      obtain ⟨hgood, hfinds⟩ := hitem
      rw [decodeName_short hgood hfinds]
      exact hfree _
  | .member name (.long offset slashes) data =>
      exact decodeName_long hwords hinput hwork hitem.1 htable hitem.2
  | .member name (.bsd zeros) data =>
      exact decodeName_bsd hwords hinput hitem.1 hinside hpayload
  | .longNames t => exact hfree _
  | .index false data => exact hfree _
  | .index true data => exact hfree _

end

/-! ## Members -/

/-- The variables of the loop behind an entry. -/
def Parse.after (p : Parse) (e : Entry) : Parse :=
  let payload : Slice := ⟨p.cursor + 60, e.item.payload.length⟩
  { work := p.work + e.item.work
    cursor := p.cursor + e.encode.length
    members := p.members ++
      (e.item.object.map fun o => { name := o.1, bytes := e.item.dataSlice payload }).toList
    names := p.names + e.item.names
    strings := p.strings + e.item.strings
    longNames := e.item.longNamesSlice payload p.longNames }

/-- The variables are within the limits. -/
structure Parse.Fits (limits : Limits) (p : Parse) : Prop where
  work : p.work ≤ limits.maxWork
  names : p.names ≤ limits.maxNames
  strings : p.strings ≤ limits.maxStrings
  members : p.members.length ≤ maxMembers

variable {p : Parse}

theorem Parse.Fits.back {limits : Limits} {e : Entry} (h : (p.after e).Fits limits) :
    p.Fits limits where
  work := (Nat.le_add_right _ _).trans h.work
  names := (Nat.le_add_right _ _).trans h.names
  strings := (Nat.le_add_right _ _).trans h.strings
  members := by
    have hmembers := h.members
    unfold Parse.after at hmembers
    rw [List.length_append] at hmembers
    exact (Nat.le_add_right _ _).trans hmembers

section

variable {input : List UInt8} {limits : Limits}

/-- The work for a name does not saturate. -/
theorem nameWork_eq {length : Nat} (h : length ≤ maxInput) :
    min (min (length * 2) wordMax + 1) wordMax = length * 2 + 1 := by
  have hmax : maxInput * 2 + 1 ≤ wordMax := by decide
  rw [Nat.min_eq_left (by omega), Nat.min_eq_left (by omega)]

theorem nameBudget_then_ok_iff {β : Type} {limit : Nat} {sum : Option Nat} {total : Nat}
    (hlimit : limit < wordBound) (hsum : total < wordBound → sum = some total)
    (hnone : ¬ total < wordBound → sum = none) {f : Nat → Except ArchiveError β} {b : β} :
    (orThrow (sum.filter (· ≤ limit)) ArchiveError.nameBudget >>= f) = .ok b ↔
      total ≤ limit ∧ f total = .ok b := by
  by_cases hle : total ≤ limit
  · rw [hsum (hle.trans_lt hlimit)]
    have hfilter : (some total).filter (· ≤ limit) = some total := by simp [Option.filter, hle]
    rw [hfilter, orThrow_some, ok_bind]
    exact ⟨fun h => ⟨hle, h⟩, fun h => h.2⟩
  · have hfilter : sum.filter (· ≤ limit) = none := by
      rw [Option.filter_eq_none_iff]
      intro n hn
      by_cases hword : total < wordBound
      · rw [hsum hword] at hn
        cases hn
        simpa using hle
      · rw [hnone hword] at hn
        cases hn
    rw [hfilter, orThrow_none, error_bind]
    exact ⟨nofun, fun h => absurd h.1 hle⟩

/-- An entry that is no object member leaves the members and the names as they are. -/
theorem addMember_skip {e : Entry} (hobject : e.item.object = none) (hfits : p.Fits limits)
    (hwork : p.work + 60 + e.item.inspected.getD 0 ≤ limits.maxWork) :
    addMember limits p (e.item.decoded (p.work + 60) p.longNames
        ⟨p.cursor + 60, e.item.payload.length⟩) = .ok { p.after e with cursor := p.cursor } ∧
      (p.after e).Fits limits := by
  have hnames : e.item.names = 0 := by simp [Item.names, hobject]
  have hstrings : e.item.strings = 0 := by simp [Item.strings, hobject]
  have hitemWork : e.item.work = 60 + e.item.inspected.getD 0 := by simp [Item.work, hobject]
  have hafter : { p.after e with cursor := p.cursor } =
      { p with
        work := p.work + 60 + e.item.inspected.getD 0
        longNames := e.item.longNamesSlice ⟨p.cursor + 60, e.item.payload.length⟩
          p.longNames } := by
    simp [Parse.after, hobject, hnames, hstrings, hitemWork, Nat.add_assoc]
  constructor
  · rw [hafter]
    unfold addMember Item.decoded
    -- Without an object the item is an index or the table of long names.
    cases hitem : e.item with
    | member name form data =>
        have hindex : isBsdIndex name = true := by
          rw [hitem] at hobject
          unfold Item.object at hobject
          simp only at hobject
          split at hobject
          · assumption
          · cases hobject
        simp only [Item.name]
        rw [if_pos hindex]
        rfl
    | longNames t => rfl
    | index wide data => rfl
  · refine ⟨?_, ?_, ?_, ?_⟩
    · show p.work + e.item.work ≤ limits.maxWork
      rw [hitemWork, ← Nat.add_assoc]
      exact hwork
    · show p.names + e.item.names ≤ limits.maxNames
      rw [hnames]
      exact hfits.names
    · show p.strings + e.item.strings ≤ limits.maxStrings
      rw [hstrings]
      exact hfits.strings
    · simpa [Parse.after, hobject] using hfits.members

/-- An object member is kept when the variables behind it are within the limits. -/
theorem addMember_keep (hwords : limits.InWords) {e : Entry} {name : String} {form : NameForm}
    (hitem : e.item = .member name form data) (hindex : ¬ isBsdIndex name = true)
    (hgood : GoodName name) (hlength : (asBytes name).length ≤ maxInput) {q : Parse} :
    addMember limits p (e.item.decoded (p.work + 60) p.longNames
        ⟨p.cursor + 60, e.item.payload.length⟩) = .ok q ↔
      (p.after e).Fits limits ∧ q = { p.after e with cursor := p.cursor } := by
  have hobject : e.item.object = some (name, data) := by
    rw [hitem]
    exact if_neg hindex
  have hnames : e.item.names = (asBytes name).length := by simp [Item.names, hobject]
  have hstrings : e.item.strings =
      e.item.inspected.getD (asBytes name).length + (asBytes name).length := by
    simp [Item.strings, hobject]
  have hitemWork : e.item.work = 60 + e.item.inspected.getD 0 + ((asBytes name).length * 2 + 1) := by
    simp [Item.work, hobject]
  have hname : e.item.name = some name := by
    rw [hitem]
    rfl
  have hwork : p.work + e.item.work =
      p.work + 60 + e.item.inspected.getD 0 + ((asBytes name).length * 2 + 1) := by
    rw [hitemWork]
    omega
  -- The source adds with a check and compares with the limit after it.
  have hsumNames : ∀ total, total = p.names + (asBytes name).length →
      (total < wordBound → checkedAdd p.names (asBytes name).length = some total) ∧
      (¬ total < wordBound → checkedAdd p.names (asBytes name).length = none) := by
    rintro total rfl
    exact ⟨fun h => if_pos h, fun h => if_neg h⟩
  have hsumStrings : ∀ total, total = p.strings + e.item.strings →
      (total < wordBound → (checkedAdd p.strings (e.item.inspected.getD (asBytes name).length)).bind
        (checkedAdd · (asBytes name).length) = some total) ∧
      (¬ total < wordBound → (checkedAdd p.strings
        (e.item.inspected.getD (asBytes name).length)).bind
          (checkedAdd · (asBytes name).length) = none) := by
    rintro total rfl
    rw [hstrings, ← Nat.add_assoc]
    unfold checkedAdd
    constructor
    · intro h
      rw [if_pos (by omega), Option.bind_some, if_pos h]
    · intro h
      split
      · rw [Option.bind_some, if_neg h]
      · rfl
  unfold addMember Item.decoded
  simp only [hname]
  rw [if_neg hindex, ← length_asBytes, nameWork_eq hlength,
    nameBudget_then_ok_iff hwords.names (hsumNames _ rfl).1 (hsumNames _ rfl).2,
    nameBudget_then_ok_iff hwords.strings (hsumStrings _ rfl).1 (hsumStrings _ rfl).2,
    chargeArchive_then_ok_iff hwords.work, require_then_ok_iff, require_then_ok_iff, pure_eq_ok,
    Except.ok.injEq, ← hwork, ← hnames]
  have hafter : { p.after e with cursor := p.cursor } =
      { p with
        work := p.work + e.item.work
        longNames := e.item.longNamesSlice ⟨p.cursor + 60, e.item.payload.length⟩ p.longNames
        names := p.names + e.item.names
        strings := p.strings + e.item.strings
        members := p.members ++
          [{ name := name, bytes := e.item.dataSlice ⟨p.cursor + 60, e.item.payload.length⟩ }] } := by
    simp [Parse.after, hobject]
  have hcount : (p.after e).members.length = p.members.length + 1 := by
    simp [Parse.after, hobject]
  rw [hafter]
  constructor
  · rintro ⟨hn, hs, hw, -, hm, rfl⟩
    exact ⟨⟨hw, hn, hs, by rw [hcount]; exact hm⟩, rfl⟩
  · rintro ⟨hfits, rfl⟩
    have hm := hfits.members
    rw [hcount] at hm
    exact ⟨hfits.names, hfits.strings, hfits.work, ⟨hgood.nonempty, hgood.zero⟩, hm, rfl⟩

theorem addMember_ok_iff (hwords : limits.InWords) {e : Entry} (hitem : e.item.WellFormed table)
    (hlength : ∀ name, e.item.name = some name → (asBytes name).length ≤ maxInput)
    (hfits : p.Fits limits) (hwork : p.work + 60 + e.item.inspected.getD 0 ≤ limits.maxWork)
    {q : Parse} :
    addMember limits p (e.item.decoded (p.work + 60) p.longNames
        ⟨p.cursor + 60, e.item.payload.length⟩) = .ok q ↔
      (p.after e).Fits limits ∧ q = { p.after e with cursor := p.cursor } := by
  cases hobject : e.item.object with
  | none =>
      obtain ⟨hok, hafter⟩ := addMember_skip hobject hfits hwork
      rw [hok, Except.ok.injEq]
      exact ⟨fun h => ⟨hafter, h.symm⟩, fun h => h.2.symm⟩
  | some o =>
      cases hi : e.item with
      | member name form data =>
          rw [hi] at hitem hobject
          have hindex : ¬ isBsdIndex name = true := by
            intro h
            unfold Item.object at hobject
            simp only [h, if_true] at hobject
            cases hobject
          have hname : e.item.name = some name := by
            rw [hi]
            rfl
          rw [← hi]
          exact addMember_keep hwords hi hindex hitem.1 (hlength name hname)
      | longNames t =>
          rw [hi] at hobject
          cases hobject
      | index wide data =>
          rw [hi] at hobject
          cases hobject

end

/-! ## One entry -/

theorem Entry.length_header {e : Entry} (h : e.Fits) : e.header.length = 60 := by
  unfold Entry.header
  rw [List.length_append, List.length_append, List.length_append, length_fieldBytes h.name, h.fields,
    length_fieldBytes (by rw [length_textBytes_digits]; exact h.size)]
  rfl

theorem Entry.length_encode {e : Entry} (h : e.Fits) :
    e.encode.length = 60 + e.item.payload.length + (padding e.item.payload.length).length := by
  unfold Entry.encode
  rw [List.length_append, List.length_append, e.length_header h, Nat.add_assoc]

/-- The name of a member is in its header, in its payload or in the table of long names. -/
theorem length_name_le {input : List UInt8} (hinput : input.length ≤ maxInput) {e : Entry}
    (hfits : e.Fits) (hpayload : e.item.payload.length ≤ input.length) {longNames : Option Slice}
    (htable : TableIs input longNames table) (hitem : e.item.WellFormed table) {name : String}
    (hname : e.item.name = some name) : (asBytes name).length ≤ maxInput := by
  cases hi : e.item with
  | member n form data =>
      rw [hi] at hname hitem hpayload
      cases hname
      cases form with
      | short slash =>
          have hshort := hfits.name
          rw [hi] at hshort
          unfold Item.nameText at hshort
          rw [textBytes_append, List.length_append] at hshort
          have hmax : 16 ≤ maxInput := by decide
          have hsame : (asBytes name).length = (textBytes name.toList).length := rfl
          omega
      | long offset slashes =>
          obtain ⟨t, rfl, before, rest, terminator, ht, -, -⟩ := hitem.2
          obtain ⟨s, -, hinside, hbytes⟩ := htable
          have hlength := Slice.length_bytes hinside
          rw [hbytes, ht] at hlength
          simp only [List.length_append, List.length_cons] at hlength
          unfold Slice.Inside Slice.stop at hinside
          omega
      | bsd zeros =>
          unfold Item.payload Item.before at hpayload
          simp only [List.length_append] at hpayload
          omega
  | longNames t =>
      rw [hi] at hname
      cases hname
  | index wide data =>
      rw [hi] at hname
      cases hname

section

variable {input pre post : List UInt8} {limits : Limits} {e : Entry}

/-- The parts of an entry are where the reader looks for them. -/
structure Located (input : List UInt8) (cursor : Nat) (e : Entry) : Prop where
  header : cursor + 60 + e.item.payload.length ≤ input.length
  name : Slice.bytes ⟨cursor, 16⟩ input = fieldBytes 16 e.item.nameText
  size : Slice.bytes ⟨cursor + 48, 10⟩ input =
    fieldBytes 10 (Nat.toDigits 10 e.item.payload.length)
  trailer : Slice.bytes ⟨cursor + 58, 2⟩ input = [0x60, 0x0a]
  payload : Slice.bytes ⟨cursor + 60, e.item.payload.length⟩ input = e.item.payload
  padding : e.item.payload.length % 2 ≠ 0 →
    input[cursor + 60 + e.item.payload.length]? = some 0x0a

theorem located (hfits : e.Fits) (hinput : input = pre ++ (e.encode ++ post)) :
    Located input pre.length e := by
  have hname := length_fieldBytes hfits.name
  have hsize : (fieldBytes 10 (Nat.toDigits 10 e.item.payload.length)).length = 10 :=
    length_fieldBytes (by rw [length_textBytes_digits]; exact hfits.size)
  have hheader := e.length_header hfits
  have hfields := hfits.fields
  -- Each field is a middle part of the input, which is split around it.
  refine ⟨?_, ?_, ?_, ?_, ?_, ?_⟩
  · rw [hinput, List.length_append, List.length_append, e.length_encode hfits]
    omega
  · have hshape : input = pre ++ (fieldBytes 16 e.item.nameText ++ (e.fields ++
        (fieldBytes 10 (Nat.toDigits 10 e.item.payload.length) ++ [0x60, 0x0a]) ++
        (e.item.payload ++ padding e.item.payload.length) ++ post)) := by
      rw [hinput]
      unfold Entry.encode Entry.header
      simp only [List.append_assoc]
    rw [hshape]
    exact Slice.bytes_middle rfl hname.symm
  · have hshape : input = (pre ++ fieldBytes 16 e.item.nameText ++ e.fields) ++
        (fieldBytes 10 (Nat.toDigits 10 e.item.payload.length) ++ ([0x60, 0x0a] ++
        (e.item.payload ++ padding e.item.payload.length) ++ post)) := by
      rw [hinput]
      unfold Entry.encode Entry.header
      simp only [List.append_assoc]
    rw [hshape]
    refine Slice.bytes_middle ?_ hsize.symm
    rw [List.length_append, List.length_append, hname, hfields]
  · have hshape : input = (pre ++ fieldBytes 16 e.item.nameText ++ e.fields ++
        fieldBytes 10 (Nat.toDigits 10 e.item.payload.length)) ++ ([0x60, 0x0a] ++
        (e.item.payload ++ padding e.item.payload.length ++ post)) := by
      rw [hinput]
      unfold Entry.encode Entry.header
      simp only [List.append_assoc]
    rw [hshape]
    refine Slice.bytes_middle ?_ rfl
    rw [List.length_append, List.length_append, List.length_append, hname, hfields, hsize]
  · have hshape : input = (pre ++ e.header) ++ (e.item.payload ++
        (padding e.item.payload.length ++ post)) := by
      rw [hinput]
      unfold Entry.encode
      simp only [List.append_assoc]
    rw [hshape]
    refine Slice.bytes_middle ?_ rfl
    rw [List.length_append, hheader]
  · intro hodd
    have hshape : input = (pre ++ e.header ++ e.item.payload) ++ (0x0a :: post) := by
      rw [hinput]
      unfold Entry.encode padding
      rw [if_pos hodd]
      simp only [List.append_assoc, List.singleton_append]
    have hlength : pre.length + 60 + e.item.payload.length =
        (pre ++ e.header ++ e.item.payload).length := by
      rw [List.length_append, List.length_append, hheader]
    rw [hshape, hlength, List.getElem?_append_right le_rfl, Nat.sub_self]
    rfl

/-- The last character of a name field is not white. -/
theorem nameText_last {item : Item} (h : item.WellFormed table) :
    ∀ c, item.nameText.getLast? = some c → Text.isWhite c = false := by
  have hnumber : ∀ (t : Text) (n : Nat) c, (t ++ Nat.toDigits 10 n).getLast? = some c →
      Text.isWhite c = false := by
    intro t n c hc
    rw [List.getLast?_append_of_ne_nil _ (toDigits_ne_nil n)] at hc
    exact isWhite_of_isDigit (isDigit_toDigits n c (List.mem_of_getLast? hc))
  have hslash : Text.isWhite '/' = false := by decide
  intro c hc
  match item with
  | .member name (.short false) _ =>
      have hc : (name.toList ++ []).getLast? = some c := hc
      rw [List.append_nil] at hc
      exact (h.1.last c hc).2
  | .member name (.short true) _ =>
      have hc : (name.toList ++ ['/']).getLast? = some c := hc
      rw [List.getLast?_concat] at hc
      cases hc
      exact hslash
  | .member name (.long offset _) _ => exact hnumber _ _ c hc
  | .member name (.bsd zeros) _ => exact hnumber _ _ c hc
  | .longNames _ =>
      cases hc
      exact hslash
  | .index false _ =>
      cases hc
      exact hslash
  | .index true _ =>
      cases hc
      exact hslash

/-- An entry is read when the variables behind it are within the limits. -/
theorem readMember_ok_iff (hwords : limits.InWords) (hinput : input.length ≤ maxInput)
    (hlocated : Located input p.cursor e) (hfits : e.Fits)
    (htable : TableIs input p.longNames table) (hitem : e.item.WellFormed table)
    (hp : p.Fits limits) {q : Parse} :
    readMember input limits p = .ok q ↔ (p.after e).Fits limits ∧ q = p.after e := by
  have hmax : maxInput + 100 < wordBound := by decide
  have hlength := hlocated.header
  have hstop : checkedAdd p.cursor 60 = some (p.cursor + 60) :=
    checkedAdd_eq_some.mpr ⟨rfl, by omega⟩
  have hheader : (Slice.whole input).get p.cursor (p.cursor + 60) = some ⟨p.cursor, 60⟩ := by
    refine Slice.get_eq_some.mpr ⟨Nat.le_add_right _ _, ?_, ?_⟩
    · show p.cursor + 60 ≤ input.length
      omega
    · show _ = Slice.mk (0 + p.cursor) (p.cursor + 60 - p.cursor)
      rw [Nat.zero_add, Nat.add_sub_cancel_left]
  have hplus : plus p.cursor 60 = .ok (p.cursor + 60) := by
    unfold plus
    rw [hstop]
    rfl
  have hsum : checkedAdd (p.cursor + 60) e.item.payload.length =
      some (p.cursor + 60 + e.item.payload.length) := checkedAdd_eq_some.mpr ⟨rfl, by omega⟩
  have hpayload : (Slice.whole input).get (p.cursor + 60)
      (p.cursor + 60 + e.item.payload.length) =
      some ⟨p.cursor + 60, e.item.payload.length⟩ := by
    refine Slice.get_eq_some.mpr ⟨Nat.le_add_right _ _, hlength, ?_⟩
    show _ = Slice.mk (0 + (p.cursor + 60)) (p.cursor + 60 + e.item.payload.length - (p.cursor + 60))
    rw [Nat.zero_add, Nat.add_sub_cancel_left]
  have hraw : ofBytes (fieldBytes 16 e.item.nameText) = some (String.ofList (e.item.nameText ++
      spaces (16 - (textBytes e.item.nameText).length))) := ofBytes_textBytes _
  have hsize : e.item.payload.length < wordBound := by omega
  have hindex : ∀ lo hi : Nat, lo ≤ hi → hi ≤ 60 → index ⟨p.cursor, 60⟩ lo hi =
      .ok ⟨p.cursor + lo, hi - lo⟩ := by
    intro lo hi hle hhi
    unfold index
    rw [Slice.get_eq_some.mpr ⟨hle, hhi, rfl⟩]
    rfl
  have hinside : Slice.Inside ⟨p.cursor + 60, e.item.payload.length⟩ input := hlength
  -- An odd payload is followed by one byte of padding, which the entry writes too.
  have hpadding : skipPadding input (p.cursor + 60 + e.item.payload.length)
      e.item.payload.length = .ok (p.cursor + e.encode.length) := by
    have hend := e.length_encode hfits
    unfold skipPadding
    unfold padding at hend
    by_cases hodd : e.item.payload.length % 2 ≠ 0
    · rw [if_pos hodd] at hend ⊢
      have hlt := (List.getElem?_eq_some_iff.mp (hlocated.padding hodd)).1
      rw [require_of (hlocated.padding hodd), ok_bind, hend]
      unfold plus
      rw [checkedAdd_eq_some.mpr ⟨rfl, by omega⟩, orThrow_some]
      congr 1
      simp only [List.length_singleton]
      omega
    · rw [if_neg hodd] at hend ⊢
      rw [hend, List.length_nil, Nat.add_zero, Nat.add_assoc]
      rfl
  -- After the header come the name, the member itself and the padding.
  have hrest : (do
      let decoded ← decodeName input limits (p.work + 60) p.longNames
        ⟨p.cursor + 60, e.item.payload.length⟩ e.item.nameText
      let q ← addMember limits p decoded
      return { q with cursor := p.cursor + e.encode.length } : Except ArchiveError Parse) = .ok q ∧
        p.work + 60 ≤ limits.maxWork ↔ (p.after e).Fits limits ∧ q = p.after e := by
    constructor
    · rintro ⟨h, hwork⟩
      obtain ⟨d, hd, h⟩ := bind_ok_iff.mp h
      obtain ⟨hspent, rfl⟩ := (decodeName_ok_iff hwords hinput hwork hitem htable hinside
        hlocated.payload).mp hd
      obtain ⟨r, hr, h⟩ := bind_ok_iff.mp h
      have hlengths : ∀ name, e.item.name = some name → (asBytes name).length ≤ maxInput :=
        fun name => length_name_le hinput hfits (by omega) htable hitem
      obtain ⟨hall, rfl⟩ := (addMember_ok_iff hwords hitem hlengths hp hspent).mp hr
      cases h
      exact ⟨hall, rfl⟩
    · rintro ⟨hall, rfl⟩
      have hwork := hall.work
      have htotal : (p.after e).work = p.work + e.item.work := rfl
      have hitemWork : 60 + e.item.inspected.getD 0 ≤ e.item.work := Nat.le_add_right _ _
      have hlengths : ∀ name, e.item.name = some name → (asBytes name).length ≤ maxInput :=
        fun name => length_name_le hinput hfits (by omega) htable hitem
      refine ⟨?_, by omega⟩
      rw [(decodeName_ok_iff hwords hinput (by omega) hitem htable hinside hlocated.payload).mpr
        ⟨by omega, rfl⟩, ok_bind,
        (addMember_ok_iff hwords hitem hlengths hp (by omega)).mpr ⟨hall, rfl⟩]
      rfl
  unfold readMember
  rw [chargeArchive_then_ok_iff hwords.work, hstop, orThrow_some, ok_bind, hheader, orThrow_some,
    ok_bind, hindex 58 60 (by decide) le_rfl, ok_bind, require_of hlocated.trailer, ok_bind,
    hindex 48 58 (by decide) (by decide), ok_bind, hlocated.size, decimalField_toDigits hsize,
    ok_bind, hplus, ok_bind, hsum, orThrow_some, ok_bind, hpayload, orThrow_some, ok_bind,
    hindex 0 16 (by decide) (by decide), ok_bind]
  simp only [Nat.add_zero, Nat.sub_zero]
  rw [hlocated.name, hraw, orThrow_some, ok_bind, String.toList_ofList,
    trimEnd_spaces _ (nameText_last hitem)]
  simp only [hpadding, ok_bind]
  rw [and_comm]
  exact hrest

end

end Whale.Linker.Archive
