import Whale.Assembler.Fixed.Operand

set_option autoImplicit false

/-! # The grammar of integers

An integer of an operand is a decimal, hexadecimal or binary literal behind an optional `#` and
an optional sign, with blanks around them. The parser takes the parts off one by one and leaves
the digits to `fromStrRadix`, which takes a sign of its own: it reads all integers of the
grammar, and literals with a sign or a separator where the first digit should be. -/

namespace Whale

variable {t : Text}

namespace Text

/-! ## Blanks -/

def Blank (t : Text) : Prop := ∀ c ∈ t, isWhite c = true

/-- Without blanks at its ends. -/
def Trimmed (t : Text) : Prop :=
  (∀ c, t.head? = some c → isWhite c = false) ∧ ∀ c, t.getLast? = some c → isWhite c = false

theorem Blank.append {s t : Text} (hs : Blank s) (ht : Blank t) : Blank (s ++ t) := by
  intro c hc
  exact (List.mem_append.mp hc).elim (hs c) (ht c)

theorem blank_nil : Blank [] := nofun

theorem dropWhile_blank {s t : Text} (hs : Blank s) :
    (s ++ t).dropWhile isWhite = t.dropWhile isWhite := by
  induction s with
  | nil => rfl
  | cons c s ih =>
      rw [List.cons_append, List.dropWhile_cons_of_pos (hs c List.mem_cons_self)]
      exact ih fun c' hc' => hs c' (List.mem_cons_of_mem c hc')

theorem dropWhile_eq_self (h : ∀ c, t.head? = some c → isWhite c = false) :
    t.dropWhile isWhite = t := by
  cases t with
  | nil => rfl
  | cons c t => exact List.dropWhile_cons_of_neg (by simp [h c rfl])

theorem rdropWhile_blank {s t : Text} (ht : Blank t) :
    (s ++ t).rdropWhile isWhite = s.rdropWhile isWhite := by
  unfold List.rdropWhile
  rw [List.reverse_append, dropWhile_blank fun c hc => ht c (List.mem_reverse.mp hc)]

theorem rdropWhile_eq_self (h : ∀ c, t.getLast? = some c → isWhite c = false) :
    t.rdropWhile isWhite = t := by
  refine List.rdropWhile_eq_self_iff.mpr fun hne => ?_
  rw [h _ (List.getLast?_eq_some_getLast hne)]
  exact Bool.false_ne_true

theorem trim_eq_of_blank {before t after : Text} (hbefore : Blank before) (hafter : Blank after)
    (ht : Trimmed t) : trim (before ++ t ++ after) = t := by
  unfold trim
  rw [List.append_assoc, dropWhile_blank hbefore]
  cases t with
  | nil =>
      rw [List.nil_append, ← List.append_nil after, dropWhile_blank hafter]
      rfl
  | cons c t =>
      have hhead : ((c :: t) ++ after).dropWhile isWhite = (c :: t) ++ after :=
        dropWhile_eq_self fun c' hc' => ht.1 c' hc'
      rw [hhead, rdropWhile_blank hafter, rdropWhile_eq_self ht.2]

/-- Every text is its trimmed part between blanks. -/
theorem exists_trim (t : Text) : ∃ before after, t = before ++ trim t ++ after ∧ Blank before ∧
    Blank after := by
  refine ⟨t.takeWhile isWhite, (t.dropWhile isWhite).rtakeWhile isWhite, ?_, ?_, ?_⟩
  · unfold trim
    rw [List.append_assoc, List.rdropWhile_append_rtakeWhile, List.takeWhile_append_dropWhile]
  · exact fun c hc => List.mem_takeWhile_imp hc
  · exact fun c hc => List.mem_rtakeWhile_imp hc

theorem head_dropWhile {c : Char} (h : (t.dropWhile isWhite).head? = some c) :
    isWhite c = false := by
  have hnot := List.head?_dropWhile_not isWhite t
  rw [h] at hnot
  exact hnot

theorem trimmed_trim (t : Text) : Trimmed (trim t) := by
  unfold trim
  constructor
  · intro c hc
    obtain ⟨rest, hrest⟩ := List.rdropWhile_prefix isWhite (l := t.dropWhile isWhite)
    apply head_dropWhile (t := t)
    rw [← hrest, List.head?_append, hc]
    rfl
  · intro c hc
    have hne : (t.dropWhile isWhite).rdropWhile isWhite ≠ [] := by
      intro hnil
      rw [hnil] at hc
      cases hc
    have hlast := List.rdropWhile_last_not isWhite _ hne
    rw [List.getLast?_eq_some_getLast hne, Option.some.injEq] at hc
    rw [← hc]
    simpa using hlast

end Text

namespace Assembler

open Text

/-! ## The grammar -/

/-- The text without separators. -/
def clean (t : Text) : Text := t.filter (· ≠ '_')

/-- Digits of a radix; separators may stand behind the first one. -/
def IsDigits (radix : Nat) : Text → Prop
  | [] => False
  | c :: cs => (digit radix c).isSome = true ∧ ∀ c' ∈ cs, c' = '_' ∨ (digit radix c').isSome = true

/-- The number of the digits. -/
def magnitude (radix : Nat) (t : Text) : Nat :=
  (clean t).foldl (fun n c => n * radix + (digit radix c).getD 0) 0

/-- The letters of a radix, behind a zero. -/
def radixLetters : Nat → List Char
  | 16 => ['x', 'X']
  | 2 => ['b', 'B']
  | _ => []

inductive Literal : Text → Nat → Prop where
  | decimal {ds : Text} (h : IsDigits 10 ds) : Literal ds (magnitude 10 ds)
  | radix {r : Nat} {x : Char} {ds : Text} (hx : x ∈ radixLetters r) (h : IsDigits r ds) :
      Literal ('0' :: x :: ds) (magnitude r ds)

/-- The text is an optional `#`, an optional sign and the rest, with blanks around them. -/
structure Spells (text : Text) (negative : Bool) (rest : Text) : Prop where
  trimmed : Trimmed rest
  parts : ∃ before hash between sign behind after,
    text = before ++ hash ++ between ++ sign ++ behind ++ rest ++ after ∧
      Blank before ∧ Blank between ∧ Blank behind ∧ Blank after ∧ (hash = [] ∨ hash = ['#']) ∧
        if negative then sign = ['-'] else sign = [] ∨ sign = ['+']

/-- The integers of the grammar. -/
def Denotes (text : Text) (value : Int) : Prop :=
  ∃ negative literal m, Spells text negative literal ∧ Literal literal m ∧ m < 2 ^ 127 ∧
    value = if negative then -(m : Int) else m

/-- A literal that `fromStrRadix` reads although no digit stands right behind the prefix of the
radix: a sign does, or a separator stands there or within the prefix. -/
structure Slip (negative : Bool) (literal : Text) : Prop where
  head : literal.head? = some '0'
  rest : ∃ r x ds value, x ∈ radixLetters r ∧ clean literal = '0' :: x :: ds ∧
    fromStrRadix ds r = some value ∧ (negative = true → value ≠ -2 ^ 127)
  noDigit : ∀ r x c cs, x ∈ radixLetters r → literal = '0' :: x :: c :: cs →
    (digit r c).isSome = false

/-! ## Steps of the parser -/

/-- The sign of a text and what is left of it to read. -/
def strip (text : Text) : Bool × Text :=
  let text := trim ((stripPrefix ['#'] (trim text)).getD (trim text))
  let negative : Bool := text.head? = some '-'
  (negative, trim (if negative then text.drop 1 else (stripPrefix ['+'] text).getD text))

/-- The digits without the prefix of the radix. -/
def radixSplit : Text → Text × Nat
  | '0' :: 'x' :: ds => (ds, 16)
  | '0' :: 'X' :: ds => (ds, 16)
  | '0' :: 'b' :: ds => (ds, 2)
  | '0' :: 'B' :: ds => (ds, 2)
  | ds => (ds, 10)

theorem stripPrefix_cons (c : Char) (t : Text) : stripPrefix [c] (c :: t) = some t := by
  unfold stripPrefix
  rw [if_pos (by simp)]
  rfl

theorem stripPrefix_of_ne {c : Char} (h : t.head? ≠ some c) : stripPrefix [c] t = none := by
  unfold stripPrefix
  refine if_neg fun hstart => h ?_
  obtain ⟨rest, rfl⟩ := List.isPrefixOf_iff_prefix.mp hstart
  rfl

/-- What is left after a prefix of one character, if it is there. -/
theorem exists_stripPrefix (c : Char) (t : Text) : ∃ start,
    t = start ++ (stripPrefix [c] t).getD t ∧ (start = [] ∨ start = [c]) := by
  by_cases h : t.head? = some c
  · obtain ⟨rest, rfl⟩ := List.head?_eq_some_iff.mp h
    exact ⟨[c], by rw [stripPrefix_cons]; rfl, .inr rfl⟩
  · exact ⟨[], by rw [stripPrefix_of_ne h]; rfl, .inl rfl⟩

/-- The parser takes the text apart as the grammar says. -/
theorem spells_strip (text : Text) : Spells text (strip text).1 (strip text).2 := by
  unfold strip
  simp only
  obtain ⟨before, after, htext, hbefore, hafter⟩ := exists_trim text
  obtain ⟨hash, hhash, hhash'⟩ := exists_stripPrefix '#' (trim text)
  generalize (stripPrefix ['#'] (trim text)).getD (trim text) = t at *
  obtain ⟨between, after', ht, hbetween, hafter'⟩ := exists_trim t
  generalize trim t = core at *
  by_cases hnegative : core.head? = some '-'
  · obtain ⟨u, rfl⟩ := List.head?_eq_some_iff.mp hnegative
    obtain ⟨behind, after'', hu, hbehind, hafter''⟩ := exists_trim u
    simp only [List.head?_cons, decide_true, if_true, List.drop_succ_cons, List.drop_zero]
    refine ⟨trimmed_trim u, before, hash, between, ['-'], behind, after'' ++ after' ++ after, ?_,
      hbefore, hbetween, hbehind, (hafter''.append hafter').append hafter, hhash', rfl⟩
    rw [htext, hhash, ht]
    nth_rewrite 1 [hu]
    simp
  · obtain ⟨sign, hsign, hsign'⟩ := exists_stripPrefix '+' core
    simp only [hnegative, decide_false, Bool.false_eq_true, if_false]
    generalize (stripPrefix ['+'] core).getD core = u at *
    obtain ⟨behind, after'', hu, hbehind, hafter''⟩ := exists_trim u
    refine ⟨trimmed_trim u, before, hash, between, sign, behind, after'' ++ after' ++ after, ?_,
      hbefore, hbetween, hbehind, (hafter''.append hafter').append hafter, hhash', hsign'⟩
    rw [htext, hhash, ht, hsign]
    nth_rewrite 1 [hu]
    simp

/-- A sign in front of a text that begins with a digit. -/
theorem trimmed_sign {sign behind rest : Text} (hrest : Trimmed rest) (hne : rest ≠ [])
    (hsign : sign = ['-'] ∨ sign = ['+']) : Trimmed (sign ++ behind ++ rest) := by
  constructor
  · intro c hc
    rcases hsign with rfl | rfl <;> cases hc <;> decide
  · intro c hc
    rw [List.getLast?_append, List.getLast?_eq_some_getLast hne, Option.some_or] at hc
    exact hrest.2 c (by rw [List.getLast?_eq_some_getLast hne, hc])

/-- Behind the `#`, the text is read from its first sign or digit on. -/
theorem trim_hash {before hash between core after : Text} (hbefore : Blank before)
    (hbetween : Blank between) (hafter : Blank after) (hcore : Trimmed core)
    (hhash : hash = [] ∨ hash = ['#']) (hhead : core.head? ≠ some '#') (hne : core ≠ []) :
    trim ((stripPrefix ['#'] (trim (before ++ hash ++ between ++ core ++ after))).getD
      (trim (before ++ hash ++ between ++ core ++ after))) = core := by
  have htrim := trim_eq_of_blank blank_nil blank_nil hcore
  rw [List.nil_append, List.append_nil] at htrim
  rcases hhash with rfl | rfl
  · rw [List.append_nil, trim_eq_of_blank (hbefore.append hbetween) hafter hcore,
      stripPrefix_of_ne hhead]
    exact htrim
  · have hinner : Trimmed ('#' :: (between ++ core)) := by
      constructor
      · intro c hc
        cases hc
        decide
      · intro c hc
        rw [← List.cons_append, List.getLast?_append, List.getLast?_eq_some_getLast hne,
          Option.some_or] at hc
        exact hcore.2 c (by rw [List.getLast?_eq_some_getLast hne, hc])
    have hsplit : before ++ ['#'] ++ between ++ core ++ after =
        before ++ ('#' :: (between ++ core)) ++ after := by simp
    rw [hsplit, trim_eq_of_blank hbefore hafter hinner, stripPrefix_cons, Option.getD_some]
    have hbetween' := trim_eq_of_blank hbetween blank_nil hcore
    rw [List.append_nil] at hbetween'
    exact hbetween'

theorem strip_of_spells {text : Text} {negative : Bool} {rest : Text}
    (h : Spells text negative rest) (hdigit : rest.head?.any Char.isDigit = true) :
    strip text = (negative, rest) := by
  obtain ⟨htrimmed, before, hash, between, sign, behind, after, rfl, hbefore, hbetween, hbehind,
    hafter, hhash, hsign⟩ := h
  have hne : rest ≠ [] := by
    rintro rfl
    cases hdigit
  have hhead : ∀ c, c.isDigit = false → rest.head? ≠ some c := by
    intro c hc heq
    rw [heq] at hdigit
    exact Bool.false_ne_true (hc.symm.trans hdigit)
  have hbehind' := trim_eq_of_blank hbehind blank_nil htrimmed
  rw [List.append_nil] at hbehind'
  have htrim := trim_eq_of_blank blank_nil blank_nil htrimmed
  rw [List.nil_append, List.append_nil] at htrim
  have hsigned : ∀ s, s = ['-'] ∨ s = ['+'] → trim ((stripPrefix ['#'] (trim (before ++ hash ++
      between ++ s ++ behind ++ rest ++ after))).getD (trim (before ++ hash ++ between ++ s ++
        behind ++ rest ++ after))) = s ++ behind ++ rest := by
    intro s hs
    have hassoc : before ++ hash ++ between ++ s ++ behind ++ rest ++ after =
        before ++ hash ++ between ++ (s ++ behind ++ rest) ++ after := by simp
    rw [hassoc]
    refine trim_hash hbefore hbetween hafter (trimmed_sign htrimmed hne hs) hhash ?_ ?_
    · rcases hs with rfl | rfl <;> simp
    · rcases hs with rfl | rfl <;> simp
  unfold strip
  cases negative with
  | true =>
      obtain rfl : sign = ['-'] := hsign
      rw [hsigned _ (.inl rfl)]
      simp [hbehind']
  | false =>
      -- Without a sign the blanks on both sides of its place are one run.
      rcases hsign with rfl | rfl
      · have hassoc : before ++ hash ++ between ++ [] ++ behind ++ rest ++ after =
            before ++ hash ++ (between ++ behind) ++ rest ++ after := by simp
        rw [hassoc, trim_hash hbefore (hbetween.append hbehind) hafter htrimmed hhash
          (hhead '#' (by decide)) hne]
        simp [hhead '-' (by decide), stripPrefix_of_ne (hhead '+' (by decide)), htrim]
      · rw [hsigned _ (.inr rfl)]
        simp [stripPrefix_cons, hbehind']

theorem integer_ok_iff {text : Text} {v : Int} : integer text = .ok v ↔
    (strip text).2.head?.any Char.isDigit = true ∧
      ∃ w, fromStrRadix (radixSplit (clean (strip text).2)).1
          (radixSplit (clean (strip text).2)).2 = some w ∧
        ((strip text).1 = true → w ≠ -2 ^ 127) ∧ v = if (strip text).1 then -w else w := by
  have hmatch : ∀ t, (match clean t with
      | '0' :: 'x' :: ds => fromStrRadix ds 16
      | '0' :: 'X' :: ds => fromStrRadix ds 16
      | '0' :: 'b' :: ds => fromStrRadix ds 2
      | '0' :: 'B' :: ds => fromStrRadix ds 2
      | ds => fromStrRadix ds 10) =
      fromStrRadix (radixSplit (clean t)).1 (radixSplit (clean t)).2 := by
    intro t
    generalize clean t = ds
    unfold radixSplit
    split <;> rfl
  have hstrip : integer text = do
      require ((strip text).2.head?.any Char.isDigit = true)
        (error (.invalidInteger (strip text).2))
      let value ← orThrow (fromStrRadix (radixSplit (clean (strip text).2)).1
        (radixSplit (clean (strip text).2)).2) (error (.invalidInteger (strip text).2))
      if (strip text).1 then
        require (value ≠ -2 ^ 127) (failure "integer overflow")
        return -value
      else return value := by
    rw [← hmatch]
    unfold integer strip clean
    simp only [decide_eq_true_eq]
    rfl
  rw [hstrip, require_then_ok_iff, bind_ok_iff]
  refine and_congr_right fun _ => exists_congr fun w => ?_
  rw [orThrow_ok_iff]
  refine and_congr_right fun _ => ?_
  cases (strip text).1 with
  | true =>
      simp only [if_true, true_imp_iff]
      rw [require_then_ok_iff]
      simp [eq_comm]
  | false => simp [eq_comm]

/-! ## Digits -/

theorem isDigit_of_digit_ten {c : Char} (h : (digit 10 c).isSome = true) : c.isDigit = true := by
  by_contra hnot
  have hlarge : 10 ≤ (if c.isLower then c.toNat - 87 else if c.isUpper then c.toNat - 55 else 10) := by
    split
    case isTrue hlower =>
      have hle : 97 ≤ c.toNat := of_decide_eq_true ((Bool.and_eq_true _ _).mp hlower).1
      omega
    case isFalse =>
      split
      case isTrue hupper =>
        have hle : 65 ≤ c.toNat := (of_decide_eq_true hupper).1
        omega
      case isFalse => exact le_rfl
  unfold digit at h
  rw [if_neg hnot] at h
  simp only [if_neg (not_lt.mpr hlarge)] at h
  cases h

theorem clean_cons {c : Char} (hc : c ≠ '_') : clean (c :: t) = c :: clean t :=
  List.filter_cons_of_pos (by simpa using hc)

theorem isDigits_iff {radix : Nat} : IsDigits radix t ↔
    (∃ c, t.head? = some c ∧ (digit radix c).isSome = true) ∧
      ∀ c ∈ clean t, (digit radix c).isSome = true := by
  cases t with
  | nil => simp [IsDigits]
  | cons c t =>
      have hmem : ∀ c', c' ∈ clean t ↔ c' ∈ t ∧ c' ≠ '_' := by
        intro c'
        simp [clean]
      constructor
      · rintro ⟨hc, ht⟩
        refine ⟨⟨c, rfl, hc⟩, fun c' hc' => ?_⟩
        rw [clean_cons (ne_of_digit hc).1] at hc'
        rcases List.mem_cons.mp hc' with rfl | hc'
        · exact hc
        · exact (ht c' ((hmem c').mp hc').1).resolve_left ((hmem c').mp hc').2
      · rintro ⟨⟨c', hhead, hc⟩, hclean⟩
        obtain rfl : c = c' := Option.some.inj hhead
        refine ⟨hc, fun c' hc' => ?_⟩
        rw [clean_cons (ne_of_digit hc).1] at hclean
        by_cases hsep : c' = '_'
        · exact .inl hsep
        · exact .inr (hclean c' (List.mem_cons_of_mem _ ((hmem c').mpr ⟨hc', hsep⟩)))

/-- Without a sign in front, the number is that of the digits. -/
theorem fromStrRadix_clean_iff {r : Nat} {w : Int}
    (hhead : ∃ c, t.head? = some c ∧ c ≠ '_' ∧ c ≠ '-' ∧ c ≠ '+') :
    fromStrRadix (clean t) r = some w ↔ (∀ c ∈ clean t, (digit r c).isSome = true) ∧
      magnitude r t < 2 ^ 127 ∧ w = magnitude r t := by
  obtain ⟨c, hc, hsep, hminus, hplus⟩ := hhead
  obtain ⟨cs, rfl⟩ := List.head?_eq_some_iff.mp hc
  have hdigits : fromStrRadix (clean (c :: cs)) r = (digits r (clean (c :: cs))).bind fun n =>
      if n < 2 ^ 127 then some (n : Int) else none := by
    rw [clean_cons hsep]
    unfold fromStrRadix
    split
    · next h => exact absurd (List.cons.inj h).1 hminus
    · next h => exact absurd (List.cons.inj h).1 hplus
    · rfl
  rw [hdigits, Option.bind_eq_some_iff]
  simp only [digits_eq_some_iff]
  constructor
  · rintro ⟨m, ⟨-, hall, rfl⟩, hm⟩
    split at hm
    · next hlt =>
      cases hm
      exact ⟨hall, hlt, rfl⟩
    · cases hm
  · rintro ⟨hall, hlt, rfl⟩
    refine ⟨_, ⟨by rw [clean_cons hsep]; exact List.cons_ne_nil _ _, hall, rfl⟩, ?_⟩
    exact if_pos hlt

/-! ## Radixes -/

theorem radixSplit_letter {r : Nat} {x : Char} (hx : x ∈ radixLetters r) (ds : Text) :
    radixSplit ('0' :: x :: ds) = (ds, r) := by
  unfold radixLetters at hx
  split at hx
  · rcases List.mem_pair.mp hx with rfl | rfl <;> rfl
  · rcases List.mem_pair.mp hx with rfl | rfl <;> rfl
  · cases hx

theorem radixSplit_cases (t : Text) : (∃ r x ds, x ∈ radixLetters r ∧ t = '0' :: x :: ds) ∨
    (radixSplit t = (t, 10) ∧ ∀ r x ds, x ∈ radixLetters r → t ≠ '0' :: x :: ds) := by
  by_cases h : ∃ r x ds, x ∈ radixLetters r ∧ t = '0' :: x :: ds
  · exact .inl h
  · refine .inr ⟨?_, fun r x ds hx ht => h ⟨r, x, ds, hx, ht⟩⟩
    unfold radixSplit
    split
    · exact absurd ⟨16, 'x', _, by decide, rfl⟩ h
    · exact absurd ⟨16, 'X', _, by decide, rfl⟩ h
    · exact absurd ⟨2, 'b', _, by decide, rfl⟩ h
    · exact absurd ⟨2, 'B', _, by decide, rfl⟩ h
    · rfl

theorem letter_ne {r : Nat} {x : Char} (hx : x ∈ radixLetters r) : x ≠ '_' ∧ x.isDigit = false := by
  unfold radixLetters at hx
  split at hx
  · rcases List.mem_pair.mp hx with rfl | rfl <;> decide
  · rcases List.mem_pair.mp hx with rfl | rfl <;> decide
  · cases hx

theorem letter_inj {r r' : Nat} {x : Char} (hx : x ∈ radixLetters r) (hx' : x ∈ radixLetters r') :
    r = r' := by
  have h := radixSplit_letter hx []
  rw [radixSplit_letter hx' []] at h
  exact (Prod.mk.inj h).2.symm

variable {lit : Text}

theorem Literal.head {m : Nat} (h : Literal lit m) : lit.head?.any Char.isDigit = true := by
  cases h with
  | decimal h =>
      obtain ⟨⟨c, hc, hdigit⟩, -⟩ := isDigits_iff.mp h
      rw [hc]
      exact isDigit_of_digit_ten hdigit
  | radix hx h => rfl

/-- A literal of the grammar is read as its number. -/
theorem Literal.fromStrRadix_iff {m : Nat} (h : Literal lit m) {w : Int} :
    fromStrRadix (radixSplit (clean lit)).1 (radixSplit (clean lit)).2 = some w ↔
      m < 2 ^ 127 ∧ w = m := by
  cases h with
  | decimal h =>
      obtain ⟨⟨c, hc, hdigit⟩, hall⟩ := isDigits_iff.mp h
      have hsplit : radixSplit (clean lit) = (clean lit, 10) := by
        rcases radixSplit_cases (clean lit) with ⟨r, x, ds, hx, hclean⟩ | ⟨hsplit, -⟩
        · have hmem : x ∈ clean lit := by rw [hclean]; simp
          have hxdigit := isDigit_of_digit_ten (hall x hmem)
          rw [(letter_ne hx).2] at hxdigit
          cases hxdigit
        · exact hsplit
      rw [hsplit, fromStrRadix_clean_iff ⟨c, hc, ne_of_digit hdigit⟩]
      exact and_iff_right hall
  | radix hx h =>
      obtain ⟨⟨c, hc, hdigit⟩, hall⟩ := isDigits_iff.mp h
      rw [clean_cons (by decide), clean_cons (letter_ne hx).1, radixSplit_letter hx,
        fromStrRadix_clean_iff ⟨c, hc, ne_of_digit hdigit⟩]
      exact and_iff_right hall

/-- What is read is a literal of the grammar, or a slip. -/
theorem literal_or_slip {negative : Bool} {w : Int} (hhead : lit.head?.any Char.isDigit = true)
    (hw : fromStrRadix (radixSplit (clean lit)).1 (radixSplit (clean lit)).2 = some w)
    (hoverflow : negative = true → w ≠ -2 ^ 127) : (∃ m, Literal lit m) ∨ Slip negative lit := by
  obtain ⟨c, cs, rfl⟩ : ∃ c cs, lit = c :: cs := by
    cases lit with
    | nil => cases hhead
    | cons c cs => exact ⟨c, cs, rfl⟩
  have hc : c.isDigit = true := hhead
  have hne : c ≠ '_' ∧ c ≠ '-' ∧ c ≠ '+' := by
    refine ⟨?_, ?_, ?_⟩ <;> rintro rfl <;> cases hc
  rcases radixSplit_cases (clean (c :: cs)) with ⟨r, x, ds, hx, hclean⟩ | ⟨hsplit, -⟩
  · rw [hclean, radixSplit_letter hx] at hw
    by_cases hdigit : ∃ r' x' c' cs', x' ∈ radixLetters r' ∧ c :: cs = '0' :: x' :: c' :: cs' ∧
        (digit r' c').isSome = true
    · left
      obtain ⟨r', x', c', cs', hx', hlit, hc'⟩ := hdigit
      rw [hlit, clean_cons (by decide), clean_cons (letter_ne hx').1] at hclean
      injection hclean with _ hclean
      injection hclean with hxx hds
      subst hxx
      obtain rfl := letter_inj hx hx'
      rw [← hds, fromStrRadix_clean_iff ⟨c', rfl, ne_of_digit hc'⟩] at hw
      rw [hlit]
      exact ⟨_, .radix hx (isDigits_iff.mpr ⟨⟨c', rfl, hc'⟩, hw.1⟩)⟩
    · right
      rw [clean_cons hne.1] at hclean
      obtain rfl : c = '0' := (List.cons.inj hclean).1
      refine ⟨rfl, ⟨r, x, ds, w, hx, by rw [clean_cons hne.1, hclean], hw, hoverflow⟩, ?_⟩
      intro r' x' c' cs' hx' hlit
      by_contra hsome
      rw [Bool.not_eq_false] at hsome
      exact hdigit ⟨r', x', c', cs', hx', hlit, hsome⟩
  · left
    rw [hsplit, fromStrRadix_clean_iff ⟨c, rfl, hne⟩] at hw
    have hfirst := hw.1 c (by rw [clean_cons hne.1]; exact List.mem_cons_self)
    exact ⟨_, .decimal (isDigits_iff.mpr ⟨⟨c, rfl, hfirst⟩, hw.1⟩)⟩

theorem Slip.not_literal {negative : Bool} (h : Slip negative lit) {m : Nat} : ¬ Literal lit m := by
  obtain ⟨r, x, ds, value, hx, hclean, -, -⟩ := h.rest
  intro hlit
  cases hlit with
  | decimal hdigits =>
      have hmem : x ∈ clean lit := by rw [hclean]; simp
      have hxdigit := isDigit_of_digit_ten ((isDigits_iff.mp hdigits).2 x hmem)
      rw [(letter_ne hx).2] at hxdigit
      cases hxdigit
  | radix hx' hdigits =>
      obtain ⟨⟨c, hc, hdigit⟩, -⟩ := isDigits_iff.mp hdigits
      obtain ⟨cs, rfl⟩ := List.head?_eq_some_iff.mp hc
      have hnone := h.noDigit _ _ c cs hx' rfl
      rw [hdigit] at hnone
      cases hnone

/-! ## The integers that are read -/

/-- The parser agrees with the grammar on every text but those with a slip. -/
theorem integer_iff_denotes (text : Text) : (∀ v, integer text = .ok v ↔ Denotes text v) ↔
    ¬ ∃ negative literal, Spells text negative literal ∧ Slip negative literal := by
  constructor
  · rintro hexact ⟨negative, literal, hspells, hslip⟩
    -- A slip's text is read as a number, and what it spells is no literal.
    obtain ⟨r, x, ds, value, hx, hclean, hvalue, hoverflow⟩ := hslip.rest
    have hdigit : literal.head?.any Char.isDigit = true := by
      rw [hslip.head]
      rfl
    have hstrip := strip_of_spells hspells hdigit
    have hok : integer text = .ok (if negative then -value else value) := by
      rw [integer_ok_iff, hstrip]
      refine ⟨hdigit, value, ?_, hoverflow, rfl⟩
      rw [hclean, radixSplit_letter hx]
      exact hvalue
    obtain ⟨negative', literal', m, hspells', hliteral, -, -⟩ := (hexact _).mp hok
    have hstrip' := strip_of_spells hspells' hliteral.head
    rw [hstrip] at hstrip'
    cases hstrip'
    exact hslip.not_literal hliteral
  · intro hslip v
    constructor
    · intro hok
      obtain ⟨hdigit, w, hw, hoverflow, rfl⟩ := integer_ok_iff.mp hok
      have hspells := spells_strip text
      rcases literal_or_slip hdigit hw hoverflow with ⟨m, hliteral⟩ | h
      · obtain ⟨hlt, rfl⟩ := hliteral.fromStrRadix_iff.mp hw
        exact ⟨_, _, m, hspells, hliteral, hlt, rfl⟩
      · exact absurd ⟨_, _, hspells, h⟩ hslip
    · rintro ⟨negative, literal, m, hspells, hliteral, hlt, rfl⟩
      rw [integer_ok_iff, strip_of_spells hspells hliteral.head]
      refine ⟨hliteral.head, m, hliteral.fromStrRadix_iff.mpr ⟨hlt, rfl⟩, fun _ => ?_, rfl⟩
      omega

/-- `0x-5` is no integer of the grammar, and is read as minus five. -/
theorem integer_sign_in_literal : integer "0x-5".toList = .ok (-5) ∧
    ¬ ∀ v, integer "0x-5".toList = .ok v ↔ Denotes "0x-5".toList v := by
  have hok : integer "0x-5".toList = .ok (-5) := by rfl
  refine ⟨hok, fun hexact => ?_⟩
  obtain ⟨negative, literal, m, hspells, hliteral, -, -⟩ := (hexact _).mp hok
  have hstrip : (false, "0x-5".toList) = (negative, literal) :=
    strip_of_spells hspells hliteral.head
  cases hstrip
  have hslip : Slip false "0x-5".toList := by
    refine ⟨rfl, ⟨16, 'x', ['-', '5'], -5, by decide, rfl, by rfl, nofun⟩, ?_⟩
    intro r x c cs hx hlit
    cases hlit
    by_contra hsome
    rw [Bool.not_eq_false] at hsome
    exact (ne_of_digit hsome).2.1 rfl
  exact hslip.not_literal hliteral

end Assembler

end Whale
