import Mathlib.Data.List.Basic
import Mathlib.Data.List.TakeWhile
import Whale.Lib.Bytes

set_option autoImplicit false

/-! # Text in byte strings

The bytes of a string, strings that end at a zero byte, and numbers in decimal. -/

namespace Whale

/-! ## UTF-8 -/

/-- The UTF-8 encoding of a string. -/
def asBytes (s : String) : List UInt8 := s.toList.flatMap String.utf8EncodeChar

/-- The string that a byte string encodes, if any. -/
def ofBytes (bs : List UInt8) : Option String := String.fromUTF8? ⟨bs.toArray⟩

/-- The bytes of a character are those of ASCII, or are all beyond them. -/
theorem utf8EncodeChar_cases (c : Char) :
    (c.val.toNat ≤ 0x7f ∧ String.utf8EncodeChar c = [UInt8.ofNat c.val.toNat]) ∨
      (0x7f < c.val.toNat ∧ String.utf8EncodeChar c ≠ [] ∧
        ∀ b ∈ String.utf8EncodeChar c, 0x80 ≤ b.toNat) := by
  unfold String.utf8EncodeChar
  have hbyte : ∀ {n base size : Nat}, 0x80 ≤ base → 0 < size → base + size ≤ 256 →
      0x80 ≤ (UInt8.ofNat (n % size + base)).toNat := by
    intro n base size hbase hsize hsum
    have hlt := Nat.mod_lt n hsize
    rw [UInt8.toNat_ofNat', Nat.mod_eq_of_lt (by omega)]
    omega
  by_cases h₁ : c.val.toNat ≤ 0x7f
  · left
    exact ⟨h₁, if_pos h₁⟩
  · right
    simp only [if_neg h₁]
    refine ⟨by omega, ?_, ?_⟩
    · split
      · exact List.cons_ne_nil _ _
      · split <;> exact List.cons_ne_nil _ _
    · split
      · simp only [List.mem_cons, List.not_mem_nil, or_false]
        rintro b (rfl | rfl)
        · exact hbyte (by omega) (by omega) (by omega)
        · exact hbyte (by omega) (by omega) (by omega)
      · split
        · simp only [List.mem_cons, List.not_mem_nil, or_false]
          rintro b (rfl | rfl | rfl)
          · exact hbyte (by omega) (by omega) (by omega)
          · exact hbyte (by omega) (by omega) (by omega)
          · exact hbyte (by omega) (by omega) (by omega)
        · simp only [List.mem_cons, List.not_mem_nil, or_false]
          rintro b (rfl | rfl | rfl | rfl)
          · exact hbyte (by omega) (by omega) (by omega)
          · exact hbyte (by omega) (by omega) (by omega)
          · exact hbyte (by omega) (by omega) (by omega)
          · exact hbyte (by omega) (by omega) (by omega)

/-- An ASCII byte occurs only as the character it stands for. -/
theorem eq_of_mem_utf8EncodeChar {c : Char} {b : UInt8} (hb : b.toNat < 0x80)
    (h : b ∈ String.utf8EncodeChar c) : c.val.toNat = b.toNat := by
  rcases utf8EncodeChar_cases c with ⟨hle, heq⟩ | ⟨-, -, hall⟩
  · rw [heq, List.mem_singleton] at h
    rw [h, UInt8.toNat_ofNat', Nat.mod_eq_of_lt (by omega)]
  · exact absurd (hall b h) (by omega)

/-- Text without the character zero has no zero byte. -/
theorem zero_notMem_asBytes {s : String} (h : '\x00' ∉ s.toList) : (0 : UInt8) ∉ asBytes s := by
  intro hmem
  obtain ⟨c, hc, hzero⟩ := List.mem_flatMap.mp hmem
  have hval : c.val.toNat = 0 := eq_of_mem_utf8EncodeChar (by decide) hzero
  have hchar : c = '\x00' := Char.ext (UInt32.toNat.inj hval)
  exact h (hchar ▸ hc)

theorem asBytes_ne_nil {s : String} (h : s ≠ "") : asBytes s ≠ [] := by
  intro hnil
  unfold asBytes at hnil
  rw [List.flatMap_eq_nil_iff] at hnil
  have hempty : s.toList = [] := by
    refine List.eq_nil_iff_forall_not_mem.mpr fun c hc => ?_
    have hbytes := hnil c hc
    rcases utf8EncodeChar_cases c with ⟨-, heq⟩ | ⟨-, hne, -⟩
    · rw [heq] at hbytes
      cases hbytes
    · exact hne hbytes
  exact h (String.toList_eq_nil_iff.mp hempty)

/-- The first byte of a text that starts with an ASCII character. -/
theorem head_asBytes_slash {s : String} :
    (asBytes s).head? = some 0x2f ↔ s.toList.head? = some '/' := by
  unfold asBytes
  cases s.toList with
  | nil => exact ⟨nofun, nofun⟩
  | cons c cs =>
      rw [List.flatMap_cons, List.head?_cons]
      rcases utf8EncodeChar_cases c with ⟨hle, heq⟩ | ⟨hgt, hne, hall⟩
      · rw [heq]
        simp only [List.cons_append, List.nil_append, List.head?_cons, Option.some.injEq]
        constructor
        · intro h
          refine Char.ext (UInt32.toNat.inj ?_)
          have hnat := congrArg UInt8.toNat h
          rw [UInt8.toNat_ofNat', Nat.mod_eq_of_lt (by omega)] at hnat
          exact hnat
        · rintro rfl
          rfl
      · constructor
        · intro h
          rw [List.head?_append_of_ne_nil _ hne] at h
          have hmem := List.mem_of_mem_head? h
          exact absurd (hall _ hmem) (by decide)
        · intro h
          cases h
          exact absurd hgt (by decide)

/-! ## Round trips -/

/-- The UTF-8 encoding of a list of characters. -/
def textBytes (t : List Char) : List UInt8 := t.flatMap String.utf8EncodeChar

@[simp] theorem textBytes_nil : textBytes [] = [] := rfl

theorem textBytes_append (t u : List Char) : textBytes (t ++ u) = textBytes t ++ textBytes u :=
  List.flatMap_append

theorem asBytes_eq (s : String) : asBytes s = textBytes s.toList := rfl

theorem ofBytes_textBytes (t : List Char) : ofBytes (textBytes t) = some (String.ofList t) := by
  have h : (⟨(textBytes t).toArray⟩ : ByteArray) = (String.ofList t).toByteArray := by
    rw [String.toByteArray_ofList]
    exact ByteArray.ext List.data_toByteArray.symm
  unfold ofBytes String.fromUTF8?
  simp only [h]
  split
  · rfl
  · rename_i hn
    exact absurd (String.ofList t).isValidUTF8 hn

theorem ofBytes_asBytes (s : String) : ofBytes (asBytes s) = some s := by
  rw [asBytes_eq, ofBytes_textBytes, String.ofList_toList]

theorem utf8ByteSize_of_ofBytes {bs : List UInt8} {name : String} (h : ofBytes bs = some name) :
    name.utf8ByteSize = bs.length := by
  unfold ofBytes String.fromUTF8? at h
  split at h
  · cases h
    rfl
  · cases h

theorem length_asBytes (s : String) : (asBytes s).length = s.utf8ByteSize :=
  (utf8ByteSize_of_ofBytes (ofBytes_asBytes s)).symm

theorem textBytes_ascii {t : List Char} (h : ∀ c ∈ t, c.val.toNat ≤ 0x7f) :
    textBytes t = t.map fun c => UInt8.ofNat c.val.toNat := by
  induction t with
  | nil => rfl
  | cons c t ih =>
      have hc : String.utf8EncodeChar c = [UInt8.ofNat c.val.toNat] := by
        rcases utf8EncodeChar_cases c with ⟨-, heq⟩ | ⟨hgt, -⟩
        · exact heq
        · exact absurd (h c List.mem_cons_self) (by omega)
      unfold textBytes at ih ⊢
      rw [List.flatMap_cons, hc, ih fun d hd => h d (List.mem_cons_of_mem _ hd)]
      rfl

/-- An ASCII byte occurs in the encoding only where its character does. -/
theorem mem_of_mem_textBytes {t : List Char} {b : UInt8} {c : Char} (hb : b.toNat < 0x80)
    (hc : c.val.toNat = b.toNat) (h : b ∈ textBytes t) : c ∈ t := by
  obtain ⟨d, hd, hmem⟩ := List.mem_flatMap.mp h
  have hval := eq_of_mem_utf8EncodeChar hb hmem
  have hchar : c = d := Char.ext (UInt32.toNat.inj (hc.trans hval.symm))
  exact hchar ▸ hd

/-! ## Strings that end at a zero byte -/

/-- The bytes before the first zero. -/
def untilZero (bs : List UInt8) : List UInt8 := bs.takeWhile (· ≠ 0)

/-- The string that starts here, if it ends. -/
def cString (bs : List UInt8) : Option (List UInt8) :=
  if 0 ∈ bs then some (untilZero bs) else none

/-- The string at an offset of the string table. -/
def stringAt (table : List UInt8) (offset : Nat) : Option (List UInt8) :=
  cString (table.drop offset)

theorem untilZero_append {s rest : List UInt8} (h : (0 : UInt8) ∉ s) :
    untilZero (s ++ 0 :: rest) = s := by
  unfold untilZero
  rw [List.takeWhile_append_of_pos fun b hb => by
    rw [decide_eq_true_eq]
    rintro rfl
    exact h hb]
  simp

theorem untilZero_padded {s : List UInt8} (n : Nat) (h : (0 : UInt8) ∉ s) :
    untilZero (s ++ List.replicate n 0) = s := by
  cases n with
  | zero =>
      rw [List.replicate_zero, List.append_nil]
      unfold untilZero
      rw [List.takeWhile_eq_self_iff]
      intro b hb
      rw [decide_eq_true_eq]
      rintro rfl
      exact h hb
  | succ n =>
      rw [List.replicate_succ]
      exact untilZero_append h

theorem cString_append {s rest : List UInt8} (h : (0 : UInt8) ∉ s) :
    cString (s ++ 0 :: rest) = some s := by
  unfold cString
  rw [if_pos (List.mem_append_right _ List.mem_cons_self), untilZero_append h]

/-! ## Decimal numbers -/

/-- A number in decimal digits. -/
def decimal (n : Nat) : List UInt8 := (Nat.toDigits 10 n).map fun c => UInt8.ofNat c.toNat

/-- The number digits denote. -/
def decimalValue (bs : List UInt8) : Nat :=
  Nat.ofDigitChars 10 (bs.map fun b => Char.ofNat b.toNat) 0

theorem toNat_le_of_isDigit {c : Char} (h : c.isDigit = true) : 48 ≤ c.toNat ∧ c.toNat ≤ 57 := by
  simp only [Char.isDigit, Bool.and_eq_true, decide_eq_true_eq] at h
  exact ⟨h.1, h.2⟩

theorem decimalValue_decimal (n : Nat) : decimalValue (decimal n) = n := by
  unfold decimalValue decimal
  have hround : ((Nat.toDigits 10 n).map fun c => UInt8.ofNat c.toNat).map
      (fun b => Char.ofNat b.toNat) = Nat.toDigits 10 n := by
    rw [List.map_map]
    conv => rhs; rw [← List.map_id (Nat.toDigits 10 n)]
    refine List.map_congr_left fun c hc => ?_
    have hdigit := toNat_le_of_isDigit
      (Nat.isDigit_of_mem_toDigits (by decide) (by decide) hc)
    show Char.ofNat (UInt8.ofNat c.toNat).toNat = c
    rw [UInt8.toNat_ofNat', Nat.mod_eq_of_lt (by omega), Char.ofNat_toNat]
  rw [hround, Nat.ofDigitChars_ten_toDigits]

theorem zero_notMem_decimal (n : Nat) : (0 : UInt8) ∉ decimal n := by
  intro hmem
  obtain ⟨c, hc, hzero⟩ := List.mem_map.mp hmem
  have hdigit := toNat_le_of_isDigit (Nat.isDigit_of_mem_toDigits (by decide) (by decide) hc)
  have hnat := congrArg UInt8.toNat hzero
  rw [UInt8.toNat_ofNat', Nat.mod_eq_of_lt (by omega)] at hnat
  have h0 : (0 : UInt8).toNat = 0 := rfl
  omega

end Whale
