import Mathlib.Algebra.Order.Ring.Int
import Mathlib.Data.List.DropRight
import Mathlib.Tactic.Common

set_option autoImplicit false

/-! # Source text as characters

The operations of string slices that a line scanner uses. A slice is the list of its
characters. -/

namespace Whale

abbrev Text := List Char

namespace Text

/-- The characters with the property `White_Space`. -/
def isWhite (c : Char) : Bool :=
  let n := c.toNat
  (9 ≤ n && n ≤ 13) || n = 0x20 || n = 0x85 || n = 0xa0 || n = 0x1680 ||
    (0x2000 ≤ n && n ≤ 0x200a) || n = 0x2028 || n = 0x2029 || n = 0x202f || n = 0x205f ||
    n = 0x3000

def trim (t : Text) : Text := (t.dropWhile isWhite).rdropWhile isWhite

/-- The rest after a prefix. -/
def stripPrefix (start t : Text) : Option Text :=
  if start.isPrefixOf t then some (t.drop start.length) else none

/-- The rest before a suffix. -/
def stripSuffix (stop t : Text) : Option Text :=
  if stop.isSuffixOf t then some (t.take (t.length - stop.length)) else none

/-- ASCII letters in lower case. -/
def lower (t : Text) : Text := t.map Char.toLower

/-- The number of UTF-8 bytes. -/
def size (t : Text) : Nat := (t.map Char.utf8Size).sum

/-- What is behind the first `n` bytes, when a character begins there. -/
def dropBytes : Text → Nat → Option Text
  | t, 0 => some t
  | [], _ + 1 => none
  | c :: cs, n + 1 => if c.utf8Size ≤ n + 1 then dropBytes cs (n + 1 - c.utf8Size) else none

/-- The first `n` bytes, when a character ends there. -/
def takeBytes : Text → Nat → Option Text
  | _, 0 => some []
  | [], _ + 1 => none
  | c :: cs, n + 1 =>
      if c.utf8Size ≤ n + 1 then (takeBytes cs (n + 1 - c.utf8Size)).map (c :: ·) else none

/-- The lines, each with its line feed. -/
def lines : Text → List Text
  | [] => []
  | c :: cs =>
      if c = '\n' then [c] :: lines cs
      else
        match lines cs with
        | [] => [[c]]
        | l :: ls => (c :: l) :: ls

/-- The words between white space. -/
def words : Text → List Text
  | [] => []
  | c :: cs =>
      if isWhite c then words cs
      else
        match cs with
        | [] => [[c]]
        | next :: _ =>
            if isWhite next then [c] :: words cs
            else
              match words cs with
              | [] => [[c]]
              | w :: ws => (c :: w) :: ws

/-! ## Numbers -/

def isAsciiHexDigit (c : Char) : Bool :=
  c.isDigit || ('a' ≤ c && c ≤ 'f') || ('A' ≤ c && c ≤ 'F')

/-- The value of a digit in a radix up to 36. -/
def digit (radix : Nat) (c : Char) : Option Nat :=
  let value :=
    if c.isDigit then c.toNat - 48
    else if c.isLower then c.toNat - 87
    else if c.isUpper then c.toNat - 55
    else radix
  if value < radix then some value else none

/-- The number that digits denote; no digits denote none. -/
def digits (radix : Nat) (t : Text) : Option Nat :=
  if t = [] then none
  else t.foldlM (fun n c => (digit radix c).map fun d => n * radix + d) 0

/-- `i128::from_str_radix`, which accepts a sign. -/
def fromStrRadix (t : Text) (radix : Nat) : Option Int :=
  match t with
  | '-' :: ds => (digits radix ds).bind fun n => if n ≤ 2 ^ 127 then some (-(n : Int)) else none
  | '+' :: ds => (digits radix ds).bind fun n => if n < 2 ^ 127 then some (n : Int) else none
  | ds => (digits radix ds).bind fun n => if n < 2 ^ 127 then some (n : Int) else none

/-- `u32::from_str` of digits. -/
def parseU32 (t : Text) : Option Nat :=
  (digits 10 t).bind fun n => if n < 2 ^ 32 then some n else none

/-! ## Digits -/

theorem digits_eq_some_iff {radix m : Nat} {t : Text} : digits radix t = some m ↔
    t ≠ [] ∧ (∀ c ∈ t, (digit radix c).isSome = true) ∧
      m = t.foldl (fun n c => n * radix + (digit radix c).getD 0) 0 := by
  have hloop : ∀ (t : Text) (n : Nat),
      t.foldlM (fun n c => (digit radix c).map fun d => n * radix + d) n = some m ↔
        (∀ c ∈ t, (digit radix c).isSome = true) ∧
          m = t.foldl (fun n c => n * radix + (digit radix c).getD 0) n := by
    intro t
    induction t with
    | nil =>
        intro n
        exact ⟨fun h => ⟨nofun, (Option.some.inj h).symm⟩, fun h => congrArg some h.2.symm⟩
    | cons c t ih =>
        intro n
        rw [List.foldlM_cons, List.forall_mem_cons, List.foldl_cons]
        cases hc : digit radix c with
        | none => simp
        | some d => simpa using ih (n * radix + d)
  unfold digits
  by_cases hnil : t = []
  · simp [hnil]
  · rw [if_neg hnil, hloop]
    simp [hnil]

/-- The characters that are digits of a radix. -/
theorem isSome_digit {radix : Nat} {c : Char} : (digit radix c).isSome = true ↔
    48 ≤ c.toNat ∧ c.toNat ≤ 57 ∧ c.toNat < radix + 48 ∨
      97 ≤ c.toNat ∧ c.toNat ≤ 122 ∧ c.toNat < radix + 87 ∨
        65 ≤ c.toNat ∧ c.toNat ≤ 90 ∧ c.toNat < radix + 55 := by
  have hdigit : c.isDigit = true ↔ 48 ≤ c.toNat ∧ c.toNat ≤ 57 := Char.isDigit_iff_toNat
  have hlower : c.isLower = true ↔ 97 ≤ c.toNat ∧ c.toNat ≤ 122 := by
    refine (Bool.and_eq_true _ _).to_iff.trans ?_
    exact and_congr decide_eq_true_iff decide_eq_true_iff
  have hupper : c.isUpper = true ↔ 65 ≤ c.toNat ∧ c.toNat ≤ 90 := decide_eq_true_iff
  have hsome : ∀ value : Nat, (if value < radix then some value else none).isSome = true ↔
      value < radix := by
    intro value
    split <;> simp [*]
  unfold digit
  rw [hsome]
  by_cases h₁ : c.isDigit = true
  · rw [if_pos h₁]
    have hrange := hdigit.mp h₁
    omega
  rw [if_neg h₁]
  rw [hdigit] at h₁
  by_cases h₂ : c.isLower = true
  · rw [if_pos h₂]
    have hrange := hlower.mp h₂
    omega
  rw [if_neg h₂]
  rw [hlower] at h₂
  by_cases h₃ : c.isUpper = true
  · rw [if_pos h₃]
    have hrange := hupper.mp h₃
    omega
  · rw [if_neg h₃]
    rw [hupper] at h₃
    omega

theorem ne_of_digit {radix : Nat} {c : Char} (h : (digit radix c).isSome = true) :
    c ≠ '_' ∧ c ≠ '-' ∧ c ≠ '+' := by
  have hnone : ∀ c : Char, c.isDigit = false → c.isLower = false → c.isUpper = false →
      digit radix c = none := by
    intro c hdigit hlower hupper
    unfold digit
    simp [hdigit, hlower, hupper]
  refine ⟨?_, ?_, ?_⟩
  all_goals
    rintro rfl
    rw [hnone _ (by decide) (by decide) (by decide)] at h
    cases h

/-- Digits without a sign are read as their number. -/
theorem fromStrRadix_digits {radix m : Nat} {t : Text} (hne : t ≠ [])
    (ht : ∀ c ∈ t, (digit radix c).isSome = true)
    (hm : m = t.foldl (fun n c => n * radix + (digit radix c).getD 0) 0) :
    fromStrRadix t radix = if m < 2 ^ 127 then some (m : Int) else none := by
  have hdigits := digits_eq_some_iff.mpr ⟨hne, ht, hm⟩
  unfold fromStrRadix
  split
  · exact absurd rfl (ne_of_digit (ht '-' List.mem_cons_self)).2.1
  · exact absurd rfl (ne_of_digit (ht '+' List.mem_cons_self)).2.2
  · rw [hdigits, Option.bind_some]

/-! ## Slices at positions -/

theorem size_append (s t : Text) : size (s ++ t) = size s + size t := by
  simp [size]

theorem size_cons (c : Char) (t : Text) : size (c :: t) = c.utf8Size + size t := by
  simp [size]

theorem length_le_size (t : Text) : t.length ≤ size t := by
  induction t with
  | nil => exact Nat.le_refl _
  | cons c t ih =>
      have hpos := c.utf8Size_pos
      rw [size_cons, List.length_cons]
      omega

/-- A text with a first character has bytes, those of the character first. -/
theorem exists_size_cons (c : Char) (t : Text) :
    ∃ n, size (c :: t) = n + 1 ∧ c.utf8Size ≤ n + 1 ∧ n + 1 - c.utf8Size = size t := by
  have hpos := c.utf8Size_pos
  have hsize := size_cons c t
  exact ⟨c.utf8Size + size t - 1, by omega, by omega, by omega⟩

theorem dropBytes_append (before rest : Text) :
    dropBytes (before ++ rest) (size before) = some rest := by
  induction before with
  | nil =>
      cases rest <;> rfl
  | cons c before ih =>
      obtain ⟨n, hn, hle, hback⟩ := exists_size_cons c before
      rw [hn, List.cons_append, dropBytes, if_pos hle, hback]
      exact ih

theorem takeBytes_append (before rest : Text) :
    takeBytes (before ++ rest) (size before) = some before := by
  induction before with
  | nil =>
      cases rest <;> rfl
  | cons c before ih =>
      obtain ⟨n, hn, hle, hback⟩ := exists_size_cons c before
      rw [hn, List.cons_append, takeBytes, if_pos hle, hback, ih]
      rfl

end Text

end Whale
