import Mathlib.Algebra.Order.Ring.Int
import Mathlib.Tactic.Common

set_option autoImplicit false

/-! # JSON documents

A JSON document as the tree a streaming reader meets: the members of an object are kept in
document order and repeated keys are kept too. The file defines

* `nesting`, the number of brackets that are open at the deepest point of the document;
* `pretty`, the two-space indented text of a document, and `prettySize`, its length in
  bytes computed without building the text;
* `firstDuplicate`, the first repeated key a reader meets, and `UniqueKeys`.
-/

namespace Whale

/-- A JSON document. Numbers are the non-negative integers. -/
inductive Json where
  | null
  | bool (b : Bool)
  | num (n : Nat)
  | str (s : String)
  | arr (elements : List Json)
  | obj (members : List (String × Json))

namespace Json

/-! ## Nesting -/

mutual

/-- The number of brackets open at the deepest point of the document. -/
def nesting : Json → Nat
  | .null | .bool _ | .num _ | .str _ => 0
  | .arr elements => nestingList elements + 1
  | .obj members => nestingMembers members + 1

def nestingList : List Json → Nat
  | [] => 0
  | j :: js => max j.nesting (nestingList js)

def nestingMembers : List (String × Json) → Nat
  | [] => 0
  | m :: ms => max (nestingMember m) (nestingMembers ms)

def nestingMember : String × Json → Nat
  | (_, j) => j.nesting

end

@[simp] theorem nesting_null : null.nesting = 0 := rfl

@[simp] theorem nesting_bool (b : Bool) : (bool b).nesting = 0 := rfl

@[simp] theorem nesting_num (n : Nat) : (num n).nesting = 0 := rfl

@[simp] theorem nesting_str (s : String) : (str s).nesting = 0 := rfl

@[simp] theorem nesting_arr (js : List Json) : (arr js).nesting = nestingList js + 1 := rfl

@[simp] theorem nesting_obj (ms : List (String × Json)) :
    (obj ms).nesting = nestingMembers ms + 1 := rfl

@[simp] theorem nestingList_nil : nestingList [] = 0 := rfl

@[simp] theorem nestingList_cons (j : Json) (js : List Json) :
    nestingList (j :: js) = max j.nesting (nestingList js) := rfl

@[simp] theorem nestingMembers_nil : nestingMembers [] = 0 := rfl

@[simp] theorem nestingMembers_cons (k : String) (j : Json) (ms : List (String × Json)) :
    nestingMembers ((k, j) :: ms) = max j.nesting (nestingMembers ms) := rfl

/-! ## Pretty text -/

/-- The escape of one character inside a string literal. -/
def escapeChar (c : Char) : String :=
  if c = '"' then "\\\""
  else if c = '\\' then "\\\\"
  else if c = '\n' then "\\n"
  else if c = '\r' then "\\r"
  else if c = '\t' then "\\t"
  else if c.toNat = 8 then "\\b"
  else if c.toNat = 12 then "\\f"
  else if c.toNat < 32 then
    "\\u00" ++ String.ofList [Nat.digitChar (c.toNat / 16), Nat.digitChar (c.toNat % 16)]
  else String.singleton c

/-- A string literal with its quotes. -/
def quote (s : String) : String :=
  "\"" ++ String.join (s.toList.map escapeChar) ++ "\""

/-- The line break before an item at indentation level `k`. -/
def newline (k : Nat) : String := "\n" ++ String.ofList (List.replicate (2 * k) ' ')

mutual

/-- The text of a document whose first line already stands at indentation level `k`. -/
def prettyAt (k : Nat) : Json → String
  | .null => "null"
  | .bool b => if b then "true" else "false"
  | .num n => toString n
  | .str s => quote s
  | .arr [] => "[]"
  | .arr (j :: js) => "[" ++ newline (k + 1) ++ prettyAt (k + 1) j ++ prettyRest k js ++ "]"
  | .obj [] => "\x7b\x7d"
  | .obj (m :: ms) => "\x7b" ++ newline (k + 1) ++ prettyMember k m ++ prettyMembers k ms ++ "\x7d"

def prettyRest (k : Nat) : List Json → String
  | [] => newline k
  | j :: js => "," ++ newline (k + 1) ++ prettyAt (k + 1) j ++ prettyRest k js

def prettyMember (k : Nat) : String × Json → String
  | (key, j) => quote key ++ ": " ++ prettyAt (k + 1) j

def prettyMembers (k : Nat) : List (String × Json) → String
  | [] => newline k
  | m :: ms => "," ++ newline (k + 1) ++ prettyMember k m ++ prettyMembers k ms

end

/-- The pretty text of a whole document. -/
def pretty (j : Json) : String := j.prettyAt 0

/-! ## The size of the pretty text -/

private theorem size_append (s t : String) :
    (s ++ t).utf8ByteSize = s.utf8ByteSize + t.utf8ByteSize :=
  String.utf8ByteSize_append

mutual

/-- The number of bytes of `prettyAt k j`. -/
def prettySizeAt (k : Nat) : Json → Nat
  | .null => 4
  | .bool b => if b then 4 else 5
  | .num n => (toString n).utf8ByteSize
  | .str s => (quote s).utf8ByteSize
  | .arr [] => 2
  | .arr (j :: js) => 5 + 2 * k + prettySizeAt (k + 1) j + prettySizeRest k js
  | .obj [] => 2
  | .obj (m :: ms) => 5 + 2 * k + prettySizeMember k m + prettySizeMembers k ms

def prettySizeRest (k : Nat) : List Json → Nat
  | [] => 1 + 2 * k
  | j :: js => 4 + 2 * k + prettySizeAt (k + 1) j + prettySizeRest k js

def prettySizeMember (k : Nat) : String × Json → Nat
  | (key, j) => (quote key).utf8ByteSize + 2 + prettySizeAt (k + 1) j

def prettySizeMembers (k : Nat) : List (String × Json) → Nat
  | [] => 1 + 2 * k
  | m :: ms => 4 + 2 * k + prettySizeMember k m + prettySizeMembers k ms

end

private theorem size_spaces (n : Nat) :
    (String.ofList (List.replicate n ' ')).utf8ByteSize = n := by
  induction n with
  | zero => rfl
  | succ n ih =>
      have h : String.ofList (List.replicate (n + 1) ' ')
          = " " ++ String.ofList (List.replicate n ' ') := by
        apply String.toList_inj.mp
        simp [List.replicate_succ]
      rw [h, size_append, ih]
      have : " ".utf8ByteSize = 1 := rfl
      omega

private theorem size_newline (k : Nat) : (newline k).utf8ByteSize = 1 + 2 * k := by
  rw [newline, size_append, size_spaces]
  rfl

mutual

theorem size_prettyAt (k : Nat) :
    (j : Json) → (prettyAt k j).utf8ByteSize = prettySizeAt k j
  | .null => rfl
  | .bool b => by cases b <;> rfl
  | .num _ => rfl
  | .str _ => rfl
  | .arr [] => rfl
  | .arr (j :: js) => by
      simp only [prettyAt, prettySizeAt, size_append, size_newline, size_prettyAt (k + 1) j,
        size_prettyRest k js]
      have h₁ : "[".utf8ByteSize = 1 := rfl
      have h₂ : "]".utf8ByteSize = 1 := rfl
      omega
  | .obj [] => rfl
  | .obj (m :: ms) => by
      simp only [prettyAt, prettySizeAt, size_append, size_newline, size_prettyMember k m,
        size_prettyMembers k ms]
      have h₁ : "\x7b".utf8ByteSize = 1 := rfl
      have h₂ : "\x7d".utf8ByteSize = 1 := rfl
      omega

theorem size_prettyRest (k : Nat) :
    (js : List Json) → (prettyRest k js).utf8ByteSize = prettySizeRest k js
  | [] => size_newline k
  | j :: js => by
      simp only [prettyRest, prettySizeRest, size_append, size_newline, size_prettyAt (k + 1) j,
        size_prettyRest k js]
      have h₁ : ",".utf8ByteSize = 1 := rfl
      omega

theorem size_prettyMember (k : Nat) :
    (m : String × Json) → (prettyMember k m).utf8ByteSize = prettySizeMember k m
  | (key, j) => by
      simp only [prettyMember, prettySizeMember, size_append, size_prettyAt (k + 1) j]
      rfl

theorem size_prettyMembers (k : Nat) :
    (ms : List (String × Json)) → (prettyMembers k ms).utf8ByteSize = prettySizeMembers k ms
  | [] => size_newline k
  | m :: ms => by
      simp only [prettyMembers, prettySizeMembers, size_append, size_newline,
        size_prettyMember k m, size_prettyMembers k ms]
      have h₁ : ",".utf8ByteSize = 1 := rfl
      omega

end

/-- The size of the pretty text can be computed without building the text. -/
theorem size_pretty (j : Json) : j.pretty.utf8ByteSize = j.prettySizeAt 0 :=
  size_prettyAt 0 j

/-! ## Repeated keys -/

mutual

/-- The first repeated key met while the document is read from left to right. A key is
compared with the earlier keys of its object before its value is read. -/
def firstDuplicate : Json → Option String
  | .null | .bool _ | .num _ | .str _ => none
  | .arr elements => firstDuplicateList elements
  | .obj members => firstDuplicateMembers [] members

def firstDuplicateList : List Json → Option String
  | [] => none
  | j :: js => j.firstDuplicate <|> firstDuplicateList js

def firstDuplicateMembers (seen : List String) : List (String × Json) → Option String
  | [] => none
  | m :: ms =>
      firstDuplicateMember seen m <|> firstDuplicateMembers (m.1 :: seen) ms

def firstDuplicateMember (seen : List String) : String × Json → Option String
  | (key, j) => if key ∈ seen then some key else j.firstDuplicate

end

@[simp] theorem firstDuplicate_null : null.firstDuplicate = none := rfl

@[simp] theorem firstDuplicate_bool (b : Bool) : (bool b).firstDuplicate = none := rfl

@[simp] theorem firstDuplicate_num (n : Nat) : (num n).firstDuplicate = none := rfl

@[simp] theorem firstDuplicate_str (s : String) : (str s).firstDuplicate = none := rfl

@[simp] theorem firstDuplicate_arr (js : List Json) :
    (arr js).firstDuplicate = firstDuplicateList js := rfl

@[simp] theorem firstDuplicate_obj (ms : List (String × Json)) :
    (obj ms).firstDuplicate = firstDuplicateMembers [] ms := rfl

@[simp] theorem firstDuplicateList_nil : firstDuplicateList [] = none := rfl

@[simp] theorem firstDuplicateList_cons (j : Json) (js : List Json) :
    firstDuplicateList (j :: js) = (j.firstDuplicate <|> firstDuplicateList js) := rfl

@[simp] theorem firstDuplicateMembers_nil (seen : List String) :
    firstDuplicateMembers seen [] = none := rfl

@[simp] theorem firstDuplicateMembers_cons (seen : List String) (key : String) (j : Json)
    (ms : List (String × Json)) :
    firstDuplicateMembers seen ((key, j) :: ms) =
      ((if key ∈ seen then some key else j.firstDuplicate) <|>
        firstDuplicateMembers (key :: seen) ms) := rfl

end Json

end Whale
