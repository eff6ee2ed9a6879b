import Mathlib.Data.List.DropRight
import Mathlib.Data.Nat.Digits.Defs
import Whale.Assembler.Amd64.Ast
import Whale.Lib.Except
import Whale.Lib.Word

set_option autoImplicit false

/-! # Tokens of a source

The tokenizer goes over the characters of a source with a cursor, which counts bytes, lines and
columns. A slice off a character boundary would be a panic and a loop that does not end is stuck;
neither happens. The tokens of an accepted source and the gaps between them make up the source,
and every token has the place and the value of its text (`tokenize_exact`). -/

namespace Whale.Assembler.Amd64

open Text

/-! ## The cursor -/

structure Mark where
  position : Nat
  line : Nat
  column : Nat
  deriving DecidableEq

structure Cursor where
  position : Nat
  line : Nat
  column : Nat
  previousCr : Bool
  deriving DecidableEq

/-- Why the tokenizer stops. -/
inductive Halt where
  | error (e : AsmError)
  | panic
  | stuck
  deriving DecidableEq

abbrev Lexing := EStateM Halt Cursor

namespace Cursor

def first : Cursor where
  position := 0
  line := 1
  column := 1
  previousCr := false

def mark (c : Cursor) : Mark where
  position := c.position
  line := c.line
  column := c.column

/-- The cursor behind a character. Its counters do not outgrow the source. -/
def after (c : Cursor) (ch : Char) : Cursor :=
  if ch = '\r' then
    { position := c.position + ch.utf8Size, line := c.line + 1, column := 1, previousCr := true }
  else if ch = '\n' then
    { position := c.position + ch.utf8Size
      line := if c.previousCr = true then c.line else c.line + 1
      column := 1, previousCr := false }
  else
    { position := c.position + ch.utf8Size, line := c.line, column := c.column + 1
      previousCr := false }

def token (c : Cursor) (kind : TokenKind) (start : Mark) : Token where
  kind := kind
  position := start.position
  endPosition := c.position
  line := start.line
  column := start.column
  endLine := c.line
  endColumn := c.column

end Cursor

section

variable (source : Text)

/-- `&source[start..]`. -/
def sliceFrom (start : Nat) : Lexing Text := orThrow (dropBytes source start) Halt.panic

/-- `&source[start..stop]`. -/
def sliceBetween (start stop : Nat) : Lexing Text := do
  let rest ← sliceFrom source start
  let length ← orThrow (checkedSub stop start) Halt.panic
  orThrow (takeBytes rest length) Halt.panic

def peek : Lexing (Option Char) := do
  let c ← get
  let rest ← sliceFrom source c.position
  return rest.head?

def bump : Lexing (Option Char) := do
  match ← peek source with
  | none => return none
  | some ch => do
      modify (·.after ch)
      return some ch

/-- An error from `start` on, which covers one character at least. -/
def fail {α : Type} (msg : String) (start : Mark) : Lexing α := do
  let c ← get
  let ch ← peek source
  let stop := if c.position > start.position then c.position
    else c.position + (ch.map Char.utf8Size).getD 0
  throw (.error (AsmError.at' (.lexerError (.plain msg)) "<input>"
    { start := start.position, stop := stop, line := start.line, column := start.column } none))

/-- `c.bump().ok_or_else(|| c.error(msg, start))?`. -/
def bumpOr (msg : String) (start : Mark) : Lexing Char := do
  match ← bump source with
  | some ch => return ch
  | none => fail source msg start

/-- `while c.peek().is_some_and(p) { c.bump(); }`. -/
def bumpWhile (p : Char → Bool) : Nat → Lexing Unit
  | 0 => throw .stuck
  | fuel + 1 => do
      let ch ← peek source
      if ch.any p = true then do
        let _ ← bump source
        bumpWhile p fuel
      else return ()

/-! ## Strings -/

/-- The loop over the digits of a byte escape. -/
def hexDigits (start : Mark) : Nat → UInt8 → Lexing UInt8
  | 0, value => return value
  | n + 1, value => do
      let ch ← bumpOr source "Truncated byte escape; expected two hex digits" start
      match (digit 16 ch).filter fun _ => isAsciiHexDigit ch with
      | none => fail source "Invalid byte escape; expected two hex digits" start
      | some d => hexDigits start n (value * 16 + UInt8.ofNat d)

/-- What follows a backslash. -/
def escape (start : Mark) : Lexing UInt8 := do
  match ← bumpOr source "Truncated escape" start with
  | '"' => return 0x22
  | '\\' => return 0x5c
  | 'n' => return 0x0a
  | 'r' => return 0x0d
  | 't' => return 0x09
  | '0' => return 0
  | 'x' => hexDigits source start 2 0
  | _ => fail source "Unknown string escape" start

/-- The loop over the characters of a string that begins at `start`. -/
def stringBody (start : Mark) : Nat → List UInt8 → Lexing (List UInt8)
  | 0, _ => throw .stuck
  | fuel + 1, bytes => do
      let c ← get
      let ch ← bumpOr source "Unterminated string literal" start
      if ch = '"' then return bytes
      else if ch = '\\' then do
        let byte ← escape source c.mark
        stringBody start fuel (bytes ++ [byte])
      else stringBody start fuel (bytes ++ String.utf8EncodeChar ch)

/-! ## Numbers -/

def radixOf (rest : Text) : Nat :=
  if ['0', 'x'].isPrefixOf rest = true ∨ ['0', 'X'].isPrefixOf rest = true then 16
  else if ['0', 'b'].isPrefixOf rest = true ∨ ['0', 'B'].isPrefixOf rest = true then 2
  else 10

def isDigitOf (radix : Nat) (ch : Char) : Bool :=
  match radix with
  | 16 => isAsciiHexDigit ch
  | 2 => ch = '0' || ch = '1'
  | _ => ch.isDigit

def skipRadix (radix : Nat) : Lexing Unit :=
  if radix ≠ 10 then do
    let _ ← bump source
    let _ ← bump source
    return ()
  else return ()

def number (start : Mark) : Lexing TokenKind := do
  let c ← get
  let rest ← sliceFrom source c.position
  let radix := radixOf rest
  skipRadix source radix
  let digits ← get
  bumpWhile source (isDigitOf radix) (source.length + 1)
  let stop ← get
  if stop.position = digits.position then
    fail source (if radix = 16 then "Invalid hex number" else "Invalid binary number") start
  else do
    let text ← sliceBetween source digits.position stop.position
    match (fromStrRadix text radix).filter fun n => n ≤ 2 ^ 64 - 1 with
    | none => fail source "Number exceeds unsigned 64-bit range" start
    | some n => return .number n

/-! ## Tokens -/

variable (isAlphanumeric : Char → Bool)

def isIdentifierChar (ch : Char) : Bool := isAlphanumeric ch || ch = '_' || ch = '.'

/-- A token of one character. -/
def single (kind : TokenKind) : Lexing (Option TokenKind) := do
  let _ ← bump source
  return some kind

/-- The line end that begins with `ch`. -/
def newline (ch : Char) : Lexing (Option TokenKind) := do
  let _ ← bump source
  let next ← peek source
  if ch = '\r' ∧ next = some '\n' then do
    let _ ← bump source
    return some .newline
  else return some .newline

/-- The token that begins with `ch`; none when there is a gap. -/
def tokenKind (ch : Char) (start : Mark) : Lexing (Option TokenKind) :=
  if ch = ';' then do
    bumpWhile source (fun ch => ch ≠ '\n' && ch ≠ '\r') (source.length + 1)
    return none
  else if ch = ' ' ∨ ch = '\t' then do
    let _ ← bump source
    return none
  else if ch = '\n' ∨ ch = '\r' then newline source ch
  else if ch = ',' then single source .comma
  else if ch = ':' then single source .colon
  else if ch = '[' then single source .lBracket
  else if ch = ']' then single source .rBracket
  else if ch = '+' then single source .plus
  else if ch = '-' then single source .minus
  else if ch = '*' then single source .multiply
  else if ch = '"' then do
    let _ ← bump source
    let bytes ← stringBody source start (source.length + 1) []
    return some (.stringLiteral bytes)
  else if ch.isDigit = true then do
    let kind ← number source start
    return some kind
  else if isIdentifierChar isAlphanumeric ch = true then do
    bumpWhile source (isIdentifierChar isAlphanumeric) (source.length + 1)
    let c ← get
    let text ← sliceBetween source start.position c.position
    return some (.identifier (String.ofList text))
  else fail source ("Unexpected char '" ++ String.singleton ch ++ "'") start

/-- The loop over the source. -/
def tokenizeFrom : Nat → List Token → Lexing (List Token)
  | 0, _ => throw .stuck
  | fuel + 1, tokens => do
      match ← peek source with
      | none => return tokens
      | some ch => do
          let c ← get
          match ← tokenKind source isAlphanumeric ch c.mark with
          | none => tokenizeFrom fuel tokens
          | some kind => do
              let stop ← get
              tokenizeFrom fuel (tokens ++ [stop.token kind c.mark])

/-- The tokens of a source, where `isAlphanumeric` is that of Unicode, of whatever version. -/
def tokenize : Except Halt (List Token) :=
  match tokenizeFrom source isAlphanumeric (source.length + 1) [] Cursor.first with
  | .ok tokens _ => .ok tokens
  | .error e _ => .error e

end

/-! ## What tokens are

The places and the texts of tokens, said of the source alone. -/

/-- The line ends of a text. A CR and the LF behind it are one. -/
def lineEnds : Text → Nat
  | [] => 0
  | '\r' :: '\n' :: t => lineEnds t + 1
  | c :: t => lineEnds t + if c = '\n' ∨ c = '\r' then 1 else 0

def inLine (c : Char) : Bool := c ≠ '\n' && c ≠ '\r'

/-- The characters since the last line end. -/
def sinceLineEnd (t : Text) : Nat := (t.rtakeWhile inLine).length

/-- The token stands for `text`, which comes behind `before`. -/
structure Token.Located (t : Token) (before text : Text) : Prop where
  position : t.position = size before
  endPosition : t.endPosition = size (before ++ text)
  line : t.line = 1 + lineEnds before
  column : t.column = 1 + sinceLineEnd before
  endLine : t.endLine = 1 + lineEnds (before ++ text)
  endColumn : t.endColumn = 1 + sinceLineEnd (before ++ text)

/-- A blank, a tab, or a comment up to the end of its line. -/
inductive Gap : Text → Text → Prop where
  | blank {after : Text} : Gap [' '] after
  | tab {after : Text} : Gap ['\t'] after
  | comment {body after : Text} (hbody : ∀ c ∈ body, inLine c = true)
      (hafter : ∀ c, after.head? = some c → inLine c = false) : Gap (';' :: body) after

/-- The escapes of one character. -/
def escapes : List (Char × UInt8) :=
  [('"', 0x22), ('\\', 0x5c), ('n', 0x0a), ('r', 0x0d), ('t', 0x09), ('0', 0)]

/-- The bytes of the text between quotes. -/
inductive Decodes : Text → List UInt8 → Prop where
  | nil : Decodes [] []
  | char {c : Char} {t : Text} {bs : List UInt8} (hquote : c ≠ '"') (hslash : c ≠ '\\')
      (h : Decodes t bs) : Decodes (c :: t) (String.utf8EncodeChar c ++ bs)
  | escape {c : Char} {b : UInt8} {t : Text} {bs : List UInt8} (hc : (c, b) ∈ escapes)
      (h : Decodes t bs) : Decodes ('\\' :: c :: t) (b :: bs)
  | byte {c d : Char} {m n : Nat} {t : Text} {bs : List UInt8} (hc : digit 16 c = some m)
      (hd : digit 16 d = some n) (h : Decodes t bs) :
      Decodes ('\\' :: 'x' :: c :: d :: t) (UInt8.ofNat (m * 16 + n) :: bs)

/-- What stands in front of the digits of a radix. -/
def radixPrefixes : List (Text × Nat) :=
  [([], 10), (['0', 'x'], 16), (['0', 'X'], 16), (['0', 'b'], 2), (['0', 'B'], 2)]

/-- The number that digits stand for; the last one counts once. -/
def numberOf (radix : Nat) (ds : Text) : Nat :=
  Nat.ofDigits radix (ds.reverse.map fun c => (digit radix c).getD 0)

/-- The tokens of one character. -/
def marks : List (TokenKind × Char) :=
  [(.comma, ','), (.colon, ':'), (.lBracket, '['), (.rBracket, ']'), (.plus, '+'), (.minus, '-'),
    (.multiply, '*')]

/-- A token with the text that it stands for and the text behind it. -/
inductive Spells (isAlphanumeric : Char → Bool) : TokenKind → Text → Text → Prop where
  | mark {kind : TokenKind} {c : Char} {after : Text} (h : (kind, c) ∈ marks) :
      Spells isAlphanumeric kind [c] after
  | lineFeed {after : Text} : Spells isAlphanumeric .newline ['\n'] after
  | carriageReturn {after : Text} (hafter : after.head? ≠ some '\n') :
      Spells isAlphanumeric .newline ['\r'] after
  | both {after : Text} : Spells isAlphanumeric .newline ['\r', '\n'] after
  | stringLiteral {body after : Text} {bytes : List UInt8} (h : Decodes body bytes) :
      Spells isAlphanumeric (.stringLiteral bytes) ('"' :: body ++ ['"']) after
  | number {radix : Nat} {start ds after : Text} (hstart : (start, radix) ∈ radixPrefixes)
      (hne : ds ≠ []) (hds : ∀ c ∈ ds, (digit radix c).isSome = true)
      (hafter : ∀ c, after.head? = some c → digit radix c = none)
      (hvalue : numberOf radix ds < 2 ^ 64) :
      Spells isAlphanumeric (.number (numberOf radix ds)) (start ++ ds) after
  | identifier {text after : Text} (hhead : ∀ c, text.head? = some c → c.isDigit = false)
      (htext : ∀ c ∈ text, isIdentifierChar isAlphanumeric c = true)
      (hafter : ∀ c, after.head? = some c → isIdentifierChar isAlphanumeric c = false) :
      Spells isAlphanumeric (.identifier (String.ofList text)) text after

/-- Behind `before`, the source is made up of the texts of the tokens and of gaps. -/
inductive Lexed (source : Text) (isAlphanumeric : Char → Bool) : Text → List Token → Prop where
  | stop : Lexed source isAlphanumeric source []
  | gap {before text after : Text} {tokens : List Token} (hsource : source = before ++ text ++ after)
      (hgap : Gap text after) (hrest : Lexed source isAlphanumeric (before ++ text) tokens) :
      Lexed source isAlphanumeric before tokens
  | token {before text after : Text} {t : Token} {tokens : List Token}
      (hsource : source = before ++ text ++ after) (hne : text ≠ [])
      (hlocated : t.Located before text) (hspells : Spells isAlphanumeric t.kind text after)
      (hrest : Lexed source isAlphanumeric (before ++ text) tokens) :
      Lexed source isAlphanumeric before (t :: tokens)

/-! ## The place of the cursor -/

theorem lineEnds_cons {c : Char} {t : Text} (h : ¬ (c = '\r' ∧ ∃ t', t = '\n' :: t')) :
    lineEnds (c :: t) = lineEnds t + if c = '\n' ∨ c = '\r' then 1 else 0 :=
  lineEnds.eq_3 c t fun t' hc ht => h ⟨hc, t', ht⟩

/-- A CR begins a line end, and so does an LF without a CR in front of it. -/
theorem lineEnds_concat (t : Text) (c : Char) : lineEnds (t ++ [c]) =
    lineEnds t + if c = '\r' ∨ c = '\n' ∧ t.getLast? ≠ some '\r' then 1 else 0 := by
  induction t using lineEnds.induct with
  | case1 =>
      rw [List.nil_append, lineEnds_cons (by simp)]
      simp [or_comm]
  | case2 t ih =>
      have hlast : ('\r' :: '\n' :: t).getLast? ≠ some '\r' ↔ t.getLast? ≠ some '\r' := by
        cases t <;> simp
      rw [List.cons_append, List.cons_append, lineEnds, lineEnds, ih]
      simp only [hlast]
      omega
  | case3 d t hnot ih =>
      rw [lineEnds_cons (fun h => hnot _ h.1 h.2.choose_spec)]
      cases t with
      | nil =>
          by_cases hboth : d = '\r' ∧ c = '\n'
          · obtain ⟨rfl, rfl⟩ := hboth
            rfl
          · rw [List.cons_append, lineEnds_cons (by simpa using hboth), ih]
            have hlast : c = '\n' → ¬ d = '\r' := fun hc hd => hboth ⟨hd, hc⟩
            simp only [List.getLast?_nil, List.getLast?_singleton]
            by_cases hc : c = '\n'
            · simp [hc, hlast hc]
              omega
            · simp [hc]
              omega
      | cons e t =>
          have hskip : ¬ (d = '\r' ∧ ∃ t', (e :: t) ++ [c] = '\n' :: t') := by
            rintro ⟨hd, t', h⟩
            rw [List.cons_append, List.cons.injEq] at h
            exact hnot t hd (by rw [h.1])
          rw [List.cons_append, lineEnds_cons hskip, ih, List.getLast?_cons_cons]
          omega

/-- The cursor is behind `before`. -/
structure Cursor.Behind (c : Cursor) (before : Text) : Prop where
  position : c.position = size before
  line : c.line = 1 + lineEnds before
  column : c.column = 1 + sinceLineEnd before
  previousCr : c.previousCr = true ↔ before.getLast? = some '\r'

theorem Cursor.behind_first : first.Behind [] :=
  ⟨rfl, rfl, rfl, by simp [first]⟩

theorem Cursor.Behind.after {c : Cursor} {before : Text} (h : c.Behind before) (ch : Char) :
    (c.after ch).Behind (before ++ [ch]) := by
  have hsize : size (before ++ [ch]) = size before + ch.utf8Size := by
    rw [size_append]
    rfl
  have hlast : (before ++ [ch]).getLast? = some ch := List.getLast?_concat
  have hends := lineEnds_concat before ch
  unfold Cursor.after
  by_cases hcr : ch = '\r'
  · subst hcr
    rw [if_pos rfl]
    refine ⟨?_, ?_, ?_, by simp [hlast]⟩
    · rw [hsize, ← h.position]
    · rw [hends, if_pos (Or.inl rfl), ← Nat.add_assoc, ← h.line]
    · rw [sinceLineEnd, List.rtakeWhile_concat_neg _ _ _ (by decide)]
      rfl
  rw [if_neg hcr]
  by_cases hlf : ch = '\n'
  · subst hlf
    rw [if_pos rfl]
    refine ⟨?_, ?_, ?_, by rw [hlast]; simp⟩
    · rw [hsize, ← h.position]
    · rw [hends]
      by_cases hprevious : c.previousCr = true
      · rw [if_pos hprevious, if_neg, h.line]
        · rfl
        · simp [h.previousCr.mp hprevious]
      · rw [if_neg hprevious, if_pos, ← Nat.add_assoc, ← h.line]
        exact Or.inr ⟨rfl, fun heq => hprevious (h.previousCr.mpr heq)⟩
    · rw [sinceLineEnd, List.rtakeWhile_concat_neg _ _ _ (by decide)]
      rfl
  rw [if_neg hlf]
  refine ⟨?_, ?_, ?_, by rw [hlast]; simp [hcr]⟩
  · rw [hsize, ← h.position]
  · rw [hends, if_neg (by simp [hcr, hlf]), h.line]
    rfl
  · rw [sinceLineEnd, List.rtakeWhile_concat_pos _ _ _ (by simp [inLine, hcr, hlf]),
      List.length_append, h.column]
    rfl

/-! ## Moving the cursor -/

/-- An outcome that the tokenizer reports. -/
def Reported (h : Halt) : Prop := ∃ e, h = .error e

section

variable {source before rest : Text} {c : Cursor}

theorem sliceFrom_run (hsource : source = before ++ rest) :
    sliceFrom source (size before) c = .ok rest c := by
  unfold sliceFrom
  rw [hsource, dropBytes_append]
  rfl

theorem sliceBetween_run {text after : Text} (hsource : source = before ++ text ++ after) :
    sliceBetween source (size before) (size (before ++ text)) c = .ok text c := by
  have hlength : checkedSub (size (before ++ text)) (size before) = some (size text) := by
    rw [size_append]
    exact checkedSub_eq_some.mpr ⟨by omega, by omega⟩
  rw [List.append_assoc] at hsource
  unfold sliceBetween
  rw [bind_run_ok (sliceFrom_run hsource), hlength, bind_run_ok (orThrow_run ..), takeBytes_append]
  rfl

theorem peek_run (hsource : source = before ++ rest) (hc : c.Behind before) :
    peek source c = .ok rest.head? c := by
  unfold peek
  rw [bind_run_ok (get_run c), hc.position, bind_run_ok (sliceFrom_run hsource)]
  rfl

theorem bump_run {ch : Char} (hsource : source = before ++ ch :: rest) (hc : c.Behind before) :
    bump source c = .ok (some ch) (c.after ch) := by
  unfold bump
  rw [bind_run_ok (peek_run hsource hc)]
  rfl

theorem fail_concludes {α : Type} {Q : α → Cursor → Prop} (hsource : source = before ++ rest)
    (hc : c.Behind before) (msg : String) (start : Mark) :
    Concludes Q Reported (fail source msg start) c := by
  unfold fail
  refine Concludes.get_bind ?_
  exact Concludes.run_bind (peek_run hsource hc) ⟨_, rfl⟩

theorem bumpOr_concludes (hsource : source = before ++ rest) (hc : c.Behind before) (msg : String)
    (start : Mark) : Concludes (fun ch c' => ∃ rest', rest = ch :: rest' ∧ c' = c.after ch) Reported
      (bumpOr source msg start) c := by
  unfold bumpOr
  cases rest with
  | nil =>
      have hbump : bump source c = .ok none c := by
        unfold bump
        rw [bind_run_ok (peek_run hsource hc)]
        rfl
      exact Concludes.run_bind hbump (fail_concludes hsource hc msg start)
  | cons ch rest =>
      exact Concludes.run_bind (bump_run hsource hc) ⟨rest, rfl, rfl⟩

theorem head_dropWhile {p : Char → Bool} {t : Text} {ch : Char}
    (h : (t.dropWhile p).head? = some ch) : p ch = false := by
  have hnot := List.head?_dropWhile_not p t
  rw [h] at hnot
  simpa using hnot

/-- The loop stops in front of the first character without `p`. -/
theorem bumpWhile_run (p : Char → Bool) {fuel : Nat} (hsource : source = before ++ rest)
    (hc : c.Behind before) (hfuel : rest.length < fuel) :
    ∃ c', bumpWhile source p fuel c = .ok () c' ∧ c'.Behind (before ++ rest.takeWhile p) := by
  induction fuel generalizing before rest c with
  | zero => omega
  | succ fuel ih =>
      unfold bumpWhile
      rw [bind_run_ok (peek_run hsource hc)]
      cases rest with
      | nil =>
          refine ⟨c, rfl, ?_⟩
          rw [List.takeWhile_nil, List.append_nil]
          exact hc
      | cons ch rest =>
          rw [List.head?_cons, Option.any_some]
          by_cases hp : p ch = true
          · rw [if_pos hp, bind_run_ok (bump_run hsource hc), List.takeWhile_cons_of_pos hp,
              List.append_cons]
            rw [List.length_cons] at hfuel
            exact ih (by rw [hsource, List.append_cons]) (hc.after ch) (by omega)
          · rw [if_neg hp, List.takeWhile_cons_of_neg hp, List.append_nil]
            exact ⟨c, rfl, hc⟩

/-! ## Strings -/

theorem hexDigits_concludes (start : Mark) (n : Nat) (value : UInt8)
    (hsource : source = before ++ rest) (hc : c.Behind before) :
    Concludes (fun b c' => ∃ ds after, rest = ds ++ after ∧ c'.Behind (before ++ ds) ∧
      ds.length = n ∧ (∀ d ∈ ds, (digit 16 d).isSome = true) ∧
      b = ds.foldl (fun b d => b * 16 + UInt8.ofNat ((digit 16 d).getD 0)) value) Reported
      (hexDigits source start n value) c := by
  induction n generalizing before rest c value with
  | zero =>
      refine Concludes.pure ⟨[], rest, rfl, ?_, rfl, nofun, rfl⟩
      rw [List.append_nil]
      exact hc
  | succ n ih =>
      unfold hexDigits
      refine (bumpOr_concludes hsource hc _ start).bind fun ch c' h => ?_
      obtain ⟨rest, rfl, rfl⟩ := h
      have hsource' : source = (before ++ [ch]) ++ rest := by
        rw [hsource, List.append_cons]
      split
      · exact fail_concludes hsource' (hc.after ch) _ start
      · rename_i d hd
        have hdigit := (Option.filter_eq_some_iff.mp hd).1
        refine (ih _ hsource' (hc.after ch)).mono fun b c' h => ?_
        obtain ⟨ds, after, rfl, hc', hlength, hds, rfl⟩ := h
        refine ⟨ch :: ds, after, rfl, ?_, by rw [List.length_cons, hlength], ?_, ?_⟩
        · rw [List.append_cons]
          exact hc'
        · exact List.forall_mem_cons.mpr ⟨by rw [hdigit]; rfl, hds⟩
        · rw [List.foldl_cons, hdigit, Option.getD_some]

theorem escape_concludes (start : Mark) (hsource : source = before ++ rest) (hc : c.Behind before) :
    Concludes (fun b c' => ∃ text after, rest = text ++ after ∧ c'.Behind (before ++ text) ∧
      ∀ t bs, Decodes t bs → Decodes ('\\' :: text ++ t) (b :: bs)) Reported
      (escape source start) c := by
  unfold escape
  refine (bumpOr_concludes hsource hc _ start).bind fun ch c' h => ?_
  obtain ⟨rest, rfl, rfl⟩ := h
  have hsource' : source = (before ++ [ch]) ++ rest := by
    rw [hsource, List.append_cons]
  have hone : ∀ b, (ch, b) ∈ escapes → ∃ text after, ch :: rest = text ++ after ∧
      (c.after ch).Behind (before ++ text) ∧
      ∀ t bs, Decodes t bs → Decodes ('\\' :: text ++ t) (b :: bs) :=
    fun b hb => ⟨[ch], rest, rfl, hc.after ch, fun t bs h => .escape hb h⟩
  split
  · exact hone 0x22 (by decide)
  · exact hone 0x5c (by decide)
  · exact hone 0x0a (by decide)
  · exact hone 0x0d (by decide)
  · exact hone 0x09 (by decide)
  · exact hone 0 (by decide)
  · refine (hexDigits_concludes start 2 0 hsource' (hc.after _)).mono fun b c' h => ?_
    obtain ⟨ds, after, rfl, hc', hlength, hds, rfl⟩ := h
    obtain ⟨d, e, rfl⟩ := List.length_eq_two.mp hlength
    obtain ⟨m, hm⟩ := Option.isSome_iff_exists.mp (hds d (by simp))
    obtain ⟨n, hn⟩ := Option.isSome_iff_exists.mp (hds e (by simp))
    refine ⟨['x', d, e], after, rfl, ?_, fun t bs h => ?_⟩
    · rw [List.append_cons]
      exact hc'
    · have hvalue : [d, e].foldl (fun b d => b * 16 + UInt8.ofNat ((digit 16 d).getD 0)) 0 =
          UInt8.ofNat (m * 16 + n) := by
        simp [hm, hn]
      rw [hvalue]
      exact .byte hm hn h
  · exact fail_concludes hsource' (hc.after ch) _ start

theorem stringBody_concludes (start : Mark) {fuel : Nat} (bytes : List UInt8)
    (hsource : source = before ++ rest) (hc : c.Behind before) (hfuel : rest.length < fuel) :
    Concludes (fun bs c' => ∃ body after ds, rest = body ++ '"' :: after ∧
      c'.Behind (before ++ body ++ ['"']) ∧ bs = bytes ++ ds ∧ Decodes body ds) Reported
      (stringBody source start fuel bytes) c := by
  induction fuel generalizing before rest c bytes with
  | zero => omega
  | succ fuel ih =>
      unfold stringBody
      refine Concludes.get_bind ?_
      refine (bumpOr_concludes hsource hc _ start).bind fun ch c' h => ?_
      obtain ⟨rest, rfl, rfl⟩ := h
      rw [List.length_cons] at hfuel
      have hsource' : source = (before ++ [ch]) ++ rest := by
        rw [hsource, List.append_cons]
      by_cases hquote : ch = '"'
      · rw [if_pos hquote]
        refine Concludes.pure ⟨[], rest, [], by rw [hquote]; rfl, ?_, by simp, .nil⟩
        rw [List.append_nil, ← hquote]
        exact hc.after ch
      rw [if_neg hquote]
      by_cases hslash : ch = '\\'
      · rw [if_pos hslash]
        refine (escape_concludes c.mark hsource' (hc.after ch)).bind fun b c' h => ?_
        obtain ⟨text, after, rfl, hc', hdecodes⟩ := h
        rw [← List.append_assoc] at hsource'
        rw [List.length_append] at hfuel
        refine (ih _ hsource' hc' (by omega)).mono fun bs c'' h => ?_
        obtain ⟨body, after', ds, rfl, hc'', rfl, hds⟩ := h
        refine ⟨ch :: text ++ body, after', b :: ds, by simp, ?_, by simp, ?_⟩
        · simpa using hc''
        · rw [hslash]
          exact hdecodes body ds hds
      · rw [if_neg hslash]
        refine (ih _ hsource' (hc.after ch) (by omega)).mono fun bs c'' h => ?_
        obtain ⟨body, after', ds, rfl, hc'', rfl, hds⟩ := h
        refine ⟨ch :: body, after', _, rfl, ?_, List.append_assoc .., .char hquote hslash hds⟩
        simpa using hc''

/-! ## Numbers -/

theorem isDigitOf_eq {start : Text} {radix : Nat} (h : (start, radix) ∈ radixPrefixes) (ch : Char) :
    isDigitOf radix ch = (digit radix ch).isSome := by
  have hradix : radix = 10 ∨ radix = 16 ∨ radix = 2 :=
    (by decide : ∀ p ∈ radixPrefixes, p.2 = 10 ∨ p.2 = 16 ∨ p.2 = 2) _ h
  have hdigit : ch.isDigit = true ↔ 48 ≤ ch.toNat ∧ ch.toNat ≤ 57 := Char.isDigit_iff_toNat
  have hle : ∀ a b : Char, a ≤ b ↔ a.toNat ≤ b.toNat := fun _ _ => Iff.rfl
  rw [Bool.eq_iff_iff, isSome_digit]
  rcases hradix with rfl | rfl | rfl
  · rw [isDigitOf, hdigit]
    · omega
    · decide
    · decide
  · simp only [isDigitOf, isAsciiHexDigit, Bool.or_eq_true, Bool.and_eq_true, decide_eq_true_eq,
      hdigit, hle]
    have hvalues : 'a'.toNat = 97 ∧ 'f'.toNat = 102 ∧ 'A'.toNat = 65 ∧ 'F'.toNat = 70 := by decide
    omega
  · simp only [isDigitOf, Bool.or_eq_true, decide_eq_true_eq, ← Char.toNat_inj]
    have hvalues : '0'.toNat = 48 ∧ '1'.toNat = 49 := by decide
    omega

theorem numberOf_eq (radix : Nat) (ds : Text) :
    numberOf radix ds = ds.foldl (fun n c => n * radix + (digit radix c).getD 0) 0 := by
  unfold numberOf
  rw [Nat.ofDigits_eq_foldr, List.foldr_map, List.foldr_reverse]
  congr 1
  funext n c
  rw [Nat.mul_comm, Nat.add_comm, Nat.cast_id]

theorem radixOf_spec (rest : Text) :
    ∃ start ds, rest = start ++ ds ∧ (start, radixOf rest) ∈ radixPrefixes := by
  have hprefix : ∀ p : Text, p.isPrefixOf rest = true → ∃ ds, rest = p ++ ds := by
    intro p hp
    obtain ⟨ds, h⟩ := List.isPrefixOf_iff_prefix.mp hp
    exact ⟨ds, h.symm⟩
  unfold radixOf
  split
  · rename_i h
    rcases h with h | h
    · obtain ⟨ds, hds⟩ := hprefix _ h
      exact ⟨_, ds, hds, by decide⟩
    · obtain ⟨ds, hds⟩ := hprefix _ h
      exact ⟨_, ds, hds, by decide⟩
  split
  · rename_i h
    rcases h with h | h
    · obtain ⟨ds, hds⟩ := hprefix _ h
      exact ⟨_, ds, hds, by decide⟩
    · obtain ⟨ds, hds⟩ := hprefix _ h
      exact ⟨_, ds, hds, by decide⟩
  · exact ⟨[], rest, rfl, by decide⟩

theorem skipRadix_run {start : Text} {radix : Nat} (hstart : (start, radix) ∈ radixPrefixes)
    (hsource : source = before ++ start ++ rest) (hc : c.Behind before) :
    ∃ c', skipRadix source radix c = .ok () c' ∧ c'.Behind (before ++ start) := by
  have hlength : start.length = if radix ≠ 10 then 2 else 0 :=
    (by decide : ∀ p ∈ radixPrefixes, p.1.length = if p.2 ≠ 10 then 2 else 0) _ hstart
  unfold skipRadix
  by_cases hradix : radix ≠ 10
  · rw [if_pos hradix] at hlength ⊢
    obtain ⟨a, b, rfl⟩ := List.length_eq_two.mp hlength
    have hfirst : source = before ++ a :: b :: rest := by simpa using hsource
    have hsecond : source = (before ++ [a]) ++ b :: rest := by simpa using hsource
    rw [bind_run_ok (bump_run hfirst hc), bind_run_ok (bump_run hsecond (hc.after a))]
    refine ⟨_, rfl, ?_⟩
    simpa using (hc.after a).after b
  · rw [if_neg hradix] at hlength ⊢
    obtain rfl := List.length_eq_zero_iff.mp hlength
    refine ⟨c, rfl, ?_⟩
    rw [List.append_nil]
    exact hc

theorem number_concludes (isAlphanumeric : Char → Bool) (start : Mark)
    (hsource : source = before ++ rest) (hc : c.Behind before) :
    Concludes (fun kind c' => ∃ text after, rest = text ++ after ∧ text ≠ [] ∧
      c'.Behind (before ++ text) ∧ Spells isAlphanumeric kind text after) Reported
      (number source start) c := by
  unfold number
  refine Concludes.get_bind ?_
  rw [hc.position]
  refine Concludes.run_bind (sliceFrom_run hsource) ?_
  obtain ⟨lead, tail, hrest, hlead⟩ := radixOf_spec rest
  have hdigit := isDigitOf_eq hlead
  generalize radixOf rest = radix at hlead hdigit ⊢
  subst hrest
  rw [← List.append_assoc] at hsource
  -- The radix prefix is skipped; the digits then run to the first character that is none.
  obtain ⟨c₁, hskip, hc₁⟩ := skipRadix_run hlead hsource hc
  refine Concludes.run_bind hskip ?_
  refine Concludes.get_bind ?_
  have hlength : tail.length < source.length + 1 := by
    rw [hsource, List.length_append]
    omega
  obtain ⟨c₂, hdigits, hc₂⟩ := bumpWhile_run (isDigitOf radix) hsource hc₁ hlength
  refine Concludes.run_bind hdigits ?_
  refine Concludes.get_bind ?_
  have htail := List.takeWhile_append_dropWhile (p := isDigitOf radix) (l := tail)
  have hds : ∀ d ∈ tail.takeWhile (isDigitOf radix), (digit radix d).isSome = true := by
    intro d hd
    rw [← hdigit]
    exact List.mem_takeWhile_imp hd
  have hafter : ∀ d, (tail.dropWhile (isDigitOf radix)).head? = some d → digit radix d = none := by
    intro d hd
    rw [← Option.isNone_iff_eq_none, ← Option.not_isSome, ← hdigit, head_dropWhile hd]
    rfl
  generalize tail.takeWhile (isDigitOf radix) = ds at htail hds hc₂
  generalize tail.dropWhile (isDigitOf radix) = after at htail hafter
  have hsource₂ : source = (before ++ lead) ++ ds ++ after := by
    rw [hsource, ← htail, ← List.append_assoc]
  rw [hc₁.position, hc₂.position]
  -- A bare prefix has no digits, and a value from `2 ^ 64` on is refused.
  by_cases hne : ds = []
  · rw [if_pos (by rw [hne, List.append_nil])]
    exact fail_concludes hsource₂ hc₂ _ start
  · have hsize := length_le_size ds
    have hpos := List.length_pos_iff.mpr hne
    rw [if_neg (by rw [size_append _ ds]; omega)]
    refine Concludes.run_bind (sliceBetween_run hsource₂) ?_
    rw [fromStrRadix_digits hne hds (numberOf_eq radix ds)]
    split
    · exact fail_concludes hsource₂ hc₂ _ start
    · rename_i n hn
      obtain ⟨hn, hbound⟩ := Option.filter_eq_some_iff.mp hn
      split at hn
      · cases hn
        have hvalue : numberOf radix ds < 2 ^ 64 := by
          have hle := of_decide_eq_true hbound
          omega
        refine Concludes.pure ⟨lead ++ ds, after, ?_, ?_, ?_, .number hlead hne hds hafter hvalue⟩
        · rw [← htail, List.append_assoc]
        · exact fun h => hne (List.append_eq_nil_iff.mp h).2
        · rw [← List.append_assoc]
          exact hc₂
      · cases hn

/-! ## Tokens -/

/-- What stands between the cursor and a later one: a gap or a token. -/
def Spans (isAlphanumeric : Char → Bool) (kind : Option TokenKind) (text after : Text) : Prop :=
  match kind with
  | none => Gap text after
  | some kind => Spells isAlphanumeric kind text after

/-- One turn of the loop goes over `text`. -/
def Turn (isAlphanumeric : Char → Bool) (before rest : Text) (kind : Option TokenKind) (c : Cursor) :
    Prop :=
  ∃ text after, rest = text ++ after ∧ text ≠ [] ∧ c.Behind (before ++ text) ∧
    Spans isAlphanumeric kind text after

variable {isAlphanumeric : Char → Bool} {ch : Char}

theorem single_concludes {kind : TokenKind} (hkind : (kind, ch) ∈ marks)
    (hsource : source = before ++ ch :: rest) (hc : c.Behind before) :
    Concludes (Turn isAlphanumeric before (ch :: rest)) Reported (single source kind) c := by
  unfold single
  refine Concludes.run_bind (bump_run hsource hc) ?_
  exact Concludes.pure ⟨[ch], rest, rfl, List.cons_ne_nil _ _, hc.after ch, .mark hkind⟩

/-- One of the tokens of one character, or what the rest of the choice finds. -/
theorem single_or_concludes (kind : TokenKind) {d : Char} {other : Lexing (Option TokenKind)}
    (hkind : (kind, d) ∈ marks) (hsource : source = before ++ ch :: rest) (hc : c.Behind before)
    (hother : Concludes (Turn isAlphanumeric before (ch :: rest)) Reported other c) :
    Concludes (Turn isAlphanumeric before (ch :: rest)) Reported
      (if ch = d then single source kind else other) c := by
  by_cases hd : ch = d
  · subst hd
    rw [if_pos rfl]
    exact single_concludes hkind hsource hc
  · rw [if_neg hd]
    exact hother

theorem newline_concludes (hch : ch = '\n' ∨ ch = '\r')
    (hsource : source = before ++ ch :: rest) (hc : c.Behind before) :
    Concludes (Turn isAlphanumeric before (ch :: rest)) Reported (newline source ch) c := by
  have hsource' : source = (before ++ [ch]) ++ rest := by
    rw [hsource, List.append_cons]
  unfold newline
  refine Concludes.run_bind (bump_run hsource hc) ?_
  refine Concludes.run_bind (peek_run hsource' (hc.after ch)) ?_
  by_cases hboth : ch = '\r' ∧ rest.head? = some '\n'
  · rw [if_pos hboth]
    obtain ⟨rfl, hhead⟩ := hboth
    obtain ⟨after, rfl⟩ := List.head?_eq_some_iff.mp hhead
    refine Concludes.run_bind (bump_run hsource' (hc.after _)) ?_
    refine Concludes.pure ⟨['\r', '\n'], after, rfl, List.cons_ne_nil _ _, ?_, .both⟩
    rw [List.append_cons]
    exact (hc.after _).after _
  · rw [if_neg hboth]
    refine Concludes.pure ⟨[ch], rest, rfl, List.cons_ne_nil _ _, hc.after ch, ?_⟩
    rcases hch with rfl | rfl
    · exact .lineFeed
    · exact .carriageReturn fun hhead => hboth ⟨rfl, hhead⟩

theorem tokenKind_concludes (hsource : source = before ++ ch :: rest) (hc : c.Behind before) :
    Concludes (Turn isAlphanumeric before (ch :: rest)) Reported
      (tokenKind source isAlphanumeric ch c.mark) c := by
  have hlength : (ch :: rest).length < source.length + 1 := by
    rw [hsource, List.length_append]
    omega
  have hsource' : source = (before ++ [ch]) ++ rest := by
    rw [hsource, List.append_cons]
  unfold tokenKind
  -- One case for each branch of the source's match, in its order.
  by_cases hcomment : ch = ';'
  · rw [if_pos hcomment]
    obtain ⟨c', hrun, hc'⟩ := bumpWhile_run inLine hsource hc hlength
    refine Concludes.run_bind hrun ?_
    refine Concludes.pure ⟨(ch :: rest).takeWhile inLine, (ch :: rest).dropWhile inLine,
      List.takeWhile_append_dropWhile.symm, ?_, hc', ?_⟩
    all_goals rw [hcomment, List.takeWhile_cons_of_pos (by decide)]
    · exact List.cons_ne_nil _ _
    · exact .comment (fun d hd => List.mem_takeWhile_imp hd) fun d hd => head_dropWhile hd
  rw [if_neg hcomment]
  by_cases hblank : ch = ' ' ∨ ch = '\t'
  · rw [if_pos hblank]
    refine Concludes.run_bind (bump_run hsource hc) ?_
    refine Concludes.pure ⟨[ch], rest, rfl, List.cons_ne_nil _ _, hc.after ch, ?_⟩
    rcases hblank with rfl | rfl
    · exact .blank
    · exact .tab
  rw [if_neg hblank]
  by_cases hnewline : ch = '\n' ∨ ch = '\r'
  · rw [if_pos hnewline]
    exact newline_concludes hnewline hsource hc
  rw [if_neg hnewline]
  refine single_or_concludes .comma (by decide) hsource hc ?_
  refine single_or_concludes .colon (by decide) hsource hc ?_
  refine single_or_concludes .lBracket (by decide) hsource hc ?_
  refine single_or_concludes .rBracket (by decide) hsource hc ?_
  refine single_or_concludes .plus (by decide) hsource hc ?_
  refine single_or_concludes .minus (by decide) hsource hc ?_
  refine single_or_concludes .multiply (by decide) hsource hc ?_
  by_cases hquote : ch = '"'
  · rw [if_pos hquote]
    refine Concludes.run_bind (bump_run hsource hc) ?_
    rw [List.length_cons] at hlength
    refine (stringBody_concludes c.mark [] hsource' (hc.after ch) (by omega)).bind fun bs c' h => ?_
    obtain ⟨body, after, ds, rfl, hc', rfl, hds⟩ := h
    refine Concludes.pure ⟨'"' :: body ++ ['"'], after, by rw [hquote]; simp,
      List.cons_ne_nil _ _, ?_, .stringLiteral hds⟩
    simpa [hquote] using hc'
  rw [if_neg hquote]
  by_cases hdigit : ch.isDigit = true
  · rw [if_pos hdigit]
    exact (number_concludes isAlphanumeric c.mark hsource hc).bind fun kind c' h => Concludes.pure h
  rw [if_neg hdigit]
  by_cases hidentifier : isIdentifierChar isAlphanumeric ch = true
  · rw [if_pos hidentifier]
    obtain ⟨c', hrun, hc'⟩ := bumpWhile_run (isIdentifierChar isAlphanumeric) hsource hc hlength
    refine Concludes.run_bind hrun ?_
    refine Concludes.get_bind ?_
    have hsplit := List.takeWhile_append_dropWhile (p := isIdentifierChar isAlphanumeric)
      (l := ch :: rest)
    have hsource'' : source = before ++ (ch :: rest).takeWhile (isIdentifierChar isAlphanumeric) ++
        (ch :: rest).dropWhile (isIdentifierChar isAlphanumeric) := by
      rw [List.append_assoc, hsplit]
      exact hsource
    rw [show c.mark.position = size before from hc.position, hc'.position]
    refine Concludes.run_bind (sliceBetween_run hsource'') ?_
    refine Concludes.pure ⟨_, _, hsplit.symm, ?_, hc', .identifier ?_ ?_ fun d hd => head_dropWhile hd⟩
    · rw [List.takeWhile_cons_of_pos hidentifier]
      exact List.cons_ne_nil _ _
    · rw [List.takeWhile_cons_of_pos hidentifier]
      intro d hd
      cases hd
      exact Bool.eq_false_of_not_eq_true hdigit
    · exact fun d hd => List.mem_takeWhile_imp hd
  · rw [if_neg hidentifier]
    exact fail_concludes hsource hc _ _

/-! ## The whole source -/

/-- Each turn of the loop goes over a part of the rest, which the tokens and gaps from there on
continue. -/
theorem tokenizeFrom_concludes {fuel : Nat} (tokens : List Token)
    (hsource : source = before ++ rest) (hc : c.Behind before) (hfuel : rest.length < fuel) :
    Concludes (fun found _ => ∃ new, found = tokens ++ new ∧
      Lexed source isAlphanumeric before new) Reported
      (tokenizeFrom source isAlphanumeric fuel tokens) c := by
  induction fuel generalizing before rest c tokens with
  | zero => omega
  | succ fuel ih =>
      unfold tokenizeFrom
      refine Concludes.run_bind (peek_run hsource hc) ?_
      cases rest with
      | nil =>
          rw [List.append_nil] at hsource
          subst hsource
          exact Concludes.pure ⟨[], (List.append_nil _).symm, .stop⟩
      | cons ch rest =>
          refine Concludes.get_bind ?_
          refine (tokenKind_concludes hsource hc).bind fun kind c' h => ?_
          obtain ⟨text, after, hrest, hne, hc', hspans⟩ := h
          rw [hrest, ← List.append_assoc] at hsource
          have hpos := List.length_pos_iff.mpr hne
          rw [hrest, List.length_append] at hfuel
          cases kind with
          | none =>
              refine (ih tokens hsource hc' (by omega)).mono fun found _ h => ?_
              obtain ⟨new, rfl, hnew⟩ := h
              exact ⟨new, rfl, .gap hsource hspans hnew⟩
          | some kind =>
              refine Concludes.get_bind ?_
              refine (ih _ hsource hc' (by omega)).mono fun found _ h => ?_
              obtain ⟨new, rfl, hnew⟩ := h
              refine ⟨_, List.append_assoc .., .token hsource hne ?_ hspans hnew⟩
              exact ⟨hc.position, hc'.position, hc.line, hc.column, hc'.line, hc'.column⟩

end

section

variable {source before : Text} {isAlphanumeric : Char → Bool} {tokens : List Token}

theorem Lexed.forall_mem (h : Lexed source isAlphanumeric before tokens) {t : Token}
    (ht : t ∈ tokens) : ∃ between text after, source = before ++ between ++ text ++ after ∧
      text ≠ [] ∧ t.Located (before ++ between) text ∧ Spells isAlphanumeric t.kind text after := by
  induction h with
  | stop => cases ht
  | @gap before gap after tokens hsource hgap hrest ih =>
      obtain ⟨between, text, after, hsource, hne, hlocated, hspells⟩ := ih ht
      exact ⟨gap ++ between, text, after, by simpa using hsource, hne, by simpa using hlocated,
        hspells⟩
  | @token before text after u tokens hsource hne hlocated hspells hrest ih =>
      rcases List.mem_cons.mp ht with rfl | ht
      · refine ⟨[], text, after, ?_, hne, ?_, hspells⟩
        all_goals rw [List.append_nil]
        · exact hsource
        · exact hlocated
      · obtain ⟨between, text', after', hsource, hne, hlocated, hspells⟩ := ih ht
        exact ⟨text ++ between, text', after', by simpa using hsource, hne, by simpa using hlocated,
          hspells⟩

/-- A token of the source ends before the next one begins. -/
theorem Lexed.pairwise (h : Lexed source isAlphanumeric before tokens) :
    tokens.Pairwise fun t u => t.endPosition ≤ u.position := by
  induction h with
  | stop => exact List.Pairwise.nil
  | gap hsource hgap hrest ih => exact ih
  | token hsource hne hlocated hspells hrest ih =>
      refine List.pairwise_cons.mpr ⟨fun u hu => ?_, ih⟩
      obtain ⟨between, text', after', -, -, hlocated', -⟩ := hrest.forall_mem hu
      rw [hlocated.endPosition, hlocated'.position, size_append _ between]
      exact Nat.le_add_right _ _

/-- No source makes the tokenizer slice a character or go on without an end. -/
theorem tokenize_concludes (source : Text) (isAlphanumeric : Char → Bool) :
    Answer (Lexed source isAlphanumeric []) Reported (tokenize source isAlphanumeric) := by
  have hloop : Concludes (fun found _ => ∃ new, found = [] ++ new ∧
      Lexed source isAlphanumeric [] new) Reported
      (tokenizeFrom source isAlphanumeric (source.length + 1) []) Cursor.first :=
    tokenizeFrom_concludes [] rfl Cursor.behind_first (Nat.lt_succ_self _)
  unfold tokenize
  cases hrun : tokenizeFrom source isAlphanumeric (source.length + 1) [] Cursor.first with
  | ok found c =>
      obtain ⟨new, rfl, hnew⟩ := hloop.of_ok hrun
      exact hnew
  | error e c => exact hloop.of_error hrun

/-- The tokens of an accepted source and the gaps between them make up the source; the tokens
come one behind the other, and each has the place and the value of its text. -/
theorem tokenize_exact (source : Text) (isAlphanumeric : Char → Bool) (tokens : List Token)
    (h : tokenize source isAlphanumeric = .ok tokens) :
    Lexed source isAlphanumeric [] tokens ∧
      tokens.Pairwise (fun t u => t.endPosition ≤ u.position) ∧
      ∀ t ∈ tokens, t.position < t.endPosition ∧ t.endPosition ≤ size source ∧
        ∃ before text after, source = before ++ text ++ after ∧ t.Located before text ∧
          Spells isAlphanumeric t.kind text after := by
  have hlexed : Lexed source isAlphanumeric [] tokens := (tokenize_concludes _ _).of_ok h
  refine ⟨hlexed, hlexed.pairwise, fun t ht => ?_⟩
  obtain ⟨before, text, after, hsource, hne, hlocated, hspells⟩ := hlexed.forall_mem ht
  rw [List.nil_append] at hsource hlocated
  have hsize := length_le_size text
  have hpos := List.length_pos_iff.mpr hne
  refine ⟨?_, ?_, before, text, after, hsource, hlocated, hspells⟩
  · rw [hlocated.position, hlocated.endPosition, size_append]
    omega
  · rw [hlocated.endPosition, hsource, size_append _ after]
    exact Nat.le_add_right _ _

/-- A comment, a line end of two characters, a string over two lines and a number. -/
theorem tokenize_exact_lines :
    let source := "mov ; é\r\n\"é\r\n\\x41\", 0x1F".toList
    let tokens : List Token := [
      { kind := .identifier "mov", position := 0, endPosition := 3
        line := 1, column := 1, endLine := 1, endColumn := 4 },
      { kind := .newline, position := 8, endPosition := 10
        line := 1, column := 8, endLine := 2, endColumn := 1 },
      { kind := .stringLiteral [0xc3, 0xa9, 0x0d, 0x0a, 0x41], position := 10, endPosition := 20
        line := 2, column := 1, endLine := 3, endColumn := 6 },
      { kind := .comma, position := 20, endPosition := 21
        line := 3, column := 6, endLine := 3, endColumn := 7 },
      { kind := .number 31, position := 22, endPosition := 26
        line := 3, column := 8, endLine := 3, endColumn := 12 }]
    tokenize source Char.isAlphanum = .ok tokens ∧
      tokens.Pairwise (fun t u => t.endPosition ≤ u.position) := by
  intro source tokens
  have h : tokenize source Char.isAlphanum = .ok tokens := by decide +kernel
  exact ⟨h, (tokenize_exact source Char.isAlphanum tokens h).2.1⟩

end

end Whale.Assembler.Amd64
