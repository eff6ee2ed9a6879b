import Whale.Frontend.Limits
import Whale.Frontend.Wire

set_option autoImplicit false

/-! # The JSON boundary of the frontend

`encode` inspects a program, wraps it into the current envelope and writes it as indented
JSON within an output budget. `decode` reads the text back: byte limit, JSON with unique
keys, envelope, versions, features, and the same inspection.

Two things stand outside the repository and are the fields of `SerdeJson`: the JSON text
reader and the derived deserialization. What is used of them is `SerdeJson.Reads`: on the
text of a document they return it, unless the document is nested more deeply than the
reader allows.

The encoder bounds the depth of the AST, the reader the nesting of the document.
`decode_encode_iff` says when the first bound meets the second, and `deepProgram_unreadable`
that it does not always: a structure type costs four JSON levels for one level of the AST. -/

namespace Whale.Frontend

def astFormatVersion : Nat := 5

def semanticsVersion : Nat := 1

def defaultMaxInputBytes : Nat := 8 * 1024 * 1024

structure Envelope where
  formatVersion : Nat
  semanticsVersion : Nat
  features : List String
  program : Program

/-- The envelope `encode` writes around a program. -/
def Envelope.current (program : Program) : Envelope where
  formatVersion := astFormatVersion
  semanticsVersion := Frontend.semanticsVersion
  features := []
  program := program

def Envelope.toJson (e : Envelope) : Json :=
  .obj [("format_version", .num e.formatVersion), ("semantics_version", .num e.semanticsVersion),
    ("features", .arr (e.features.map .str)), ("program", e.program.toJson)]

/-- The library behind the boundary: the reader of JSON text, the derived deserialization,
and the texts it gives to errors and to debug renderings. -/
structure SerdeJson where
  /-- Read a document, keeping every member in document order. -/
  fromStr : String → Except String Json
  /-- The derived deserialization of the envelope. -/
  fromValue : Json → Except String Envelope
  /-- The text of an error raised by the visitor while reading. -/
  custom : String → String
  /-- The debug rendering of a string. -/
  debug : String → String
  /-- The debug rendering of a list of strings. -/
  debugList : List String → String

/-- Decimal text of a version number. -/
def versionText (n : Nat) : String := toString n

def encodeWithLimits (program : Program) (limits : AstLimits) : Except String String :=
  match inspectProgramWire program limits with
  | .error e => .error e
  | .ok _ =>
      let text := (Envelope.current program).toJson.pretty
      if text.utf8ByteSize ≤ limits.maxOutputBytes then .ok text
      else .error AstLimitError.output.message

def encode (program : Program) : Except String String :=
  encodeWithLimits program AstLimits.default

namespace SerdeJson

/-- The visitor that refuses a document with a repeated key. -/
def uniqueValue (lib : SerdeJson) (j : Json) : Except String Json :=
  match j.firstDuplicate with
  | some key => .error (lib.custom ("duplicate JSON key " ++ lib.debug key))
  | none => .ok j

/-- The checks `decode` makes on an envelope. -/
def checkEnvelope (lib : SerdeJson) (envelope : Envelope) : Except String Program :=
  if envelope.formatVersion < 2 ∨ envelope.formatVersion > astFormatVersion then
    .error ("unsupported AST format_version " ++ versionText envelope.formatVersion ++
      "; expected " ++ versionText astFormatVersion)
  else if envelope.semanticsVersion ≠ Frontend.semanticsVersion then
    .error ("unsupported semantics_version " ++ versionText envelope.semanticsVersion ++
      "; expected " ++ versionText Frontend.semanticsVersion)
  else if envelope.features ≠ [] then
    .error ("unsupported AST features: " ++ lib.debugList envelope.features ++
      "; supported feature list is empty")
  else
    match inspectProgramWire envelope.program AstLimits.default with
    | .error e => .error e
    | .ok extended =>
        if envelope.formatVersion < 3 ∧ extended.extendedOperators then
          .error "extended frontend operators require AST format 3"
        else if envelope.formatVersion < 4 ∧ extended.annotated then
          .error "source annotations require AST format 4"
        else if envelope.formatVersion < 5 ∧ extended.newExpressions then
          .error "new frontend expressions require AST format 5"
        else .ok envelope.program

def decodeWithLimit (lib : SerdeJson) (source : String) (maxBytes : Nat) :
    Except String Program :=
  if source.utf8ByteSize > maxBytes then .error "AST JSON exceeds input byte limit"
  else
    match lib.fromStr source >>= lib.uniqueValue with
    | .error e => .error e
    | .ok value =>
        match lib.fromValue value with
        | .error e =>
            .error ("AST envelope/schema error: " ++ e ++ "; expected format_version " ++
              versionText astFormatVersion ++ ", semantics_version " ++
              versionText Frontend.semanticsVersion ++ ", features [], program")
        | .ok envelope => lib.checkEnvelope envelope

def decode (lib : SerdeJson) (source : String) : Except String Program :=
  lib.decodeWithLimit source defaultMaxInputBytes

/-- The library reads back the text of the document of `e`, unless the document is nested
more deeply than `maxNesting`; the derived deserialization inverts the serialization. -/
structure Reads (lib : SerdeJson) (maxNesting : Nat) (e : Envelope) : Prop where
  shallow : e.toJson.nesting ≤ maxNesting → lib.fromStr e.toJson.pretty = .ok e.toJson
  deep : maxNesting < e.toJson.nesting → ∃ err, lib.fromStr e.toJson.pretty = .error err
  fromValue : lib.fromValue e.toJson = .ok e

end SerdeJson

/-- JSON levels of the document `encode` writes. -/
def Program.documentLevels (p : Program) : Nat := 1 + p.levels

/-- The document of the current envelope is nested as deeply as counted on the AST. -/
theorem nesting_current (p : Program) :
    (Envelope.current p).toJson.nesting = p.documentLevels := by
  have hlevels : 2 ≤ p.levels := by
    unfold Program.levels
    omega
  simp only [Envelope.toJson, Envelope.current, Program.documentLevels, List.map_nil,
    Json.nesting_obj, Json.nesting_arr, Json.nestingMembers_cons, Json.nestingMembers_nil,
    Json.nestingList_nil, Json.nesting_num, p.nesting_toJson]
  omega

theorem firstDuplicate_current (p : Program) :
    (Envelope.current p).toJson.firstDuplicate = none := by
  simp [Envelope.toJson, Envelope.current, p.firstDuplicate_toJson]

theorem encode_eq_ok {p : Program} {s : String} (h : encode p = .ok s) :
    (∃ f, inspectProgramWire p AstLimits.default = .ok f) ∧
      s = (Envelope.current p).toJson.pretty ∧ s.utf8ByteSize ≤ defaultMaxInputBytes := by
  simp only [encode, encodeWithLimits] at h
  split at h
  · cases h
  · rename_i f hf
    split at h
    · rename_i hsize
      cases h
      exact ⟨⟨f, hf⟩, rfl, hsize⟩
    · cases h

/-- A program that passes inspection and whose document fits the output budget is encoded. -/
theorem encode_of_size {p : Program} {f : Features}
    (hf : inspectProgramWire p AstLimits.default = .ok f)
    (hsize : (Envelope.current p).toJson.prettySizeAt 0 ≤ defaultMaxInputBytes) :
    encode p = .ok (Envelope.current p).toJson.pretty := by
  rw [← Json.size_pretty] at hsize
  simp only [encode, encodeWithLimits, hf]
  exact if_pos hsize

/-- The current envelope of an inspected program passes every check of `decode`. -/
theorem checkEnvelope_current (lib : SerdeJson) {p : Program} {f : Features}
    (h : inspectProgramWire p AstLimits.default = .ok f) :
    lib.checkEnvelope (Envelope.current p) = .ok p := by
  simp [SerdeJson.checkEnvelope, Envelope.current, astFormatVersion, h]

/-- **When the round trip holds.** A text that `encode` wrote decodes to the program it was
written for exactly when the JSON levels of the program, counted on the AST, stay within
what the reader accepts. -/
theorem decode_encode_iff (lib : SerdeJson) (maxNesting : Nat) (p : Program) (s : String)
    (hlib : lib.Reads maxNesting (Envelope.current p)) (h : encode p = .ok s) :
    lib.decode s = .ok p ↔ p.documentLevels ≤ maxNesting := by
  obtain ⟨⟨f, hf⟩, rfl, hsize⟩ := encode_eq_ok h
  have hin : ¬ (Envelope.current p).toJson.pretty.utf8ByteSize > defaultMaxInputBytes := by
    omega
  rw [SerdeJson.decode, SerdeJson.decodeWithLimit, if_neg hin]
  constructor
  · intro hd
    by_contra hdeep
    obtain ⟨err, herr⟩ := hlib.deep (by rw [nesting_current]; omega)
    simp [herr] at hd
  · intro hle
    have hread := hlib.shallow (by rw [nesting_current]; exact hle)
    simp [hread, SerdeJson.uniqueValue, firstDuplicate_current, hlib.fromValue,
      checkEnvelope_current lib hf]

/-- The program whose only function `main` returns at once. -/
def mainProgram : Program where
  declarations := []
  globals := []
  functions := [{
    convention := .whale
    linkage := .internal
    linkName := none
    name := "main"
    parameters := []
    returnType := .void
    body := [.return none] }]

/-- A library that knows the document of `mainProgram` and nothing else. -/
def mainSerde : SerdeJson where
  fromStr s :=
    if s = (Envelope.current mainProgram).toJson.pretty then
      .ok (Envelope.current mainProgram).toJson
    else .error "expected value at line 1 column 1"
  fromValue _ := .ok (Envelope.current mainProgram)
  custom e := e
  debug s := s
  debugList := String.join

theorem mainProgram_checked :
    inspectProgramWire mainProgram AstLimits.default = .ok ⟨false, false, false⟩ ∧
      (Envelope.current mainProgram).toJson.prettySizeAt 0 ≤ defaultMaxInputBytes ∧
      ¬ 127 < (Envelope.current mainProgram).toJson.nesting := by
  decide +kernel

theorem mainProgram_encoded :
    encode mainProgram = .ok (Envelope.current mainProgram).toJson.pretty :=
  encode_of_size mainProgram_checked.1 mainProgram_checked.2.1

theorem mainSerde_reads : mainSerde.Reads 127 (Envelope.current mainProgram) where
  shallow _ := by simp [mainSerde]
  deep h := absurd h mainProgram_checked.2.2
  fromValue := rfl

theorem decode_encode_mainProgram :
    mainSerde.decode (Envelope.current mainProgram).toJson.pretty = .ok mainProgram ↔
      mainProgram.documentLevels ≤ 127 :=
  decode_encode_iff mainSerde 127 mainProgram _ mainSerde_reads mainProgram_encoded

/-! ## A program the encoder accepts and the reader refuses -/

/-- `depth` structures around an `i32`, each with the one field `f`. -/
def nestedStruct : Nat → TypeRef
  | 0 => .int 32 true
  | depth + 1 => .struct [.mk "f" (nestedStruct depth)]

/-- A function `main` that declares a local of thirty nested structures and returns. -/
def deepProgram : Program where
  declarations := []
  globals := []
  functions := [{
    convention := .whale
    linkage := .internal
    linkName := none
    name := "main"
    parameters := []
    returnType := .void
    body := [.varDecl "x" (nestedStruct 30) none, .return none] }]

theorem deepProgram_checked :
    inspectProgramWire deepProgram AstLimits.default = .ok ⟨false, false, true⟩ ∧
      (Envelope.current deepProgram).toJson.prettySizeAt 0 ≤ defaultMaxInputBytes ∧
      deepProgram.documentLevels = 129 := by
  decide +kernel

/-- **The depth limit is not strict enough.** `deepProgram` is encoded, and no reader that
refuses documents nested more than `128` levels deep decodes the text. -/
theorem deepProgram_unreadable :
    ∃ s, encode deepProgram = .ok s ∧
      ∀ (lib : SerdeJson) (maxNesting : Nat), maxNesting ≤ 128 →
        lib.Reads maxNesting (Envelope.current deepProgram) →
        lib.decode s ≠ .ok deepProgram := by
  refine ⟨(Envelope.current deepProgram).toJson.pretty, ?_, ?_⟩
  · exact encode_of_size deepProgram_checked.1 deepProgram_checked.2.1
  · intro lib maxNesting hmax hlib
    obtain ⟨err, herr⟩ := hlib.deep (by rw [nesting_current, deepProgram_checked.2.2]; omega)
    rw [SerdeJson.decode, SerdeJson.decodeWithLimit]
    split
    · exact fun h => by cases h
    · simp [herr]

end Whale.Frontend
