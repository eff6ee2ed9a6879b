import Mathlib.Data.Char
import Mathlib.Data.List.Infix
import Whale.Lib.Except
import Whale.Lib.Scan
import Whale.Lib.SortedMap

set_option autoImplicit false

/-! # The artifacts of a backend

What a backend emits is accepted when its paths are portable and can all be files of one tree:
no path is another one or the directory of another one. Letters count without their case. -/

namespace Whale.Backend

open Whale.Text

structure Artifact where
  name : Text
  bytes : List UInt8
  deriving DecidableEq

structure SourceLocation where
  source : Text
  line : UInt64
  column : UInt64
  endLine : Option UInt64
  endColumn : Option UInt64
  startByte : Option UInt64
  endByte : Option UInt64
  deriving DecidableEq

inductive Context where
  | source (location : SourceLocation)
  | object (name : Text) (member : Option Text)
  | input (index : Nat)
  | «section» (index : Nat) (name : Option Text)
  | fileOffset (offset : UInt64)
  | sectionOffset (offset : UInt64)
  | symbol (name : Text)
  | function (id : UInt32)
  | block (id : UInt32)
  | «instruction» (index : Nat)
  | originalNode (id : UInt64)
  deriving DecidableEq

/-- A piece of a message: a text, or a path in quotes with its escapes. -/
inductive Piece where
  | text (t : String)
  | quoted (name : Text)
  deriving DecidableEq

structure Diagnostic where
  component : String
  stage : String
  code : String
  message : List Piece
  contexts : List Context
  deriving DecidableEq

def artifactError (message : List Piece) : Diagnostic where
  component := "backend"
  stage := "emit"
  code := "backend.artifact"
  message := message
  contexts := []

/-! ## Paths -/

/-- The general category `Cc`. -/
def isControl (c : Char) : Bool := c.toNat < 0x20 || (0x7f ≤ c.toNat && c.toNat < 0xa0)

/-- The names of devices without a number. -/
def deviceNames : List String := ["CON", "PRN", "AUX", "NUL", "CONIN$", "CONOUT$"]

def deviceNumbers : List String := ["1", "2", "3", "4", "5", "6", "7", "8", "9", "¹", "²", "³"]

/-- Windows also ignores spaces before the extension when recognizing devices. -/
def basename (part : Text) : Text := (part.takeWhile (· ≠ '.')).rdropWhile (· = ' ')

/-- A name of three letters is three bytes, so that three bytes that are one end at a
character. -/
def isDevice (name : Text) : Bool :=
  deviceNames.any (fun device => lower name = lower device.toList) ||
    ((lower (name.take 3) = "com".toList || lower (name.take 3) = "lpt".toList) &&
      deviceNumbers.any fun number => name.drop 3 = number.toList)

def portableComponent (part : Text) : Bool :=
  if part = [] ∨ part = ['.'] ∨ part = ['.', '.'] ∨ part.getLast? = some '.' ∨
      part.getLast? = some ' ' ∨
      part.any (fun c => isControl c || c ∈ ['\\', ':', '<', '>', '"', '|', '?', '*']) = true
  then false
  else !isDevice (basename part)

/-- The text before each slash. -/
def ancestors (name : Text) : List Text :=
  ((List.range name.length).filter fun i => name[i]? = some '/').map name.take

/-! ## Checking -/

/-- The names so far, by their texts in lower case. -/
abbrev Names := SortedMap Text Text

/-- The name of an artifact that is the folded one, a directory of it, or in it as in a
directory. Prefixes end at a component boundary: `out` and `out2/a.o` are independent files. -/
def conflicting (names : Names) (folded : Text) : Option Text :=
  let ancestor := (ancestors folded).findSome? names.get
  let start := folded ++ ['/']
  let descendant := ((names.firstFrom start).filter fun e => start.isPrefixOf e.1).map Prod.snd
  (names.get folded).or (ancestor.or descendant)

def register (names : Names) (artifact : Artifact) : Except (List Diagnostic) Names := do
  require ((artifact.name.splitOn '/').all portableComponent = true)
    [artifactError [.text "invalid artifact path ", .quoted artifact.name]]
  let folded := lower artifact.name
  match conflicting names folded with
  | some other =>
      throw [artifactError [.text "artifact path ", .quoted artifact.name,
        .text " conflicts with ", .quoted other]]
  | none => return names.insert folded artifact.name

/-- What `check` finds goes to `emit`, and what that emits is checked. -/
def compile {Checked : Type} (check : Except (List Diagnostic) Checked)
    (emit : Checked → Except (List Diagnostic) (List Artifact)) :
    Except (List Diagnostic) (List Artifact) := do
  let checked ← check
  let artifacts ← emit checked
  require (artifacts ≠ []) [artifactError [.text "backend emitted no artifacts"]]
  let _ ← artifacts.foldlM register SortedMap.empty
  return artifacts

/-! ## Paths as lists of components -/

/-- The components of a path in lower case. -/
def components (name : Text) : List Text := (lower name).splitOn '/'

/-- `name` is a directory that `other` is in. -/
def IsDirectoryOf (name other : Text) : Prop :=
  ∃ part rest, components other = components name ++ part :: rest

/-- Two names that cannot both be files of one tree. -/
def Conflict (name other : Text) : Prop :=
  components name = components other ∨ IsDirectoryOf name other ∨ IsDirectoryOf other name

/-- A set of files for one tree. -/
structure Acceptable (artifacts : List Artifact) : Prop where
  nonempty : artifacts ≠ []
  portable : ∀ artifact ∈ artifacts, ∀ part ∈ artifact.name.splitOn '/',
    portableComponent part = true
  apart : artifacts.Pairwise fun a b => ¬ Conflict a.name b.name

variable {name other : Text}

theorem Conflict.symm (h : Conflict name other) : Conflict other name := by
  rcases h with h | h | h
  · exact .inl h.symm
  · exact .inr (.inr h)
  · exact .inr (.inl h)

/-- The order of the artifacts does not matter. -/
theorem Acceptable.perm {artifacts artifacts' : List Artifact} (hperm : artifacts.Perm artifacts')
    (h : Acceptable artifacts) : Acceptable artifacts' where
  nonempty := fun hnil => h.nonempty (List.perm_nil.mp (hnil ▸ hperm))
  portable := fun artifact hmem => h.portable artifact (hperm.mem_iff.mpr hmem)
  apart := (hperm.pairwise_iff fun hab hba => hab hba.symm).mp h.apart

/-! ## Components and prefixes -/

theorem intercalate_append {slash : Text} {parts parts' : List Text} (hparts : parts ≠ [])
    (hparts' : parts' ≠ []) : slash.intercalate (parts ++ parts') =
      slash.intercalate parts ++ slash ++ slash.intercalate parts' := by
  induction parts with
  | nil => exact absurd rfl hparts
  | cons part parts ih =>
      cases parts with
      | nil =>
          rw [List.singleton_append, List.intercalate_singleton,
            List.intercalate_cons_of_ne_nil hparts']
      | cons part' parts =>
          rw [List.cons_append, List.intercalate_cons_of_ne_nil (by simp),
            ih (List.cons_ne_nil _ _), List.intercalate_cons_of_ne_nil (List.cons_ne_nil _ _)]
          simp only [List.append_assoc]

/-- More components are a text behind a slash. -/
theorem splitOn_eq_append_iff :
    (∃ part rest, other.splitOn '/' = name.splitOn '/' ++ part :: rest) ↔
      (name ++ ['/']) <+: other := by
  constructor
  · rintro ⟨part, rest, h⟩
    refine ⟨['/'].intercalate (part :: rest), ?_⟩
    have hother : ['/'].intercalate (other.splitOn '/') = other := List.intercalate_splitOn _
    rw [← hother, h,
      intercalate_append (List.splitOn_ne_nil _ _) (List.cons_ne_nil _ _),
      List.intercalate_splitOn]
  · rintro ⟨rest, rfl⟩
    obtain ⟨part, parts, hrest⟩ := List.exists_cons_of_ne_nil (List.splitOn_ne_nil '/' rest)
    refine ⟨part, parts, ?_⟩
    rw [List.append_assoc, List.singleton_append, List.splitOn_append_cons_self, hrest]

theorem splitOn_inj : name.splitOn '/' = other.splitOn '/' ↔ name = other := by
  refine ⟨fun h => ?_, fun h => h ▸ rfl⟩
  have hname : ['/'].intercalate (name.splitOn '/') = name := List.intercalate_splitOn _
  rw [← hname, h, List.intercalate_splitOn]

/-- The conflict of two names on their texts in lower case. -/
theorem conflict_iff : Conflict name other ↔
    lower name = lower other ∨ (lower name ++ ['/']) <+: lower other ∨
      (lower other ++ ['/']) <+: lower name := by
  unfold Conflict IsDirectoryOf components
  rw [splitOn_inj, splitOn_eq_append_iff, splitOn_eq_append_iff]

/-- A name that another one only begins with, without a slash behind it, is no directory. -/
theorem not_conflict_of_text_continues {name other rest : Text} {c : Char} (hc : c ≠ '/')
    (h : lower other = lower name ++ c :: rest) : ¬ Conflict name other := by
  rw [conflict_iff, h]
  rintro (heq | ⟨rest', heq⟩ | hprefix)
  · simpa using congrArg List.length heq
  · rw [List.append_assoc, List.append_cancel_left_eq] at heq
    exact hc (List.cons.inj heq).1.symm
  · have hlength := hprefix.length_le
    simp only [List.length_append, List.length_cons, List.length_nil] at hlength
    omega

/-! ## One artifact -/

theorem mem_ancestors {name folded : Text} :
    name ∈ ancestors folded ↔ (name ++ ['/']) <+: folded := by
  unfold ancestors
  simp only [List.mem_map, List.mem_filter, List.mem_range, decide_eq_true_eq]
  constructor
  · rintro ⟨i, ⟨hi, hslash⟩, rfl⟩
    refine ⟨folded.drop (i + 1), ?_⟩
    obtain ⟨_, hslash⟩ := List.getElem?_eq_some_iff.mp hslash
    rw [List.append_assoc, List.singleton_append, ← hslash, List.getElem_cons_drop,
      List.take_append_drop]
  · rintro ⟨rest, rfl⟩
    refine ⟨name.length, ⟨?_, ?_⟩, ?_⟩
    · simp
    · simp
    · simp

variable {names : Names}

theorem findSome?_eq_none_iff_keys {folded : List Text} :
    folded.findSome? names.get = none ↔ ∀ name ∈ folded, name ∉ names.keys := by
  rw [List.findSome?_eq_none_iff]
  refine forall₂_congr fun name _ => ?_
  rw [← Option.not_isSome_iff_eq_none, SortedMap.get_isSome_iff]

/-- The query for the first name from `start` on finds every name that starts so. -/
theorem descendant_eq_none_iff {start : Text} :
    ((names.firstFrom start).filter fun e => start.isPrefixOf e.1).map Prod.snd = none ↔
      ∀ name ∈ names.keys, ¬ start <+: name := by
  rw [Option.map_eq_none_iff, ← Option.not_isSome_iff_eq_none, Option.isSome_iff_exists]
  have hfirst := SortedMap.firstFrom_prefix_iff names start
  simp only [Option.filter_eq_some_iff, List.isPrefixOf_iff_prefix]
  rw [hfirst]
  exact not_exists.trans (forall_congr' fun name => not_and)

/-- The names are those of the artifacts so far. -/
def NamesOf (names : Names) (earlier : List Artifact) : Prop :=
  ∀ key, key ∈ names.keys ↔ ∃ artifact ∈ earlier, lower artifact.name = key

theorem namesOf_empty : NamesOf SortedMap.empty [] := by
  intro key
  simp

variable {earlier : List Artifact}

/-- The queries see every conflict with an artifact so far. -/
theorem conflicting_eq_none_iff (hnames : NamesOf names earlier) :
    conflicting names (lower name) = none ↔
      ∀ artifact ∈ earlier, ¬ Conflict artifact.name name := by
  unfold conflicting
  rw [Option.or_eq_none_iff, Option.or_eq_none_iff, findSome?_eq_none_iff_keys,
    descendant_eq_none_iff, ← Option.not_isSome_iff_eq_none, SortedMap.get_isSome_iff]
  simp only [mem_ancestors]
  constructor
  · rintro ⟨hsame, habove, hbelow⟩ artifact hmem hconflict
    have hkey : lower artifact.name ∈ names.keys := (hnames _).mpr ⟨artifact, hmem, rfl⟩
    rcases conflict_iff.mp hconflict with h | h | h
    · exact hsame (h ▸ hkey)
    · exact habove _ h hkey
    · exact hbelow _ hkey h
  · intro hapart
    refine ⟨fun hkey => ?_, fun key h hkey => ?_, fun key hkey h => ?_⟩
    all_goals
      obtain ⟨artifact, hmem, heq⟩ := (hnames _).mp hkey
      refine hapart artifact hmem (conflict_iff.mpr ?_)
    · exact .inl heq
    · exact .inr (.inl (heq ▸ h))
    · exact .inr (.inr (heq ▸ h))

/-- What one step can do: a portable name that is apart from all names so far is entered. -/
theorem register_ok_iff {names names' : Names} (hnames : NamesOf names earlier)
    {artifact : Artifact} :
    register names artifact = .ok names' ↔
      (∀ part ∈ artifact.name.splitOn '/', portableComponent part = true) ∧
        (∀ other ∈ earlier, ¬ Conflict other.name artifact.name) ∧
          names' = names.insert (lower artifact.name) artifact.name := by
  unfold register
  rw [require_then_ok_iff, List.all_eq_true, ← conflicting_eq_none_iff hnames]
  refine and_congr_right fun _ => ?_
  simp only
  cases conflicting names (lower artifact.name) with
  | some other => exact ⟨fun h => (nomatch h), fun h => nomatch h.1⟩
  | none =>
      constructor
      · intro h
        cases h
        exact ⟨rfl, rfl⟩
      · rintro ⟨-, rfl⟩
        rfl

theorem NamesOf.insert (hnames : NamesOf names earlier) (artifact : Artifact) :
    NamesOf (names.insert (lower artifact.name) artifact.name) (earlier ++ [artifact]) := by
  intro key
  rw [SortedMap.mem_keys_insert, hnames]
  constructor
  · rintro (rfl | ⟨other, hmem, h⟩)
    · exact ⟨artifact, by simp, rfl⟩
    · exact ⟨other, List.mem_append_left _ hmem, h⟩
  · rintro ⟨other, hmem, h⟩
    rcases List.mem_append.mp hmem with hmem | hmem
    · exact .inr ⟨other, hmem, h⟩
    · rw [List.mem_singleton] at hmem
      exact .inl (hmem ▸ h.symm)

/-! ## All artifacts -/

/-- The loop goes through when all names are portable, and each is apart from those before. -/
theorem foldlM_register_ok_iff (artifacts : List Artifact) (hnames : NamesOf names earlier) :
    (∃ names', artifacts.foldlM register names = .ok names') ↔
      (∀ artifact ∈ artifacts, ∀ part ∈ artifact.name.splitOn '/',
          portableComponent part = true) ∧
        (∀ other ∈ earlier, ∀ artifact ∈ artifacts, ¬ Conflict other.name artifact.name) ∧
          artifacts.Pairwise fun a b => ¬ Conflict a.name b.name := by
  induction artifacts generalizing names earlier with
  | nil => exact ⟨fun _ => ⟨nofun, fun _ _ => nofun, .nil⟩, fun _ => ⟨names, rfl⟩⟩
  | cons artifact artifacts ih =>
      simp only [foldlM_cons_ok, register_ok_iff hnames, List.forall_mem_cons,
        List.pairwise_cons]
      have hrest := ih (hnames.insert artifact)
      simp only [List.forall_mem_append, List.forall_mem_singleton] at hrest
      constructor
      · rintro ⟨names', _, ⟨hportable, hapart, rfl⟩, hok⟩
        obtain ⟨hportable', ⟨hearlier, hfirst⟩, hpairwise⟩ := hrest.mp ⟨names', hok⟩
        exact ⟨⟨hportable, hportable'⟩, fun other h => ⟨hapart other h, hearlier other h⟩, hfirst,
          hpairwise⟩
      · rintro ⟨⟨hportable, hportable'⟩, hearlier, hfirst, hpairwise⟩
        obtain ⟨names', hok⟩ := hrest.mpr
          ⟨hportable', ⟨fun other h => (hearlier other h).2, hfirst⟩, hpairwise⟩
        exact ⟨names', _, ⟨hportable, fun other h => (hearlier other h).1, rfl⟩, hok⟩

theorem compile_ok_iff {Checked : Type} {check : Except (List Diagnostic) Checked}
    {emit : Checked → Except (List Diagnostic) (List Artifact)} {artifacts : List Artifact} :
    compile check emit = .ok artifacts ↔
      ∃ checked, check = .ok checked ∧ emit checked = .ok artifacts ∧ Acceptable artifacts := by
  unfold compile
  rw [bind_ok_iff]
  refine exists_congr fun checked => and_congr_right fun _ => ?_
  have hloop := foldlM_register_ok_iff artifacts namesOf_empty
  constructor
  · intro h
    obtain ⟨emitted, hemit, h⟩ := bind_ok_iff.mp h
    obtain ⟨hne, h⟩ := require_then_ok_iff.mp h
    obtain ⟨names, hnames, h⟩ := bind_ok_iff.mp h
    cases h
    obtain ⟨hportable, -, hapart⟩ := hloop.mp ⟨names, hnames⟩
    exact ⟨hemit, hne, hportable, hapart⟩
  · rintro ⟨hemit, hne, hportable, hapart⟩
    obtain ⟨names, hnames⟩ := hloop.mpr ⟨hportable, nofun, hapart⟩
    rw [hemit, ok_bind, require_of hne, ok_bind, hnames]
    rfl

/-- A set of artifacts is accepted exactly when it is a set of files for one tree, in whatever
order they are emitted; and a name that another one merely begins with is no obstacle. -/
theorem compile_accepts_exactly {Checked : Type} (check : Except (List Diagnostic) Checked)
    (emit : Checked → Except (List Diagnostic) (List Artifact)) (artifacts : List Artifact) :
    (compile check emit = .ok artifacts ↔
        ∃ checked, check = .ok checked ∧ emit checked = .ok artifacts ∧ Acceptable artifacts) ∧
      (∀ artifacts', artifacts.Perm artifacts' →
        (compile check (fun _ => .ok artifacts) = .ok artifacts ↔
          compile check (fun _ => .ok artifacts') = .ok artifacts')) ∧
      ∀ (name other rest : Text) (c : Char), c ≠ '/' → lower other = lower name ++ c :: rest →
        ¬ Conflict name other := by
  refine ⟨compile_ok_iff, fun artifacts' hperm => ?_, fun name other rest c hc h => ?_⟩
  · simp only [compile_ok_iff, true_and]
    refine exists_congr fun checked => and_congr_right fun _ => ?_
    exact ⟨Acceptable.perm hperm, Acceptable.perm hperm.symm⟩
  · exact not_conflict_of_text_continues hc h

end Whale.Backend
