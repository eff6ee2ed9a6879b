import Whale.Frontend.Ast
import Whale.Lib.Except

set_option autoImplicit false

/-! # Resource inspection of frontend ASTs

The iterative inspection every frontend tree passes before it is serialized, lowered or
cloned: it bounds depth, nodes and string bytes, checks source annotations, and reports
which versioned features the tree uses and whether its numbers are spelled as the wire
schema wants them.

The source walks the tree with an explicit stack of pending nodes. Every push counts a
node, and at most `maxNodes` nodes may be counted, so `maxNodes` rounds empty the stack
(`drain_stable`). -/

namespace Whale.Frontend

/-- Recursive lowering and serialization work stays below this depth. -/
def maxAstDepth : Nat := 32

structure AstLimits where
  maxDepth : Nat
  maxNodes : Nat
  maxStringBytes : Nat
  maxOutputBytes : Nat
  maxSourceWork : Nat

def AstLimits.default : AstLimits where
  maxDepth := maxAstDepth
  maxNodes := 100000
  maxStringBytes := 8 * 1024 * 1024
  maxOutputBytes := 8 * 1024 * 1024
  maxSourceWork := 16 * 1024 * 1024

inductive AstLimitError where
  | source
  | sourceWork
  | expansion
  | depth
  | nodes
  | strings
  | output
  deriving DecidableEq

/-- The text of a limit error. -/
def AstLimitError.message : AstLimitError → String
  | .source => "invalid source annotation or duplicate original node identity"
  | .expansion => "AST storage expansion limit exceeded"
  | .sourceWork => "AST source mapping work limit exceeded"
  | .depth => "AST nesting limit exceeded"
  | .nodes => "AST node limit exceeded"
  | .strings => "AST string byte limit exceeded"
  | .output => "AST JSON exceeds output byte limit"

/-- The pending work of the inspection. -/
inductive Node where
  | expr (e : Expr)
  | stmt (s : Stmt)
  | type (t : TypeRef)
  | signature (s : SignatureRef)

/-- The features of the versioned formats that a tree uses. The source keeps them as the
bits `1`, `2` and `4` of one byte. -/
structure Features where
  extendedOperators : Bool
  annotated : Bool
  newExpressions : Bool
  deriving DecidableEq

structure Inspect where
  limits : AstLimits
  nodes : Nat
  strings : Nat
  pending : List (Node × Nat)
  extendedOps : Features
  sourceIds : List UInt64
  wireNumbers : Bool

namespace Inspect

/-- The inspection before anything was seen. -/
def start (limits : AstLimits) : Inspect where
  limits := limits
  nodes := 0
  strings := 0
  pending := []
  extendedOps := ⟨false, false, false⟩
  sourceIds := []
  wireNumbers := true

/-- Record the use of an operator of format 3. -/
def markOperator (i : Inspect) : Inspect :=
  { i with extendedOps := { i.extendedOps with extendedOperators := true } }

/-- Record the use of a source annotation. -/
def markAnnotated (i : Inspect) : Inspect :=
  { i with extendedOps := { i.extendedOps with annotated := true } }

/-- Record the use of an expression or type of format 5. -/
def markExpression (i : Inspect) : Inspect :=
  { i with extendedOps := { i.extendedOps with newExpressions := true } }

/-- `wire_numbers &= ok`. -/
def wire (i : Inspect) (ok : Bool) : Inspect := { i with wireNumbers := i.wireNumbers && ok }

def count (i : Inspect) : Except AstLimitError Inspect :=
  match checkedAdd i.nodes 1 with
  | none => .error .nodes
  | some n => if n > i.limits.maxNodes then .error .nodes else .ok { i with nodes := n }

def string (i : Inspect) (s : String) : Except AstLimitError Inspect :=
  match checkedAdd i.strings s.utf8ByteSize with
  | none => .error .strings
  | some n =>
      if n > i.limits.maxStringBytes then .error .strings else .ok { i with strings := n }

/-- `string` on an optional string. -/
def stringOpt (i : Inspect) : Option String → Except AstLimitError Inspect
  | none => .ok i
  | some s => i.string s

/-- A source position that `source` refuses. -/
def badSource (s : FrontendSource) : Bool :=
  s.file.isEmpty || s.file.toList.contains '\x00' || s.line == 0 || s.column == 0 ||
    s.endLine == 0 || s.endColumn == 0 ||
    decide (s.endLine < s.line ∨ (s.line = s.endLine ∧ s.endColumn < s.column))

def source (i : Inspect) (note : SourceAnnotation) : Except AstLimitError Inspect :=
  if note.id ∈ i.sourceIds then .error .source
  else
    let i := { i with sourceIds := note.id :: i.sourceIds }.markAnnotated
    match note.source with
    | none => .ok i
    | some s =>
        match i.string s.file with
        | .error e => .error e
        | .ok i => if badSource s then .error .source else .ok i

def push (i : Inspect) (node : Node) (depth : Nat) : Except AstLimitError Inspect :=
  if depth > min i.limits.maxDepth maxAstDepth then .error .depth
  else
    match i.count with
    | .error e => .error e
    | .ok i => .ok { i with pending := (node, depth) :: i.pending }

/-- Run one step of the inspection for every element of a list. -/
def each {α : Type} (step : Inspect → α → Except AstLimitError Inspect) :
    Inspect → List α → Except AstLimitError Inspect
  | i, [] => .ok i
  | i, x :: xs =>
      match step i x with
      | .error e => .error e
      | .ok i => each step i xs

def pushTypes (i : Inspect) (ts : List TypeRef) (depth : Nat) : Except AstLimitError Inspect :=
  each (fun i t => i.push (.type t) depth) i ts

def pushExprs (i : Inspect) (es : List Expr) (depth : Nat) : Except AstLimitError Inspect :=
  each (fun i e => i.push (.expr e) depth) i es

def pushStmts (i : Inspect) (ss : List Stmt) (depth : Nat) : Except AstLimitError Inspect :=
  each (fun i s => i.push (.stmt s) depth) i ss

def pushOpt (i : Inspect) (e : Option Expr) (depth : Nat) : Except AstLimitError Inspect :=
  match e with
  | none => .ok i
  | some e => i.push (.expr e) depth

end Inspect

/-! ## Visiting one node -/

def validIntWidth (bits : UInt16) : Bool :=
  bits == 1 || bits == 8 || bits == 16 || bits == 32 || bits == 64 || bits == 128

def validFloatWidth (bits : UInt16) : Bool := bits == 16 || bits == 32 || bits == 64

/-- ASCII decimal digits. -/
def isAsciiDigit (c : Char) : Bool := '0' ≤ c && c ≤ '9'

/-- ASCII hexadecimal digits of either case. -/
def isAsciiHexDigit (c : Char) : Bool :=
  isAsciiDigit c || ('a' ≤ c && c ≤ 'f') || ('A' ≤ c && c ≤ 'F')

/-- The wire spelling of an integer literal: an optional minus sign and decimal digits. -/
def validIntSpelling (value : String) : Bool :=
  let digits := match value.toList with
    | '-' :: rest => rest
    | digits => digits
  !digits.isEmpty && digits.all isAsciiDigit

/-- The wire spelling of a float literal: `0x` and one hexadecimal digit for each four bits. -/
def validFloatSpelling (bits : UInt16) (value : String) : Bool :=
  value.utf8ByteSize == 2 + bits.toNat / 4 && value.toList.take 2 == ['0', 'x'] &&
    (value.toList.drop 2).all isAsciiHexDigit

namespace Inspect

open Except (ok)

def visitSignature (i : Inspect) (s : SignatureRef) (next : Nat) :
    Except AstLimitError Inspect := do
  let i ← i.push (.type s.ret) next
  i.pushTypes s.params next

/-- The loop body for the fields of a structure type. -/
def structField (next : Nat) (i : Inspect) (f : StructField) :
    Except AstLimitError Inspect := do
  let i ← i.count
  let i ← i.string f.name
  i.push (.type f.ty) next

/-- The loop body for the fields of a structure literal. -/
def fieldInit (next : Nat) (i : Inspect) (f : FieldInit) : Except AstLimitError Inspect := do
  let i ← i.count
  let i ← i.string f.name
  i.push (.expr f.value) next

def visitType (i : Inspect) (t : TypeRef) (next : Nat) : Except AstLimitError Inspect :=
  match t with
  | .int bits _ => ok (i.wire (validIntWidth bits))
  | .float bits => ok (i.wire (validFloatWidth bits))
  | .ptr t | .array t _ => i.push (.type t) next
  | .fnPtr s => i.push (.signature s) next
  | .struct fields =>
      each (structField next) i.markExpression fields
  | .opaqueType s => i.string s
  | .void | .bool => ok i

def visitExpr (i : Inspect) (e : Expr) (next : Nat) : Except AstLimitError Inspect :=
  match e with
  | .struct ty fields => do
      let i ← i.markExpression.push (.type ty) next
      each (fieldInit next) i fields
  | .array ty elements => do
      let i ← i.markExpression.push (.type ty) next
      i.pushExprs elements next
  | .field base layout name => do
      let i ← i.markExpression.string name
      let i ← i.push (.expr base) next
      i.push (.type layout) next
  | .index base idx | .pointerOffset base idx => do
      let i ← i.markExpression.push (.expr base) next
      i.push (.expr idx) next
  | .volatileLoad value | .deref value | .addressOf value | .neg value =>
      i.markExpression.push (.expr value) next
  | .located note expression => do
      let i ← i.source note
      i.push (.expr expression) next
  | .cast value ty _ => do
      let i ← i.markExpression.push (.expr value) next
      i.push (.type ty) next
  | .bitNot value => i.markOperator.push (.expr value) next
  | .functionRef s | .var s => i.string s
  | .nullFunction s => i.push (.signature s) next
  | .call callee args => do
      let i ← match callee with
        | .direct s => i.string s
        | .indirect e => i.push (.expr e) next
      i.pushExprs args next
  | .lit (.int bits _ value) => do
      let i ← i.string value
      ok (i.wire (validIntWidth bits && validIntSpelling value))
  | .lit (.float bits value) => do
      let i ← i.string value
      ok (i.wire (validFloatWidth bits && validFloatSpelling bits value))
  | .lit (.bool _) => ok i
  | .binary left op right => do
      let i := if op = .add ∨ op = .sub ∨ op = .mul then i else i.markOperator
      let i ← i.push (.expr left) next
      i.push (.expr right) next
  | .cmp left _ right => do
      let i ← i.push (.expr left) next
      i.push (.expr right) next

def visitStmt (i : Inspect) (s : Stmt) (next : Nat) : Except AstLimitError Inspect :=
  match s with
  | .located note statement => do
      let i ← i.source note
      i.push (.stmt statement) next
  | .volatileStore place value | .store place value => do
      let i ← i.markExpression.push (.expr place) next
      i.push (.expr value) next
  | .return e => i.pushOpt e next
  | .constDecl name ty init => do
      let i ← i.string name
      let i ← i.push (.type ty) next
      i.push (.expr init) next
  | .varDecl name ty init => do
      let i ← i.string name
      let i ← i.push (.type ty) next
      i.pushOpt init next
  | .assign name value => do
      let i ← i.string name
      i.push (.expr value) next
  | .exprStmt e => i.push (.expr e) next
  | .ifElse cond thenBody elseBody => do
      let i ← i.push (.expr cond) next
      i.pushStmts (thenBody ++ elseBody) next
  | .while cond body => do
      let i ← i.push (.expr cond) next
      i.pushStmts body next
  | .break | .continue => ok i

/-- One round of the walk: the node taken off the stack is inspected and its children are
pushed one level deeper. -/
def visit (i : Inspect) (node : Node) (depth : Nat) : Except AstLimitError Inspect :=
  match node with
  | .signature s => i.visitSignature s (depth + 1)
  | .type t => i.visitType t (depth + 1)
  | .expr e => i.visitExpr e (depth + 1)
  | .stmt s => i.visitStmt s (depth + 1)

/-- The walk itself, for at most `fuel` rounds. -/
def drain : Nat → Inspect → Except AstLimitError Inspect
  | 0, i => if i.pending.isEmpty then ok i else .error .nodes
  | fuel + 1, i =>
      match i.pending with
      | [] => ok i
      | (node, depth) :: rest =>
          match { i with pending := rest }.visit node depth with
          | .error e => .error e
          | .ok i => drain fuel i

def declaration (i : Inspect) (d : FunctionDeclaration) : Except AstLimitError Inspect := do
  let i ← i.count
  let i ← i.string d.name
  let i ← i.stringOpt d.linkName
  i.push (.signature d.signature) 1

def global (i : Inspect) (g : GlobalConst) : Except AstLimitError Inspect := do
  let i ← i.count
  let i ← i.string g.name
  let i ← i.push (.type g.ty) 1
  i.push (.expr g.init) 1

def parameter (i : Inspect) (p : Parameter) : Except AstLimitError Inspect := do
  let i ← i.count
  let i ← i.string p.name
  i.push (.type p.ty) 1

def function (i : Inspect) (f : Function) : Except AstLimitError Inspect := do
  let i ← i.count
  let i ← i.string f.name
  let i ← i.stringOpt f.linkName
  let i ← i.push (.type f.returnType) 1
  let i ← each parameter i f.parameters
  i.pushStmts f.body 1

end Inspect

/-- The roots of a program, pushed in the order of the source. -/
def inspectRoots (program : Program) (limits : AstLimits) : Except AstLimitError Inspect := do
  let i ← (Inspect.start limits).count
  let i ← Inspect.each Inspect.declaration i program.declarations
  let i ← Inspect.each Inspect.global i program.globals
  Inspect.each Inspect.function i program.functions

def inspectProgramDetails (program : Program) (limits : AstLimits) :
    Except AstLimitError (Features × Bool) := do
  let i ← inspectRoots program limits
  let i ← i.drain limits.maxNodes
  .ok (i.extendedOps, i.wireNumbers)

def inspectProgram (program : Program) (limits : AstLimits) : Except AstLimitError Unit :=
  match inspectProgramDetails program limits with
  | .error e => .error e
  | .ok _ => .ok ()

/-- Widths and numeric spelling are syntax; value ranges and typed expression
compatibility remain lowering and verification responsibilities. -/
def inspectProgramWire (program : Program) (limits : AstLimits) : Except String Features :=
  match inspectProgramDetails program limits with
  | .error e => .error e.message
  | .ok (extended, numbers) =>
      if numbers then .ok extended
      else .error "AST numeric width or spelling does not match its versioned schema"

/-! ## The walk ends

`Grows i i'` says what a step of the inspection may do to the stack and the node counter:
everything pushed was counted, and the counter stays within its limit. -/

namespace Inspect

/-- What a step of the inspection keeps. -/
structure Grows (i i' : Inspect) : Prop where
  limits : i'.limits = i.limits
  pending : i'.pending.length + i.nodes ≤ i'.nodes + i.pending.length
  nodes : i.nodes ≤ i.limits.maxNodes → i'.nodes ≤ i.limits.maxNodes

theorem Grows.refl (i : Inspect) : Grows i i := ⟨rfl, by omega, fun h => h⟩

theorem Grows.trans {i j k : Inspect} (h₁ : Grows i j) (h₂ : Grows j k) : Grows i k where
  limits := h₂.limits.trans h₁.limits
  pending := by
    have := h₁.pending
    have := h₂.pending
    omega
  nodes h := by
    have h' := h₂.nodes (h₁.limits ▸ h₁.nodes h)
    exact h₁.limits ▸ h'

/-- A step whose every successful run grows the inspection. -/
def Growing (step : Inspect → Except AstLimitError Inspect) : Prop :=
  ∀ i i', step i = .ok i' → Grows i i'

theorem Growing.bind {s t : Inspect → Except AstLimitError Inspect} (hs : Growing s)
    (ht : Growing t) : Growing (fun i => s i >>= t) := by
  intro i k h
  obtain ⟨j, hj, hk⟩ := bind_ok_iff.mp h
  exact (hs i j hj).trans (ht j k hk)

theorem growing_ok : Growing .ok := by
  rintro i _ ⟨⟩
  exact Grows.refl i

/-- A step that changes neither the stack nor the counter. -/
theorem growing_mark {f : Inspect → Inspect} (hl : ∀ i, (f i).limits = i.limits)
    (hp : ∀ i, (f i).pending = i.pending) (hn : ∀ i, (f i).nodes = i.nodes) :
    Growing (fun i => .ok (f i)) := by
  rintro i _ ⟨⟩
  exact ⟨hl i, by rw [hp, hn, Nat.add_comm], by rw [hn]; exact id⟩

theorem growing_operator : Growing (fun i => .ok i.markOperator) :=
  growing_mark (fun _ => rfl) (fun _ => rfl) fun _ => rfl

theorem growing_expression : Growing (fun i => .ok i.markExpression) :=
  growing_mark (fun _ => rfl) (fun _ => rfl) fun _ => rfl

theorem growing_wire (ok : Bool) : Growing (fun i => .ok (i.wire ok)) :=
  growing_mark (fun _ => rfl) (fun _ => rfl) fun _ => rfl

theorem count_eq_ok {i i' : Inspect} (h : i.count = .ok i') :
    i.nodes + 1 ≤ i.limits.maxNodes ∧ i' = { i with nodes := i.nodes + 1 } := by
  simp only [count] at h
  split at h
  · cases h
  · rename_i n hn
    split at h
    · cases h
    · obtain ⟨rfl, -⟩ := checkedAdd_eq_some.mp hn
      cases h
      exact ⟨by omega, rfl⟩

theorem growing_count : Growing count := by
  intro i i' h
  obtain ⟨hn, rfl⟩ := count_eq_ok h
  exact ⟨rfl, by simp only; omega, fun _ => hn⟩

theorem growing_string (s : String) : Growing (fun i => i.string s) := by
  intro i i' h
  simp only [string] at h
  split at h
  · cases h
  · split at h
    · cases h
    · cases h
      exact ⟨rfl, by simp only; omega, fun h => h⟩

theorem growing_stringOpt (s : Option String) : Growing (fun i => i.stringOpt s) := by
  cases s with
  | none => exact growing_ok
  | some s => exact growing_string s

theorem growing_source (a : SourceAnnotation) : Growing (fun i => i.source a) := by
  intro i i' h
  simp only [source] at h
  split at h
  · cases h
  · have hstart : Grows i { i with sourceIds := a.id :: i.sourceIds }.markAnnotated :=
      ⟨rfl, Nat.le_of_eq (Nat.add_comm _ _), fun h => h⟩
    split at h
    · cases h
      exact hstart
    · split at h
      · cases h
      · rename_i s _ _ j hj
        split at h
        · cases h
        · cases h
          exact hstart.trans (growing_string s.file _ _ hj)

theorem growing_push (node : Node) (depth : Nat) : Growing (fun i => i.push node depth) := by
  intro i i' h
  simp only [push] at h
  split at h
  · cases h
  · split at h
    · cases h
    · rename_i j hj
      obtain ⟨hn, hp⟩ := count_eq_ok hj
      cases h
      rw [hp]
      exact ⟨rfl, by simp only [List.length_cons]; omega, fun _ => hn⟩

theorem growing_each {α : Type} {step : Inspect → α → Except AstLimitError Inspect}
    (hstep : ∀ x, Growing (fun i => step i x)) (xs : List α) :
    Growing (fun i => each step i xs) := by
  induction xs with
  | nil => exact growing_ok
  | cons x xs ih =>
      intro i i' h
      simp only [each] at h
      split at h
      · cases h
      · rename_i j hj
        exact (hstep x i j hj).trans (ih j i' h)

theorem growing_pushTypes (ts : List TypeRef) (depth : Nat) :
    Growing (fun i => i.pushTypes ts depth) :=
  growing_each (fun t => growing_push (.type t) depth) ts

theorem growing_pushExprs (es : List Expr) (depth : Nat) :
    Growing (fun i => i.pushExprs es depth) :=
  growing_each (fun e => growing_push (.expr e) depth) es

theorem growing_pushStmts (ss : List Stmt) (depth : Nat) :
    Growing (fun i => i.pushStmts ss depth) :=
  growing_each (fun s => growing_push (.stmt s) depth) ss

theorem growing_pushOpt (e : Option Expr) (depth : Nat) :
    Growing (fun i => i.pushOpt e depth) := by
  cases e with
  | none => exact growing_ok
  | some e => exact growing_push (.expr e) depth

theorem growing_visitSignature (s : SignatureRef) (next : Nat) :
    Growing (fun i => i.visitSignature s next) :=
  (growing_push _ _).bind (growing_pushTypes _ _)

theorem growing_structField (next : Nat) (f : StructField) :
    Growing (fun i => structField next i f) :=
  growing_count.bind ((growing_string f.name).bind (growing_push (.type f.ty) next))

theorem growing_fieldInit (next : Nat) (f : FieldInit) :
    Growing (fun i => fieldInit next i f) :=
  growing_count.bind ((growing_string f.name).bind (growing_push (.expr f.value) next))

theorem growing_visitType (t : TypeRef) (next : Nat) : Growing (fun i => i.visitType t next) := by
  cases t with
  | void | bool => exact growing_ok
  | int | float => exact growing_wire _
  | ptr | fnPtr | array => exact growing_push _ _
  | struct fields => exact growing_expression.bind (growing_each (growing_structField next) fields)
  | opaqueType s => exact growing_string s

theorem growing_visitExpr (e : Expr) (next : Nat) : Growing (fun i => i.visitExpr e next) := by
  cases e with
  | located a e => exact (growing_source a).bind (growing_push _ _)
  | struct ty fields =>
      exact growing_expression.bind
        ((growing_push _ _).bind (growing_each (growing_fieldInit next) fields))
  | array ty elements =>
      exact growing_expression.bind ((growing_push _ _).bind (growing_pushExprs _ _))
  | field base layout name =>
      exact growing_expression.bind
        ((growing_string name).bind ((growing_push _ _).bind (growing_push _ _)))
  | index | pointerOffset | cast =>
      exact growing_expression.bind ((growing_push _ _).bind (growing_push _ _))
  | addressOf | deref | volatileLoad | neg => exact growing_expression.bind (growing_push _ _)
  | bitNot e => exact growing_operator.bind (growing_push _ _)
  | functionRef s | var s => exact growing_string s
  | nullFunction s => exact growing_push _ _
  | call callee args =>
      cases callee with
      | direct s => exact (growing_string s).bind (growing_pushExprs _ _)
      | indirect e => exact (growing_push _ _).bind (growing_pushExprs _ _)
  | lit l =>
      cases l with
      | bool b => exact growing_ok
      | int bits signed value => exact (growing_string value).bind (growing_wire _)
      | float bits value => exact (growing_string value).bind (growing_wire _)
  | binary left op right =>
      have hpush := (growing_push (.expr left) next).bind (growing_push (.expr right) next)
      by_cases h : op = .add ∨ op = .sub ∨ op = .mul
      · simp only [visitExpr, h, if_true]
        exact hpush
      · simp only [visitExpr, h, if_false]
        exact growing_operator.bind hpush
  | cmp left op right => exact (growing_push _ _).bind (growing_push _ _)

theorem growing_visitStmt (s : Stmt) (next : Nat) : Growing (fun i => i.visitStmt s next) := by
  cases s with
  | located a s => exact (growing_source a).bind (growing_push _ _)
  | «return» e => exact growing_pushOpt e next
  | volatileStore | store =>
      exact growing_expression.bind ((growing_push _ _).bind (growing_push _ _))
  | constDecl name ty init =>
      exact (growing_string name).bind ((growing_push _ _).bind (growing_push _ _))
  | varDecl name ty init =>
      exact (growing_string name).bind ((growing_push _ _).bind (growing_pushOpt init next))
  | assign name value => exact (growing_string name).bind (growing_push _ _)
  | exprStmt e => exact growing_push _ _
  | ifElse | «while» => exact (growing_push _ _).bind (growing_pushStmts _ _)
  | «break» | «continue» => exact growing_ok

theorem growing_visit (node : Node) (depth : Nat) : Growing (fun i => i.visit node depth) := by
  cases node with
  | signature s => exact growing_visitSignature s _
  | type t => exact growing_visitType t _
  | expr e => exact growing_visitExpr e _
  | stmt s => exact growing_visitStmt s _

theorem growing_declaration (d : FunctionDeclaration) : Growing (fun i => i.declaration d) :=
  growing_count.bind ((growing_string _).bind ((growing_stringOpt _).bind (growing_push _ _)))

theorem growing_global (g : GlobalConst) : Growing (fun i => i.global g) :=
  growing_count.bind ((growing_string _).bind ((growing_push _ _).bind (growing_push _ _)))

theorem growing_parameter (p : Parameter) : Growing (fun i => i.parameter p) :=
  growing_count.bind ((growing_string _).bind (growing_push _ _))

theorem growing_function (f : Function) : Growing (fun i => i.function f) :=
  growing_count.bind ((growing_string _).bind ((growing_stringOpt _).bind
    ((growing_push _ _).bind ((growing_each growing_parameter _).bind (growing_pushStmts _ _)))))

/-- More fuel than pending nodes plus nodes still allowed changes nothing. -/
theorem drain_stable : (fuel : Nat) → (i : Inspect) → i.nodes ≤ i.limits.maxNodes →
    i.pending.length + (i.limits.maxNodes - i.nodes) ≤ fuel → i.drain (fuel + 1) = i.drain fuel
  | 0, i, _, h => by
      have hp : i.pending = [] := List.eq_nil_of_length_eq_zero (by omega)
      simp [drain, hp]
  | fuel + 1, i, hn, h => by
      rw [drain, drain]
      split
      · rfl
      · rename_i node depth rest hp
        split
        · rfl
        · rename_i j hj
          have hg := growing_visit node depth _ _ hj
          have hlen : i.pending.length = rest.length + 1 := by rw [hp]; rfl
          have hl : j.limits = i.limits := hg.limits
          have hjn : j.nodes ≤ i.limits.maxNodes := hg.nodes hn
          have hjp : j.pending.length + i.nodes ≤ j.nodes + rest.length := hg.pending
          exact drain_stable fuel j (by rw [hl]; exact hjn) (by rw [hl]; omega)

end Inspect

theorem grows_inspectRoots {program : Program} {limits : AstLimits} {i : Inspect}
    (h : inspectRoots program limits = .ok i) : Inspect.Grows (Inspect.start limits) i :=
  Inspect.growing_count.bind ((Inspect.growing_each Inspect.growing_declaration _).bind
    ((Inspect.growing_each Inspect.growing_global _).bind
      (Inspect.growing_each Inspect.growing_function _))) _ _ h

/-- **The fuel of the walk is enough.** `maxNodes` rounds are as good as any larger number:
the bound on counted nodes, not the fuel, ends the walk. -/
theorem drain_inspectRoots {program : Program} {limits : AstLimits} {i : Inspect}
    (h : inspectRoots program limits = .ok i) (extra : Nat) :
    i.drain (limits.maxNodes + extra) = i.drain limits.maxNodes := by
  have hg := grows_inspectRoots h
  have hl : i.limits = limits := hg.limits
  have hn : i.nodes ≤ limits.maxNodes := hg.nodes (Nat.zero_le _)
  have hp : i.pending.length ≤ i.nodes := hg.pending
  induction extra with
  | zero => rfl
  | succ extra ih =>
      rw [← Nat.add_assoc, Inspect.drain_stable (limits.maxNodes + extra) i (hl ▸ hn)
        (by rw [hl]; omega), ih]

end Whale.Frontend
