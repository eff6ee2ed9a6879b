import Whale.Assembler.Amd64.Parser
import Whale.Lib.AssocMap

set_option autoImplicit false

/-! # Constants

Constants are resolved before anything is encoded. A constant refers to one other constant at
most. Those that refer to nothing are ready, and a constant that has its value makes the ones
that refer to it ready. -/

namespace Whale.Assembler.Amd64

def plainSymbol (text : String) : AsmError := .symbolError (.plain text)

/-! ## Names and expressions -/

/-- A local name starts with a dot. -/
def isLocalName (raw : String) : Bool := raw.toList.head? = some '.'

/-- Local names are scoped by the label before them that is not local. -/
def resolveSymbolName (raw : String) (scope : Option String) : Except AsmError String :=
  if isLocalName raw then
    match scope with
    | some base => return base ++ raw
    | none =>
        throw (plainSymbol ("Local label '" ++ raw ++ "' has no parent non-local label in scope"))
  else return raw

def resolveExprSymbols (expr : ExprValue) (scope : Option String) : Except AsmError ExprValue :=
  match expr with
  | .number n => return .number n
  | .symbol name addend => do
      let name ← resolveSymbolName name scope
      return .symbol name addend

inductive EvaluatedExpr where
  | number (n : Int)
  | symbol (name : String) (addend : Int)
  deriving DecidableEq

def checkedExpressionAdd (a b : Int) (symbol : String) : Except AsmError Int :=
  orThrow ((checkedI128 (a + b)).filter fun n => decide (isExpressionValue n))
    (AsmError.encodeError (.expressionOverflow symbol))

/-- The number, if it is one of `i64`. -/
def toI64 (n : Int) : Option Int := if -2 ^ 63 ≤ n ∧ n < 2 ^ 63 then some n else none

def evalExpr (expr : ExprValue) (consts : AssocMap String Int) : Except AsmError EvaluatedExpr :=
  match expr with
  | .number n => return .number n
  | .symbol name addend =>
      match consts.get name with
      | some c => do
          let n ← checkedExpressionAdd c addend name
          return .number n
      | none => do
          let addend ← orThrow (toI64 addend) (AsmError.encodeError (.plain "Symbol addend overflow"))
          return .symbol name addend

/-! ## Collecting the definitions -/

/-- Insert a value unless the key has one. -/
def orInsert {ν : Type} (m : AssocMap String ν) (key : String) (value : ν) : AssocMap String ν :=
  match m.get key with
  | some _ => m
  | none => m.insert key value

structure Definitions where
  definitions : List (String × ExprValue)
  positions : AssocMap String Nat
  reserved : List String
  scope : Option String
  constantSites : AssocMap String Nat
  reservedSites : AssocMap String Nat

namespace Definitions

def start : Definitions where
  definitions := []
  positions := []
  reserved := []
  scope := none
  constantSites := []
  reservedSites := []

def reserve (d : Definitions) (name : String) (index : Nat) : Definitions :=
  { d with reserved := name :: d.reserved, reservedSites := orInsert d.reservedSites name index }

/-- The scope behind a label. -/
def scopeAfter (scope : Option String) (raw resolved : String) : Option String :=
  if isLocalName raw then scope else some resolved

def addNode (ast : Ast) (d : Definitions) (e : AstNode × Nat) : Except AsmError Definitions :=
  let place (error : AsmError) : AsmError := ast.errorAt error e.2 none
  match e.1 with
  | .label name => do
      let resolved ← (resolveSymbolName name d.scope).mapError place
      return { d.reserve resolved e.2 with scope := scopeAfter d.scope name resolved }
  | .external name => do
      let resolved ← (resolveSymbolName name d.scope).mapError place
      return d.reserve resolved e.2
  | .const name expr => do
      let name ← (resolveSymbolName name d.scope).mapError place
      require (d.positions.get name = none)
        (ast.errorAt (plainSymbol ("Duplicate constant definition '" ++ name ++ "'")) e.2
          (d.constantSites.get name))
      let expr ← (resolveExprSymbols expr d.scope).mapError place
      return { d with
        positions := d.positions.insert name d.definitions.length
        constantSites := d.constantSites.insert name e.2
        definitions := d.definitions ++ [(name, expr)] }
  | _ => return d

def collect (ast : Ast) : Except AsmError Definitions :=
  ast.items.zipIdx.foldlM (addNode ast) start

/-! ## The worklist -/

/-- The site of a constant that is defined. -/
def site (d : Definitions) (name : String) : Nat := (d.constantSites.get name).getD 0

structure Worklist where
  /-- The constants that refer to each constant. -/
  dependents : List (List Nat)
  ready : List Nat

/-- Put a definition where it is waited for. -/
def schedule (ast : Ast) (d : Definitions) (w : Worklist) (e : (String × ExprValue) × Nat) :
    Except AsmError Worklist := do
  let name := e.1.1
  let declaration := d.site name
  let previous := (d.reservedSites.get name).getD 0
  require (name ∉ d.reserved)
    (ast.errorAt (plainSymbol ("Constant '" ++ name ++ "' conflicts with a label or extern symbol"))
      (max declaration previous) (some (min declaration previous)))
  match e.1.2 with
  | .number _ => return { w with ready := w.ready ++ [e.2] }
  | .symbol dependency _ => do
      let position ← orThrow (d.positions.get dependency)
        (ast.errorAt (plainSymbol
          ("equ requires a constant expression; unresolved symbol '" ++ dependency ++ "'"))
          declaration none)
      return { w with dependents := w.dependents.modify position (· ++ [e.2]) }

/-- The value of the definition at a position that is ready. -/
def evaluate (ast : Ast) (d : Definitions) (position : Nat) (values : AssocMap String Int) :
    Except AsmError (AssocMap String Int) :=
  match d.definitions[position]? with
  -- Only positions of definitions are ready.
  | none => return values
  | some (name, expr) => do
      let result ← (evalExpr expr values).mapError fun error =>
        ast.errorAt error (d.site name) none
      match result with
      | .number value => return values.insert name value
      | .symbol .. =>
          throw (ast.errorAt (plainSymbol ("Unresolved constant dependency for '" ++ name ++ "'"))
            (d.site name) none)

/-- The loop over what is ready, for at most `fuel` rounds; what is still ready is returned. -/
def drain (ast : Ast) (d : Definitions) (dependents : List (List Nat)) :
    Nat → List Nat → AssocMap String Int → Except AsmError (List Nat × AssocMap String Int)
  | 0, ready, values => return (ready, values)
  | _ + 1, [], values => return ([], values)
  | fuel + 1, position :: ready, values => do
      let values ← evaluate ast d position values
      drain ast d dependents fuel (ready ++ dependents.getD position []) values

end Definitions

open Definitions in
/-- Each definition is ready once at most, so that the rounds are enough. -/
def resolveConstants (ast : Ast) : Except AsmError (AssocMap String Int) := do
  let d ← collect ast
  let w ← d.definitions.zipIdx.foldlM (schedule ast d)
    { dependents := List.replicate d.definitions.length [], ready := [] }
  let (_, values) ← drain ast d w.dependents d.definitions.length w.ready []
  match d.definitions.find? fun e => (values.get e.1).isNone with
  | some (name, _) =>
      throw (ast.errorAt (plainSymbol
        ("Constant dependency cycle prevents resolving '" ++ name ++ "'")) (d.site name) none)
  | none => return values

end Whale.Assembler.Amd64
