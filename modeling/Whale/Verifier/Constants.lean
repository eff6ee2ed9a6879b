import Whale.Lib.Agenda
import Whale.Verifier.Error

set_option autoImplicit false

/-! # Tables of constants

The definitions of a module or of a function refer to each other in any order. Those that wait
for nothing are evaluated first, and each evaluation may make others ready; a definition that
is never ready lies on a cycle or behind one. -/

namespace Whale

namespace Constants

/-- The types and values of constants that are known. -/
abbrev Values := AssocMap ConstRef (Ty × ConstValue)

def lookup (locals globals : Values) (reference : ConstRef) : Option (Ty × ConstValue) :=
  (locals.get reference).or (globals.get reference)

structure Definition where
  id : ConstRef
  ty : Ty
  expression : ConstExpr
  result : ConstValue
  deriving DecidableEq

/-- The error at a declaration. -/
def invalid (scope : String) (declaration : ConstRef) (reason : ConstEvalError) : VerifyError :=
  .invalidConstExpression scope declaration reason

section

variable (scope : String) (values globals : Values)

/-- The index of each identity, which is new. -/
def indexDefinitions : Nat → List Definition → AssocMap ConstRef Nat →
    Except VerifyError (AssocMap ConstRef Nat)
  | _, [], indices => .ok indices
  | i, d :: ds, indices => do
      require (indices.get d.id = none ∧ lookup values globals d.id = none)
        (invalid scope d.id (.duplicateDefinition d.id))
      require (d.ty = d.expression.ty) (invalid scope d.id .typeMismatch)
      indexDefinitions (i + 1) ds (indices.insert d.id i)

/-- What each definition waits for, and which definitions wait for it. -/
structure Links where
  agenda : Agenda
  users : List (List Nat)

/-- Count the references of definition `i` that no known constant stands for, each once. -/
def linkReferences (indices : AssocMap ConstRef Nat) (i : Nat) (d : Definition) :
    List ConstRef → List ConstRef → Links → Except VerifyError Links
  | [], _, links => .ok links
  | reference :: references, seen, links =>
      if reference ∈ seen ∨ (lookup values globals reference).isSome then
        linkReferences indices i d references (reference :: seen) links
      else do
        let dependency ← orThrow (indices.get reference)
          (invalid scope d.id (.unknownReference reference))
        linkReferences indices i d references (reference :: seen)
          { agenda := { links.agenda with remaining := links.agenda.remaining.modify i (· + 1) }
            users := links.users.modify dependency (· ++ [i]) }

def linkDefinitions (indices : AssocMap ConstRef Nat) : Nat → List Definition → Links →
    Except VerifyError Links
  | _, [], links => .ok links
  | i, d :: ds, links => do
      let links ← linkReferences scope values globals indices i d d.expression.references [] links
      let agenda := links.agenda
      linkDefinitions indices (i + 1) ds { links with
        agenda := if agenda.remaining[i]? = some 0 then { agenda with ready := agenda.ready ++ [i] }
          else agenda }

end

/-- The values known so far, and what is left to do. -/
structure Progress where
  values : Values
  agenda : Agenda
  completed : List Bool

section

variable (scope : String) (definitions : List Definition) (globals : Values) (limits : IrLimits)
  (users : List (List Nat))

/-- Evaluate definition `i`, which left the queue, and count it off for its users. -/
def completeDefinition (i : Nat) (d : Definition) (p : Progress) : Except VerifyError Progress := do
  let result ← (d.expression.evaluateWithLimits (lookup p.values globals) limits).mapError
    (invalid scope d.id)
  require (sameValue result d.result = true) (invalid scope d.id .resultMismatch)
  return {
    values := p.values.insert d.id (d.ty, result)
    agenda := (users.getD i []).foldl Agenda.release p.agenda
    completed := p.completed.set i true }

/-- The loop over the queue; `none` when `fuel` iterations do not empty it. -/
def drain : Nat → Progress → Option (Except VerifyError Progress)
  | fuel, p =>
      match p.agenda.ready with
      | [] => some (.ok p)
      | i :: ready =>
          match fuel, definitions[i]? with
          | fuel + 1, some d =>
              match completeDefinition scope globals limits users i d
                { p with agenda := { p.agenda with ready := ready } } with
              | .error e => some (.error e)
              | .ok p => drain fuel p
          | _, _ => none

end

/-- `evaluate`, for at most `fuel` iterations of its loop. -/
def evaluate (scope : String) (definitions : List Definition) (values globals : Values)
    (limits : IrLimits) (fuel : Nat) : Option (Except VerifyError Values) :=
  let links : Except VerifyError Links := do
    let indices ← indexDefinitions scope values globals 0 definitions []
    linkDefinitions scope values globals indices 0 definitions
      { agenda := ⟨List.replicate definitions.length 0, []⟩
        users := List.replicate definitions.length [] }
  match links with
  | .error e => some (.error e)
  | .ok links =>
      match drain scope definitions globals limits links.users fuel
        ⟨values, links.agenda, List.replicate definitions.length false⟩ with
      | none => none
      | some (.error e) => some (.error e)
      | some (.ok p) =>
          match (p.completed.zip definitions).find? (fun e => !e.1) with
          | some e => some (.error (invalid scope e.2.id .cyclicReference))
          | none => some (.ok p.values)

end Constants

end Whale
