import Whale.Assembler.Amd64.Ast
import Whale.Lib.Except

set_option autoImplicit false

/-! # Parsing expressions

An expression is a list of terms that are added and subtracted. The parser goes over the tokens
from a position on and returns the position behind the expression. -/

namespace Whale.Assembler.Amd64

/-- The number, if it is one of 128 bits. -/
def checkedI128 (n : Int) : Option Int := if -2 ^ 127 ≤ n ∧ n < 2 ^ 127 then some n else none

/-- From `i64::MIN` to `u64::MAX`. -/
def isExpressionValue (n : Int) : Prop := -2 ^ 63 ≤ n ∧ n < 2 ^ 64

instance (n : Int) : Decidable (isExpressionValue n) :=
  inferInstanceAs (Decidable (_ ∧ _))

/-- An error at a token, or behind the last one. -/
def parserErr (tokens : List Token) (pos : Nat) (msg : String) : AsmError :=
  let span : SourceSpan :=
    match tokens[pos]? with
    | some token => token.span
    | none =>
        match tokens.getLast? with
        | some token =>
            { start := token.endPosition, stop := token.endPosition, line := token.endLine
              column := token.endColumn }
        | none => { start := 0, stop := 0, line := 1, column := 1 }
  AsmError.at' (.parserError (.plain msg)) "<input>" span none

def combineExpr (tokens : List Token) (pos : Nat) (left : Option ExprValue) (right : ExprValue) :
    Except AsmError ExprValue :=
  match left, right with
  | none, r => return r
  | some (.number a), .number b => do
      let n ← orThrow (checkedI128 (a + b)) (parserErr tokens pos "Expression arithmetic overflow")
      return .number n
  | some (.number a), .symbol name addend => do
      let n ← orThrow (checkedI128 (addend + a)) (parserErr tokens pos "Symbol addend overflow")
      return .symbol name n
  | some (.symbol name addend), .number b => do
      let n ← orThrow (checkedI128 (addend + b)) (parserErr tokens pos "Symbol addend overflow")
      return .symbol name n
  | some (.symbol ..), .symbol .. =>
      throw (parserErr tokens pos "Expressions with multiple symbols are not supported")

/-- The variables of the loop over the terms. -/
structure ExprState where
  acc : Option ExprValue
  expectTerm : Bool
  sign : Int
  deriving DecidableEq

/-- One token of an expression. -/
def exprToken (tokens : List Token) (pos : Nat) (kind : TokenKind) (s : ExprState) :
    Except AsmError ExprState :=
  if s.expectTerm then
    match kind with
    | .plus => return s
    | .minus => return { s with sign := -s.sign }
    | .number n => do
        let n ← orThrow (checkedI128 (s.sign * n))
          (parserErr tokens pos "Expression arithmetic overflow")
        let acc ← combineExpr tokens pos s.acc (.number n)
        return { acc := some acc, expectTerm := false, sign := 1 }
    | .identifier name => do
        require (¬ s.sign < 0) (parserErr tokens pos "Unary '-' before symbol is not supported")
        let acc ← combineExpr tokens pos s.acc (.symbol name 0)
        return { acc := some acc, expectTerm := false, sign := 1 }
    | _ => throw (parserErr tokens pos "Expected expression term")
  else
    match kind with
    | .plus => return { s with expectTerm := true, sign := 1 }
    | .minus => return { s with expectTerm := true, sign := -1 }
    | _ => throw (parserErr tokens pos "Expected '+' or '-' in expression")

/-- The tokens from `pos` on, which are `rest`, up to a token where the expression stops. -/
def exprTokens (tokens : List Token) (stop : TokenKind → Bool) :
    List Token → Nat → ExprState → Except AsmError (ExprState × Nat)
  | [], pos, s => return (s, pos)
  | token :: rest, pos, s =>
      if stop token.kind then return (s, pos)
      else do
        let s ← exprToken tokens pos token.kind s
        exprTokens tokens stop rest (pos + 1) s

/-- The expression when the loop is done. -/
def finishExpr (tokens : List Token) (pos : Nat) (s : ExprState) : Except AsmError ExprValue := do
  require (¬ (s.expectTerm = true ∧ s.acc.isSome = true))
    (parserErr tokens pos "Expression cannot end with operator")
  let expression ← orThrow s.acc (parserErr tokens pos "Expected expression")
  -- An addend is checked only when the symbol is resolved.
  match expression with
  | .number n =>
      require (isExpressionValue n) (parserErr tokens (pos - 1) "64-bit expression overflow")
  | .symbol .. => pure ()
  return expression

def parseExpr (tokens : List Token) (pos : Nat) (stop : TokenKind → Bool) :
    Except AsmError (ExprValue × Nat) := do
  let (s, pos) ← exprTokens tokens stop (tokens.drop pos) pos
    { acc := none, expectTerm := true, sign := 1 }
  let expression ← finishExpr tokens pos s
  return (expression, pos)

end Whale.Assembler.Amd64
