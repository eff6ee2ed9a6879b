import Whale.Assembler.Output

set_option autoImplicit false

/-! # Tokens and syntax trees

The tokens of an assembler source, and what its parser returns. Positions are bytes of the UTF-8
source. -/

namespace Whale.Assembler.Amd64

inductive TokenKind where
  | identifier (name : String)
  | number (n : Int)
  | stringLiteral (bytes : List UInt8)
  | comma
  | colon
  | lBracket
  | rBracket
  | plus
  | minus
  | multiply
  | divide
  | newline
  deriving DecidableEq, Repr

structure Token where
  kind : TokenKind
  position : Nat
  endPosition : Nat
  line : Nat
  /-- One-based column of characters; tabs count as one column. -/
  column : Nat
  endLine : Nat
  endColumn : Nat
  deriving DecidableEq, Repr

def Token.span (t : Token) : SourceSpan where
  start := t.position
  stop := t.endPosition
  line := t.line
  column := t.column

/-! ## Syntax trees

What the parser of an assembler source returns. -/

inductive ExprValue where
  | number (n : Int)
  | symbol (name : String) (addend : Int)
  deriving DecidableEq, Repr

/-- How an address without registers is meant. -/
inductive MemoryAddressMode where
  | default
  | relative
  | absolute
  deriving DecidableEq, Repr

structure MemoryOperand where
  addressMode : MemoryAddressMode
  /-- The explicit width of the data in bits. -/
  width : Option Nat
  base : Option String
  index : Option String
  scale : Nat
  disp : Int
  symbol : Option String
  deriving DecidableEq, Repr

inductive Operand where
  | register (name : String)
  | immediate (n : Int)
  | label (name : String)
  | symbolExpr (name : String) (addend : Int)
  | memory (mem : MemoryOperand)
  deriving DecidableEq, Repr

structure Instruction where
  mnemonic : String
  operands : List Operand
  deriving DecidableEq, Repr

inductive DirectiveValue where
  | expr (expr : ExprValue)
  | stringLiteral (bytes : List UInt8)
  deriving DecidableEq, Repr

structure Directive where
  name : String
  values : List DirectiveValue
  deriving DecidableEq, Repr

inductive AstNode where
  | instruction (ins : Instruction)
  | symbolMetadata (name : String) (kind : SymbolKind) (size : ExprValue)
      (visibility : SymbolVisibility)
  | directive (dir : Directive)
  | label (name : String)
  | section (name : String)
  | sectionAttributes (name : String) (kind : AsmSectionKind)
  | global (name : String)
  | external (name : String)
  | const (name : String) (expr : ExprValue)
  deriving DecidableEq, Repr

structure Ast where
  items : List AstNode
  /-- The places of the items, as far as they are known. -/
  spans : List SourceSpan
  sourceName : String
  deriving DecidableEq, Repr

/-- An error at an item, with another item that it is about. -/
def Ast.errorAt (ast : Ast) (error : AsmError) (item : Nat) (previous : Option Nat) : AsmError :=
  match ast.spans[item]? with
  | none => error
  | some span => error.at' ast.sourceName span (previous.bind fun item => ast.spans[item]?)

end Whale.Assembler.Amd64
