import Whale.Assembler.Output
import Whale.Lib.AssocMap
import Whale.Lib.Except

set_option autoImplicit false

/-! # Operands of the fixed-width assemblers

Integers, expressions and the lists of operands, and the displacement from an instruction to
the target of its operand. -/

namespace Whale.Assembler

open Whale.Text

abbrev Word := BitVec 32

structure Instruction where
  mnemonic : String
  operands : List Text
  deriving DecidableEq, Repr

/-- A label in a section, or an external symbol. -/
structure Symbol where
  sectionIndex : Option Nat
  offset : Nat
  span : SourceSpan
  deriving DecidableEq, Repr

/-! ## Integers -/

def integer (text : Text) : Except AsmError Int := do
  let text := trim ((stripPrefix ['#'] (trim text)).getD (trim text))
  let negative := text.head? = some '-'
  let text := trim (if negative then text.drop 1 else (stripPrefix ['+'] text).getD text)
  require (text.head?.any Char.isDigit = true) (error (.invalidInteger text))
  let clean := text.filter (· ≠ '_')
  let value ← orThrow
    (match clean with
    | '0' :: 'x' :: ds => fromStrRadix ds 16
    | '0' :: 'X' :: ds => fromStrRadix ds 16
    | '0' :: 'b' :: ds => fromStrRadix ds 2
    | '0' :: 'B' :: ds => fromStrRadix ds 2
    | ds => fromStrRadix ds 10) (error (.invalidInteger text))
  if negative then
    require (value ≠ -2 ^ 127) (failure "integer overflow")
    return -value
  else return value

def signed (text : Text) (bits : Nat) : Except AsmError Word := do
  require (1 ≤ bits ∧ bits ≤ 32) (failure "invalid immediate field width")
  let value ← integer text
  require (-2 ^ (bits - 1) ≤ value ∧ value < 2 ^ (bits - 1)) (error (.mustFitSigned bits))
  return BitVec.ofInt 32 value &&& BitVec.ofNat 32 (2 ^ bits - 1)

def unsigned (text : Text) (bits : Nat) : Except AsmError Word := do
  require (1 ≤ bits ∧ bits ≤ 32) (failure "invalid immediate field width")
  let value ← integer text
  require (0 ≤ value ∧ value < 2 ^ bits) (error (.mustFitUnsigned bits))
  return BitVec.ofInt 32 value

/-- The field of a displacement in units of the alignment. -/
def displacement (value : Int) (bits : Nat) (alignment : Int) : Except AsmError Word := do
  require ((1 ≤ bits ∧ bits ≤ 32) ∧ 0 < alignment) (failure "invalid displacement field")
  require (value.tmod alignment = 0) (error (.mustBeAligned alignment))
  let scaled := value.tdiv alignment
  require (-2 ^ (bits - 1) ≤ scaled ∧ scaled < 2 ^ (bits - 1)) (error (.exceedsScaledRange bits))
  return BitVec.ofInt 32 scaled &&& BitVec.ofNat 32 (2 ^ bits - 1)

/-! ## Expressions -/

def isSymbolic (c : Char) : Bool := c = '_' || c = '.' || c = '$'

def identifier (name : Text) : Except AsmError Unit :=
  require (name.head?.any (fun c => c.isAlpha || isSymbolic c) = true ∧
    name.all (fun c => c.isAlphanum || isSymbolic c) = true) (error (.invalidSymbolName name))

inductive Expression where
  | number (value : Int)
  | symbol (name : String) (addend : Int)
  deriving DecidableEq, Repr

/-- The text before the first sign after the first character, and the rest. -/
def splitSign (text : Text) : Text × Option Text :=
  match text with
  | [] => ([], none)
  | c :: cs =>
      match cs.span fun c => c ≠ '+' && c ≠ '-' with
      | (_, []) => (text, none)
      | (before, rest) => (c :: before, some rest)

def isI64 (value : Int) : Prop := -2 ^ 63 ≤ value ∧ value < 2 ^ 63

instance (value : Int) : Decidable (isI64 value) := inferInstanceAs (Decidable (_ ∧ _))

/-- The addend of a symbol; without a sign there is none. -/
def symbolAddend : Option Text → Except AsmError Int
  | none => .ok 0
  | some text => do
      let addend ← integer text
      require (isI64 addend) (failure "symbol addend exceeds i64")
      return addend

def expression (text : Text) : Except AsmError Expression :=
  match integer text with
  | .ok value => .ok (.number value)
  | .error _ => do
      let split := splitSign (trim text)
      let addend ← symbolAddend split.2
      let name := if split.2 = none then split.1 else trim split.1
      identifier name
      return .symbol (String.ofList name) addend

/-! ## Displacements -/

/-- The place of an instruction, and what its encoding may add. -/
structure Context where
  namespaceName : String
  sectionIndex : Nat
  offset : Nat
  symbols : AssocMap String Symbol
  relocations : List Relocation

/-- A label of the same section is resolved, every other symbol gets a relocation. -/
def Context.pcRelative (cx : Context) (operand : Text) (code : Nat) :
    Except AsmError (Int × Context) := do
  match ← expression operand with
  | .number value =>
      require (isI64 value) (failure "branch displacement exceeds i64")
      return (value, cx)
  | .symbol name addend =>
      let symbol ← orThrow (AssocMap.get name cx.symbols) (error (.undefinedSymbol name))
      if symbol.sectionIndex = some cx.sectionIndex then
        let value := (symbol.offset : Int) + addend - cx.offset
        require (isI64 value) (failure "branch displacement exceeds i64")
        return (value, cx)
      else
        let relocation : Relocation :=
          { offset := cx.offset, symbol := name, addend := addend
            kind := .targetSpecific cx.namespaceName code }
        return (0, { cx with relocations := cx.relocations ++ [relocation] })

/-! ## Lists of operands -/

def count (inst : Instruction) (expected : Nat) : Except AsmError (List Text) := do
  require (inst.operands.length = expected) (error (.requiresOperands inst.mnemonic expected))
  return inst.operands

/-- The operands of the text `rest`, after the characters `current` of one and the ones in
`result`; a comma within brackets does not end an operand. -/
def splitOperands (rest : Text) (stack : List Char) (current : Text) (result : List Text) :
    Except AsmError (List Text) :=
  match rest with
  | [] => do
      require (stack = []) (failure "unclosed memory operand")
      return result ++ [trim current]
  | c :: rest =>
      if c = '[' ∨ c = '(' then splitOperands rest (c :: stack) (current ++ [c]) result
      else if c = ']' ∨ c = ')' then do
        require (stack.head? = some (if c = ']' then '[' else '('))
          (failure "unbalanced memory operand")
        splitOperands rest (stack.drop 1) (current ++ [c]) result
      else if c = ',' ∧ stack = [] then do
        require (result.length < 65536) (failure "operand count exceeds 65536")
        splitOperands rest stack [] (result ++ [trim current])
      else splitOperands rest stack (current ++ [c]) result

def operands (text : Text) : Except AsmError (List Text) := do
  if trim text = [] then return []
  else
    let result ← splitOperands text [] [] []
    require (result.length ≤ 65536) (failure "operand count exceeds 65536")
    require ([] ∉ result) (failure "empty operand")
    return result

end Whale.Assembler
