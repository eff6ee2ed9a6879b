import Whale.Lib.Scan

set_option autoImplicit false

/-! # What an assembler puts out

Sections, symbols and relocations, the limits of an assembly and its errors. -/

namespace Whale.Assembler

open Whale (Text)

/-! ## Errors -/

/-- A half-open range of UTF-8 bytes; line and column start at one. -/
structure SourceSpan where
  start : Nat
  stop : Nat
  line : Nat
  column : Nat
  deriving DecidableEq, Repr

/-- The message of an error; a message with values has a constructor. -/
inductive Message where
  | plain (text : String)
  | undefinedSymbol (name : String)
  | undefinedData (name : String)
  | undefinedGlobal (name : String)
  | duplicateSymbol (name : String)
  | invalidSymbolName (name : Text)
  | invalidInteger (text : Text)
  | requiresOperands (mnemonic : String) (expected : Nat)
  | mustFitSigned (bits : Nat)
  | mustFitUnsigned (bits : Nat)
  | mustBeAligned (alignment : Int)
  | exceedsScaledRange (bits : Nat)
  | unsupportedDirective (mnemonic : String)
  | unsupportedInstruction (isa mnemonic : String)
  | invalidRegister (isa : String) (text : Text)
  | expressionOverflow (symbol : String)
  | outputLimit (bytes : Nat)
  | notConverged (passes : Nat)
  deriving DecidableEq, Repr

inductive AsmError where
  | lexerError (message : Message)
  | parserError (message : Message)
  | encodeError (message : Message)
  | symbolError (message : Message)
  | diagnostic (sourceName : String) (span : SourceSpan) (related : Option SourceSpan)
      (error : AsmError)
  deriving DecidableEq, Repr

/-- The first place that is given to an error stays. -/
def AsmError.at' (e : AsmError) (sourceName : String) (span : SourceSpan)
    (related : Option SourceSpan) : AsmError :=
  match e with
  | .diagnostic .. => e
  | _ => .diagnostic sourceName span related e

def error (message : Message) : AsmError := .encodeError message

def failure (text : String) : AsmError := .encodeError (.plain text)

/-! ## Output -/

inductive AsmSectionKind where
  | text
  | data
  | readOnlyData
  | bss
  deriving DecidableEq, Repr

def AsmSectionKind.defaultForName (name : String) : AsmSectionKind :=
  if name = ".text" then .text
  else if name = ".rodata" then .readOnlyData
  else if name = ".bss" then .bss
  else .data

def AsmSectionKind.defaultAlignment (kind : AsmSectionKind) : Nat := if kind = .text then 16 else 1

inductive RelocKind where
  | targetSpecific (namespaceName : String) (code : Nat)
  | absolute64
  | absolute32
  | signedAbsolute32
  | relative32
  | branch32
  | relative8
  deriving DecidableEq, Repr

structure Relocation where
  offset : Nat
  symbol : String
  kind : RelocKind
  addend : Int
  deriving DecidableEq, Repr

structure AsmSection where
  kind : AsmSectionKind
  align : Nat
  name : String
  data : List UInt8
  zeroFill : Nat
  relocs : List Relocation
  deriving DecidableEq, Repr

inductive SymbolKind where
  | noType
  | function
  | object
  deriving DecidableEq, Repr

inductive SymbolVisibility where
  | default
  | hidden
  deriving DecidableEq, Repr

structure AsmSymbol where
  kind : SymbolKind
  size : Nat
  visibility : SymbolVisibility
  name : String
  sectionIndex : Option Nat
  offset : Nat
  isGlobal : Bool
  deriving DecidableEq, Repr

structure AssemblerOutput where
  sections : List AsmSection
  symbols : List AsmSymbol
  deriving DecidableEq, Repr

structure AssemblyLimits where
  maxOutputBytes : Nat
  maxRelaxIterations : Nat
  deriving DecidableEq, Repr

end Whale.Assembler
