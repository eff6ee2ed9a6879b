import Whale.Assembler.Amd64.Constants
import Whale.Assembler.Amd64.Encoding

set_option autoImplicit false

/-! # Emitting parts of instructions

The names of an instruction are resolved first. Then its bytes are put behind one another, with
the relocations of the fields that are not known yet. -/

namespace Whale.Assembler.Amd64

/-! ## Names and constants in operands -/

def resolveOperandSymbols (scope : Option String) (op : Operand) : Except AsmError Operand :=
  match op with
  | .label sym => do
      let name ← resolveSymbolName sym scope
      return .label name
  | .symbolExpr name addend => do
      let name ← resolveSymbolName name scope
      return .symbolExpr name addend
  | .memory mem =>
      match mem.symbol with
      | none => return .memory mem
      | some sym => do
          let name ← resolveSymbolName sym scope
          return .memory { mem with symbol := some name }
  | _ => return op

def resolveInstructionSymbols (ins : Instruction) (scope : Option String) :
    Except AsmError Instruction := do
  let operands ← ins.operands.mapM (resolveOperandSymbols scope)
  return { mnemonic := ins.mnemonic, operands }

def resolveOperandConsts (consts : AssocMap String Int) (op : Operand) : Except AsmError Operand :=
  match op with
  | .label name =>
      match consts.get name with
      | some v => return .immediate v
      | none => return op
  | .symbolExpr name addend =>
      match consts.get name with
      | some v => do
          let n ← checkedExpressionAdd v addend name
          return .immediate n
      | none => return op
  | .memory mem =>
      match mem.symbol.bind fun sym => (consts.get sym).map fun v => (sym, v) with
      | none => return .memory mem
      | some (sym, v) => do
          let n ← checkedExpressionAdd v mem.disp sym
          let disp ← orThrow (toI64 n) (failure "Memory displacement overflow")
          return .memory { mem with disp := disp, symbol := none }
  | _ => return op

def resolveInstructionConsts (ins : Instruction) (consts : AssocMap String Int) :
    Except AsmError Instruction := do
  let operands ← ins.operands.mapM (resolveOperandConsts consts)
  return { mnemonic := ins.mnemonic, operands }

def resolveDirectiveValue (scope : Option String) (value : DirectiveValue) :
    Except AsmError DirectiveValue :=
  match value with
  | .stringLiteral s => return .stringLiteral s
  | .expr expr => do
      let expr ← resolveExprSymbols expr scope
      return .expr expr

def resolveDirectiveSymbols (dir : Directive) (scope : Option String) :
    Except AsmError Directive := do
  let values ← dir.values.mapM (resolveDirectiveValue scope)
  return { name := dir.name, values }

/-! ## Bytes and relocations -/

/-- The bytes so far, and the relocations in them. -/
structure Code where
  bytes : List UInt8
  relocs : List Relocation
  deriving DecidableEq

namespace Code

def empty : Code := ⟨[], []⟩

def extend (c : Code) (bytes : List UInt8) : Code := { c with bytes := c.bytes ++ bytes }

def push (c : Code) (byte : UInt8) : Code := c.extend [byte]

def relocate (c : Code) (reloc : Relocation) : Code := { c with relocs := c.relocs ++ [reloc] }

theorem extend_nil (c : Code) : c.extend [] = c := by
  unfold extend
  rw [List.append_nil]

@[simp] theorem bytes_extend (c : Code) (bytes : List UInt8) :
    (c.extend bytes).bytes = c.bytes ++ bytes := rfl

@[simp] theorem relocs_extend (c : Code) (bytes : List UInt8) :
    (c.extend bytes).relocs = c.relocs := rfl

@[simp] theorem bytes_push (c : Code) (byte : UInt8) : (c.push byte).bytes = c.bytes ++ [byte] :=
  rfl

@[simp] theorem relocs_push (c : Code) (byte : UInt8) : (c.push byte).relocs = c.relocs := rfl

@[simp] theorem bytes_relocate (c : Code) (reloc : Relocation) :
    (c.relocate reloc).bytes = c.bytes := rfl

@[simp] theorem relocs_relocate (c : Code) (reloc : Relocation) :
    (c.relocate reloc).relocs = c.relocs ++ [reloc] := rfl

end Code

/-- A cast that keeps the low eight bits. -/
def lowByte (n : Int) : UInt8 := UInt8.ofNat (n % 256).toNat

/-! ## Registers -/

structure RegInfo where
  code : Nat
  width : Nat
  high8 : Bool
  rex8 : Bool
  deriving DecidableEq

def lookupReg (name : String) : Option RegInfo :=
  match codeOf registers64 name with
  | some code => some ⟨code, 64, false, false⟩
  | none =>
      match codeOf registers32 name with
      | some code => some ⟨code, 32, false, false⟩
      | none =>
          match codeOf registers16 name with
          | some code => some ⟨code, 16, false, false⟩
          | none =>
              match codeOf registers8 name with
              | some code => some ⟨code, 8, decide (name ∈ ["ah", "bh", "ch", "dh"]),
                  decide (name ∈ ["spl", "bpl", "sil", "dil"])⟩
              | none => none

def registerOperand (op : Operand) : Except AsmError RegInfo :=
  match op with
  | .register name => orThrow (lookupReg name) (failure "Invalid register")
  | _ => throw (failure "Expected register operand")

def symbolOperand (op : Operand) : Option (String × Int) :=
  match op with
  | .label name => some (name, 0)
  | .symbolExpr name addend => some (name, addend)
  | _ => none

/-! ## Prefixes -/

def emitOperandSizePrefix (c : Code) (width : Nat) : Code := if width = 16 then c.push 0x66 else c

def emitRex (c : Code) (width : Nat) (rexR rexX rexB anyHigh8 force : Bool) :
    Except AsmError Code := do
  let rex : REX := { w := decide (width = 64), r := rexR, x := rexX, b := rexB }
  let needed := force || rex.w || rex.r || rex.x || rex.b
  require (¬ (anyHigh8 = true ∧ needed = true))
    (failure "AH/CH/DH/BH cannot be encoded with a REX prefix")
  return if needed then c.push rex.encode else c

/-! ## Operands in memory -/

def emitDisp (c : Code) (disp : Option DispKind) : Code :=
  match disp with
  | none => c
  | some (.disp8 v) => c.push (lowByte v)
  | some (.disp32 v) => c.extend (leInt 4 v)

def emitAddrTail (c : Code) (addr : EncodedAddress) : Code :=
  let c :=
    match addr.sib with
    | none => c
    | some sib => c.push (UInt8.ofNat ((sib.scale <<< 6) ||| (sib.index <<< 3) ||| sib.base))
  emitDisp c addr.disp

def emitRegReg (c : Code) (opcode : UInt8) (dst src : RegInfo) : Except AsmError Code := do
  let c := emitOperandSizePrefix c dst.width
  let c ← emitRex c dst.width (decide (8 ≤ src.code)) false (decide (8 ≤ dst.code))
    (dst.high8 || src.high8) (dst.rex8 || src.rex8)
  let c := c.push opcode
  return c.push (ModRM.mk 0b11 src.code dst.code).encode

def validateMemoryWidth (mem : MemoryOperand) (width : Nat) : Except AsmError Unit :=
  require (mem.width = none ∨ mem.width = some width)
    (failure "Memory width conflicts with register-derived width")

def relativeAddend (displacement : Int) : Except AsmError Int :=
  orThrow (toI64 (displacement - 4)) (failure "Relative relocation addend overflow")

def memoryAddress (mem : MemoryOperand) : Except AsmError EncodedAddress :=
  if mem.symbol = none then encodeAddress mem 64
  else do
    require (¬ (mem.base.isSome ∨ mem.index.isSome))
      (failure "symbol + register memory form is not implemented yet")
    -- The linker applies the checked symbol value plus addend.
    encodeAddress { mem with
      symbol := none
      disp := 0
      addressMode := if mem.addressMode = .default then .relative else mem.addressMode } 64

/-- What is added to the symbol of a displacement in front of `trailing` immediate bytes. -/
def memoryAddend (mem : MemoryOperand) (trailing : Nat) : Except AsmError Int :=
  if mem.addressMode = .absolute then return mem.disp
  else do
    let addend ← relativeAddend mem.disp
    orThrow (toI64 (addend - trailing)) (failure "Relative relocation addend overflow")

/-- The relocation of the displacement, if the operand has a symbol. -/
def relocateMemory (c : Code) (addr : EncodedAddress) (mem : MemoryOperand) (trailing : Nat) :
    Except AsmError Code :=
  match mem.symbol with
  | none => return c
  | some symbol => do
      let addend ← memoryAddend mem trailing
      return c.relocate {
        offset := c.bytes.length + if addr.sib.isSome then 1 else 0
        symbol := symbol
        kind := if mem.addressMode = .absolute then .signedAbsolute32 else .relative32
        addend := addend }

/-- Prefixes in front of the REX prefix belong to each instruction. -/
def emitMemoryOperation (c : Code) (opcodes : List UInt8) (reg : RegInfo) (mem : MemoryOperand)
    (rexWidth trailing : Nat) : Except AsmError Code := do
  let addr ← memoryAddress mem
  let c ← emitRex c rexWidth (decide (8 ≤ reg.code)) addr.rexX addr.rexB reg.high8 reg.rex8
  let c := c.extend opcodes
  let c := c.push (ModRM.mk addr.modBits reg.code addr.rmBits).encode
  let c ← relocateMemory c addr mem trailing
  return emitAddrTail c addr

def emitRegMem (c : Code) (opcode : UInt8) (reg : RegInfo) (mem : MemoryOperand) :
    Except AsmError Code := do
  validateMemoryWidth mem reg.width
  let c := emitOperandSizePrefix c reg.width
  emitMemoryOperation c [opcode] reg mem reg.width 0

def emitMemReg (c : Code) (opcode : UInt8) (mem : MemoryOperand) (reg : RegInfo) :
    Except AsmError Code := emitRegMem c opcode reg mem

def emitGroupOperand (c : Code) (operand : Operand) (width rexWidth : Nat) (opcodes : List UInt8)
    (extension : Nat) : Except AsmError Code := do
  let c := emitOperandSizePrefix c width
  match operand with
  | .register _ => do
      let reg ← registerOperand operand
      require (reg.width = width) (failure "Register width does not match instruction")
      let c ← emitRex c rexWidth false false (decide (8 ≤ reg.code)) reg.high8 reg.rex8
      let c := c.extend opcodes
      return c.push (ModRM.mk 3 extension reg.code).encode
  | .memory mem => do
      validateMemoryWidth mem width
      emitMemoryOperation c opcodes ⟨extension, width, false, false⟩ mem rexWidth 0
  | _ => throw (failure "Expected register or memory operand")

end Whale.Assembler.Amd64
