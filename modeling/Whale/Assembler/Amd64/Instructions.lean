import Whale.Assembler.Amd64.Emit

set_option autoImplicit false

/-! # Instructions

One function for each family of instructions. Jumps are the only ones whose bytes depend on where
the instruction and its target are. -/

namespace Whale.Assembler.Amd64

/-- `n` is a number of `i8`. -/
def inI8 (n : Int) : Prop := -128 ≤ n ∧ n ≤ 127

/-- `n` is a number of `i32`. -/
def inI32 (n : Int) : Prop := -2 ^ 31 ≤ n ∧ n < 2 ^ 31

/-- `n` is a signed or unsigned number of the width. -/
def inWidth (width : Nat) (n : Int) : Prop := -2 ^ (width - 1) ≤ n ∧ n < 2 ^ width

instance (n : Int) : Decidable (inI8 n) := inferInstanceAs (Decidable (_ ∧ _))

instance (n : Int) : Decidable (inI32 n) := inferInstanceAs (Decidable (_ ∧ _))

instance (width : Nat) (n : Int) : Decidable (inWidth width n) :=
  inferInstanceAs (Decidable (_ ∧ _))

def expects (mnemonic operands : String) : AsmError := failure (mnemonic ++ " expects " ++ operands)

/-! ## Scalar floating point -/

def xmmOperand (operand : Operand) : Except AsmError Nat :=
  match operand with
  | .register name => orThrow (xmmRegisterCode name) (failure "Expected XMM0-XMM15 register")
  | _ => throw (failure "Expected XMM0-XMM15 register")

def scalarOpcode (mnemonic : String) : UInt8 :=
  if mnemonic ∈ ["movss", "movsd"] then 0x10
  else if mnemonic ∈ ["addss", "addsd"] then 0x58
  else if mnemonic ∈ ["subss", "subsd"] then 0x5c
  else if mnemonic ∈ ["mulss", "mulsd"] then 0x59
  else 0x5e

def encodeScalarSse (ins : Instruction) (c : Code) : Except AsmError Code :=
  match ins.operands with
  | [dst, src] =>
      let single := decide (ins.mnemonic ∈ ["movss", "addss", "subss", "mulss", "divss"])
      let pre : UInt8 := if single then 0xf3 else 0xf2
      let width := if single then 32 else 64
      let opcode := scalarOpcode ins.mnemonic
      -- The scalar width chooses the prefix, never REX.W or the operand-size prefix.
      match dst with
      | .memory mem => do
          require (ins.mnemonic ∈ ["movss", "movsd"])
            (failure "Scalar SSE arithmetic destination must be XMM")
          let code ← xmmOperand src
          validateMemoryWidth mem width
          let c := c.push pre
          emitMemoryOperation c [0x0f, 0x11] ⟨code, width, false, false⟩ mem 0 0
      | _ => do
          let code ← xmmOperand dst
          match src with
          | .register _ => do
              let source ← xmmOperand src
              let c := c.push pre
              let c ← emitRex c 0 (decide (8 ≤ code)) false (decide (8 ≤ source)) false false
              let c := c.extend [0x0f, opcode]
              return c.push (ModRM.mk 3 code source).encode
          | .memory mem => do
              validateMemoryWidth mem width
              let c := c.push pre
              emitMemoryOperation c [0x0f, opcode] ⟨code, width, false, false⟩ mem 0 0
          | _ => throw (failure "Scalar SSE source must be XMM or matching scalar memory")
  | _ => throw (expects ins.mnemonic "2 operands")

/-! ## Moves and arithmetic -/

/-- The immediate can be written to memory of the width. -/
def memoryImmediateFits (width : Nat) (imm : Int) : Prop :=
  match width with
  | 8 => inWidth 8 imm
  | 16 => inWidth 16 imm
  | 32 => inWidth 32 imm
  | 64 => inI32 imm
  | _ => False

instance (width : Nat) (imm : Int) : Decidable (memoryImmediateFits width imm) := by
  unfold memoryImmediateFits
  split <;> infer_instance

/-- An immediate behind a memory operand; `operation` is none for a move. -/
def encodeMemoryImmediate (mem : MemoryOperand) (imm : Int) (operation : Option Nat) (c : Code) :
    Except AsmError Code := do
  let width ← orThrow mem.width
    (failure "Ambiguous memory immediate; specify byte/word/dword/qword")
  let encodedWidth := if width = 64 then 32 else width
  require (memoryImmediateFits width imm) (failure
    "Memory immediate out of range for selected width (qword requires signed imm32)")
  let short := operation.isSome && decide (width ≠ 8) && decide (inI8 imm)
  let tail := if short then 1 else encodedWidth / 8
  let opcode : UInt8 := match operation with
    | none => if width = 8 then 0xc6 else 0xc7
    | some _ => if width = 8 then 0x80 else if short then 0x83 else 0x81
  let c := emitOperandSizePrefix c width
  let c ← emitMemoryOperation c [opcode] ⟨operation.getD 0, width, false, false⟩ mem width tail
  return c.extend (leInt tail imm)

def moveImmediate (dst : String) (imm : Int) (c : Code) : Except AsmError Code := do
  let reg ← orThrow (lookupReg dst) (failure "Invalid register")
  let low := UInt8.ofNat (reg.code &&& 7)
  match reg.width with
  | 8 => do
      require (inWidth 8 imm) (failure "imm8 out of range")
      let c ← emitRex c reg.width false false (decide (8 ≤ reg.code)) reg.high8 reg.rex8
      return (c.push (0xb0 + low)).push (lowByte imm)
  | 16 => do
      require (inWidth 16 imm) (failure "imm16 out of range")
      let c := emitOperandSizePrefix c reg.width
      let c ← emitRex c reg.width false false (decide (8 ≤ reg.code)) false false
      return (c.push (0xb8 + low)).extend (leInt 2 imm)
  | 32 => do
      require (inWidth 32 imm) (failure "imm32 out of range")
      let c ← emitRex c reg.width false false (decide (8 ≤ reg.code)) false false
      return (c.push (0xb8 + low)).extend (leInt 4 imm)
  | 64 => do
      let c ← emitRex c reg.width false false (decide (8 ≤ reg.code)) false false
      let c := c.push (0xb8 + low)
      require (-2 ^ 63 ≤ imm ∧ imm < 2 ^ 64) (failure "imm64 out of range")
      return c.extend (leInt 8 imm)
  | _ => throw (failure "Unsupported register width")

def moveSymbol (dst label : String) (addend : Int) (c : Code) : Except AsmError Code := do
  let reg ← orThrow (lookupReg dst) (failure "Invalid register")
  let low := UInt8.ofNat (reg.code &&& 7)
  match reg.width with
  | 64 => do
      let c ← emitRex c reg.width false false (decide (8 ≤ reg.code)) false false
      let c := c.push (0xb8 + low)
      let addend ← orThrow (toI64 addend) (failure "Symbol addend overflow")
      let c := c.relocate ⟨c.bytes.length, label, .absolute64, addend⟩
      return c.extend (leInt 8 0)
  | 32 => do
      let c ← emitRex c reg.width false false (decide (8 ≤ reg.code)) false false
      let c := c.push (0xb8 + low)
      let addend ← orThrow (toI64 addend) (failure "Symbol addend overflow")
      let c := c.relocate ⟨c.bytes.length, label, .absolute32, addend⟩
      return c.extend (leInt 4 0)
  | _ => throw (failure "Symbol move is supported only for r32/r64")

/-- Two registers of one width. -/
def registerPair (dst src : String) : Except AsmError (RegInfo × RegInfo) := do
  let dst ← orThrow (lookupReg dst) (failure "Invalid dst register")
  let src ← orThrow (lookupReg src) (failure "Invalid src register")
  require (dst.width = src.width) (failure "Register width mismatch")
  return (dst, src)

def encodeMov (ins : Instruction) (c : Code) : Except AsmError Code :=
  match ins.operands with
  | [.register dst, .immediate imm] => moveImmediate dst imm c
  | [.register dst, .label label] => moveSymbol dst label 0 c
  | [.register dst, .symbolExpr label addend] => moveSymbol dst label addend c
  | [.register dst, .register src] => do
      let (dst, src) ← registerPair dst src
      emitRegReg c (if dst.width = 8 then 0x88 else 0x89) dst src
  | [.register dst, .memory mem] => do
      let reg ← orThrow (lookupReg dst) (failure "Invalid register")
      emitRegMem c (if reg.width = 8 then 0x8a else 0x8b) reg mem
  | [.memory mem, .register src] => do
      let reg ← orThrow (lookupReg src) (failure "Invalid register")
      emitMemReg c (if reg.width = 8 then 0x88 else 0x89) mem reg
  | [.memory mem, .immediate imm] => encodeMemoryImmediate mem imm none c
  | [_, _] => throw (failure "Unsupported mov form")
  | _ => throw (failure "mov expects 2 operands")

/-- The opcodes of an operation with two operands. -/
structure BinaryOpcodes where
  rmR8 : UInt8
  rmR : UInt8
  rRm8 : UInt8
  rRm : UInt8
  /-- The operation in the ModRM byte of the forms with an immediate. -/
  immediate : Nat

def binopImmediate (dst : String) (imm : Int) (extension : Nat) (c : Code) :
    Except AsmError Code := do
  let reg ← orThrow (lookupReg dst) (failure "Invalid dst register")
  let c := emitOperandSizePrefix c reg.width
  let c ← emitRex c reg.width false false (decide (8 ≤ reg.code)) reg.high8 reg.rex8
  let modrm := (ModRM.mk 0b11 extension reg.code).encode
  if reg.width = 8 then
    require (inWidth 8 imm) (failure "imm8 out of range")
    return ((c.push 0x80).push modrm).push (lowByte imm)
  else if inI8 imm then
    return ((c.push 0x83).push modrm).push (lowByte imm)
  else
    let c := (c.push 0x81).push modrm
    match reg.width with
    | 16 => do
        require (inWidth 16 imm) (failure "imm16 out of range")
        return c.extend (leInt 2 imm)
    | 32 => do
        require (inWidth 32 imm) (failure "imm32 out of range")
        return c.extend (leInt 4 imm)
    | 64 => do
        require (inI32 imm) (failure "imm32-sign-extended out of range for r64")
        return c.extend (leInt 4 imm)
    | _ => throw (failure "Unsupported register width")

def encodeBinop (ins : Instruction) (op : BinaryOpcodes) (c : Code) : Except AsmError Code :=
  match ins.operands with
  | [.register dst, .register src] => do
      let (dst, src) ← registerPair dst src
      emitRegReg c (if dst.width = 8 then op.rmR8 else op.rmR) dst src
  | [.register dst, .immediate imm] => binopImmediate dst imm op.immediate c
  | [.register _, .label _] | [.register _, .symbolExpr _ _] =>
      throw (failure (ins.mnemonic ++
        " with symbolic immediate is not supported; use equ or mov reg, symbol"))
  | [.register dst, .memory mem] => do
      let reg ← orThrow (lookupReg dst) (failure "Invalid register")
      emitRegMem c (if reg.width = 8 then op.rRm8 else op.rRm) reg mem
  | [.memory mem, .register src] => do
      let reg ← orThrow (lookupReg src) (failure "Invalid register")
      emitMemReg c (if reg.width = 8 then op.rmR8 else op.rmR) mem reg
  | [.memory mem, .immediate imm] => encodeMemoryImmediate mem imm (some op.immediate) c
  | [_, _] => throw (failure ("Unsupported " ++ ins.mnemonic ++ " form"))
  | _ => throw (expects ins.mnemonic "2 operands")

def encodeImulImmediate (dst src imm : Operand) (c : Code) : Except AsmError Code := do
  let dst ← registerOperand dst
  let src ← registerOperand src
  match imm with
  | .immediate imm => do
      require (dst.width = src.width ∧ dst.width ∈ [16, 32, 64])
        (failure "imul requires matching r16/r32/r64 operands")
      let short := decide (inI8 imm)
      require (memoryImmediateFits dst.width imm)
        (failure "imul immediate out of range (imm16/imm32; r64 sign extends imm32)")
      let c := emitOperandSizePrefix c dst.width
      let c ← emitRex c dst.width (decide (8 ≤ dst.code)) false (decide (8 ≤ src.code)) false false
      let c := c.push (if short then 0x6b else 0x69)
      let c := c.push (ModRM.mk 3 dst.code src.code).encode
      if short then return c.push (lowByte imm)
      else if dst.width = 16 then return c.extend (leInt 2 imm)
      else return c.extend (leInt 4 imm)
  | _ => throw (failure "imul third operand must be immediate")

def encodeImul (ins : Instruction) (c : Code) : Except AsmError Code :=
  match ins.operands with
  | [dst, src, imm] => encodeImulImmediate dst src imm c
  | [.register dst, src] => do
      let dst ← orThrow (lookupReg dst) (failure "Invalid dst register")
      require (dst.width ≠ 8) (failure "imul reg, reg/mem is not supported for 8-bit operands")
      match src with
      | .register src => do
          let src ← orThrow (lookupReg src) (failure "Invalid src register")
          require (src.width = dst.width) (failure "Register width mismatch")
          let c := emitOperandSizePrefix c dst.width
          let c ← emitRex c dst.width (decide (8 ≤ dst.code)) false (decide (8 ≤ src.code)) false
            false
          let c := c.extend [0x0f, 0xaf]
          return c.push (ModRM.mk 0b11 dst.code src.code).encode
      | .memory mem => do
          validateMemoryWidth mem dst.width
          let c := emitOperandSizePrefix c dst.width
          emitMemoryOperation c [0x0f, 0xaf] dst mem dst.width 0
      | _ => throw (failure "imul form supported: imul reg, reg/mem")
  | [_, _] => throw (failure "imul form supported: imul reg, reg/mem")
  | _ => throw (failure "imul expects 2 or 3 operands")

def encodeLea (ins : Instruction) (c : Code) : Except AsmError Code :=
  match ins.operands with
  | [dst, src] => do
      let reg ← registerOperand dst
      require (reg.width ∈ [32, 64]) (failure "lea destination must be r32 or r64")
      match src with
      | .memory mem => emitRegMem c 0x8d reg mem
      | _ => throw (failure "lea source must be memory address")
  | _ => throw (failure "lea expects 2 operands")

/-- Two registers of one width, with an opcode for bytes and one for the other widths. -/
def encodeRegisterPair (dst src : Operand) (byteOpcode wideOpcode : UInt8) (c : Code) :
    Except AsmError Code := do
  let dst ← registerOperand dst
  let src ← registerOperand src
  require (dst.width = src.width) (failure "Register width mismatch")
  emitRegReg c (if dst.width = 8 then byteOpcode else wideOpcode) dst src

def encodeTest (ins : Instruction) (c : Code) : Except AsmError Code :=
  match ins.operands with
  | [dst, src] => encodeRegisterPair dst src 0x84 0x85 c
  | _ => throw (failure "test expects 2 operands")

def encodeCarry (ins : Instruction) (byteOpcode wideOpcode : UInt8) (c : Code) :
    Except AsmError Code :=
  match ins.operands with
  | [dst, src] => encodeRegisterPair dst src byteOpcode wideOpcode c
  | _ => throw (expects ins.mnemonic "2 register operands")

def encodeUnaryRegister (ins : Instruction) (extension : Nat) (c : Code) : Except AsmError Code :=
  match ins.operands with
  | [dst] => do
      let reg ← registerOperand dst
      let c := emitOperandSizePrefix c reg.width
      let c ← emitRex c reg.width false false (decide (8 ≤ reg.code)) reg.high8 reg.rex8
      let c := c.push (if reg.width = 8 then 0xf6 else 0xf7)
      return c.push (ModRM.mk 3 extension reg.code).encode
  | _ => throw (expects ins.mnemonic "1 operand")

/-- The opcode of a shift and its immediate. -/
def shiftCount (width : Nat) (count : Operand) : Except AsmError (UInt8 × Option UInt8) :=
  match count with
  | .immediate n =>
      if n = 1 then return (if width = 8 then 0xd0 else 0xd1, none)
      else do
        require (0 ≤ n ∧ n ≤ 255) (failure "Shift count must be CL or unsigned imm8")
        return (if width = 8 then 0xc0 else 0xc1, some (lowByte n))
  | .register name => do
      require (name = "cl") (failure "Shift count must be CL or unsigned imm8")
      return (if width = 8 then 0xd2 else 0xd3, none)
  | _ => throw (failure "Shift count must be CL or unsigned imm8")

def encodeShift (ins : Instruction) (extension : Nat) (c : Code) : Except AsmError Code :=
  match ins.operands with
  | [dst, count] => do
      let reg ← registerOperand dst
      let (opcode, immediate) ← shiftCount reg.width count
      let c := emitOperandSizePrefix c reg.width
      let c ← emitRex c reg.width false false (decide (8 ≤ reg.code)) reg.high8 reg.rex8
      let c := (c.push opcode).push (ModRM.mk 3 extension reg.code).encode
      return c.extend immediate.toList
  | _ => throw (expects ins.mnemonic "2 operands")

/-! ## Conditions -/

/-- The condition that follows a prefix of the mnemonic, such as `e` in `sete`. -/
def prefixedCondition (mnemonic pre : String) : Option Nat := do
  let suffix ← mnemonic.toList.dropPrefix? pre.toList
  let e ← conditionCodes.find? fun e => e.1.toList.dropPrefix? ['j'] == some suffix
  return e.2

def encodeSetcc (ins : Instruction) (condition : Nat) (c : Code) : Except AsmError Code :=
  match ins.operands with
  | [dst] => emitGroupOperand c dst 8 8 [0x0f, 0x90 + UInt8.ofNat condition] 0
  | _ => throw (failure "setcc expects 1 byte operand")

def encodeCmovcc (ins : Instruction) (condition : Nat) (c : Code) : Except AsmError Code :=
  match ins.operands with
  | [dst, src] => do
      let dst ← registerOperand dst
      let src ← registerOperand src
      require (dst.width = src.width ∧ dst.width ∈ [16, 32, 64])
        (failure "cmovcc requires matching r16/r32/r64 registers")
      let c := emitOperandSizePrefix c dst.width
      let c ← emitRex c dst.width (decide (8 ≤ dst.code)) false (decide (8 ≤ src.code)) false false
      let c := c.extend [0x0f, 0x40 + UInt8.ofNat condition]
      return c.push (ModRM.mk 3 dst.code src.code).encode
  | _ => throw (failure "cmovcc expects 2 register operands")

/-! ## Extensions and the stack -/

def extensionOpcode (mnemonic : String) (srcWidth : Nat) : List UInt8 :=
  if mnemonic = "movsxd" then [0x63]
  else if mnemonic = "movzx" ∧ srcWidth = 8 then [0x0f, 0xb6]
  else if mnemonic = "movzx" ∧ srcWidth = 16 then [0x0f, 0xb7]
  else if mnemonic = "movsx" ∧ srcWidth = 8 then [0x0f, 0xbe]
  else [0x0f, 0xbf]

def extensionValid (mnemonic : String) (dstWidth srcWidth : Nat) : Prop :=
  if mnemonic = "movsxd" then dstWidth = 64 ∧ srcWidth = 32
  else (srcWidth = 8 ∧ dstWidth ∈ [16, 32, 64]) ∨ (srcWidth = 16 ∧ dstWidth ∈ [32, 64])

instance (mnemonic : String) (dstWidth srcWidth : Nat) :
    Decidable (extensionValid mnemonic dstWidth srcWidth) := by
  unfold extensionValid
  split <;> infer_instance

def extensionSourceWidth (src : Operand) : Except AsmError Nat :=
  match src with
  | .register _ => do
      let reg ← registerOperand src
      return reg.width
  | .memory mem =>
      orThrow mem.width (failure "Extension memory source requires byte/word/dword width")
  | _ => throw (failure "Extension source must be register or memory")

def encodeExtension (ins : Instruction) (c : Code) : Except AsmError Code :=
  match ins.operands with
  | [dst, src] => do
      let dst ← registerOperand dst
      let srcWidth ← extensionSourceWidth src
      require (extensionValid ins.mnemonic dst.width srcWidth)
        (failure "Invalid extension source/destination width pair")
      let opcode := extensionOpcode ins.mnemonic srcWidth
      let c := emitOperandSizePrefix c dst.width
      match src with
      | .memory mem => emitMemoryOperation c opcode dst mem dst.width 0
      | _ => do
          let src ← registerOperand src
          let c ← emitRex c dst.width (decide (8 ≤ dst.code)) false (decide (8 ≤ src.code))
            src.high8 src.rex8
          let c := c.extend opcode
          return c.push (ModRM.mk 3 dst.code src.code).encode
  | _ => throw (expects ins.mnemonic "2 operands")

def encodePushImmediate (ins : Instruction) (imm : Int) (c : Code) : Except AsmError Code := do
  require (ins.operands.length = 1) (failure "push expects 1 operand")
  if inI8 imm then return c.extend [0x6a, lowByte imm]
  else do
    require (inI32 imm)
      (failure "push immediate requires signed imm8 or signed imm32 in AMD64 mode")
    return (c.push 0x68).extend (leInt 4 imm)

def encodePushPop (ins : Instruction) (baseOpcode : UInt8) (c : Code) : Except AsmError Code :=
  match ins.operands with
  | [.register name] => do
      let reg ← orThrow (lookupReg name) (failure "Invalid register")
      require (reg.width = 16 ∨ reg.width = 64)
        (failure "push/pop currently support only r16/r64 in amd64 mode")
      let c := emitOperandSizePrefix c reg.width
      let c ← emitRex c 0 false false (decide (8 ≤ reg.code)) false false
      return c.push (baseOpcode + UInt8.ofNat (reg.code &&& 7))
  | [_] => throw (failure (ins.mnemonic ++ " only supports registers for now"))
  | _ => throw (expects ins.mnemonic "1 operand")

/-! ## Jumps -/

/-- A near indirect branch has 64 bits without REX.W. -/
def encodeIndirectBranch (ins : Instruction) (c : Code) : Except AsmError Code :=
  match ins.operands with
  | [operand] => emitGroupOperand c operand 64 0 [0xff] (if ins.mnemonic = "call" then 2 else 4)
  | _ => throw (expects ins.mnemonic "1 operand")

structure BranchRelaxation where
  previousLen : Nat
  forceNear : Bool

structure JumpSpec where
  nearOpcode : List UInt8
  shortOpcode : Option UInt8
  nearLen : Nat

/-- The section and the offset of each label. -/
abbrev LabelLocations := AssocMap String (Nat × Nat)

/-- The displacement of a short jump, if there is one that fits. -/
def shortDisplacement (spec : JumpSpec) (relaxation : BranchRelaxation) (offset target : Nat) :
    Option (UInt8 × Int) := do
  let opcode ← spec.shortOpcode.filter fun _ => !relaxation.forceNear
  -- A forward target moves when this branch itself shrinks.
  let ownShrink := if offset < target then relaxation.previousLen - 2 else 0
  let disp : Int := target - ownShrink - (offset + 2)
  if inI8 disp then return (opcode, disp) else none

def encodeJump (ins : Instruction) (spec : JumpSpec) (relaxation : BranchRelaxation) (c : Code)
    (currentSection currentOffset : Nat) (labelLocs : LabelLocations) : Except AsmError Code :=
  match ins.operands with
  | [operand] => do
      let (label, addend) ← orThrow (symbolOperand operand)
        (failure (ins.mnemonic ++ " only supports labels for now"))
      require (addend = 0) (failure (ins.mnemonic ++ " does not support label addends"))
      match (labelLocs.get label).filter fun e => e.1 = currentSection with
      | some (_, target) =>
          match shortDisplacement spec relaxation currentOffset target with
          | some (opcode, disp) => return c.extend [opcode, lowByte disp]
          | none => do
              let disp : Int := target - (currentOffset + spec.nearLen)
              require (inI32 disp) (failure (ins.mnemonic ++ " target '" ++ label ++
                "' is out of 32-bit relative range"))
              return (c.extend spec.nearOpcode).extend (leInt 4 disp)
      | none => do
          let c := c.extend spec.nearOpcode
          let c := c.relocate ⟨c.bytes.length, label, .branch32, -4⟩
          return c.extend (leInt 4 0)
  | _ => throw (expects ins.mnemonic "1 operand")

def encodeLoop (ins : Instruction) (c : Code) : Except AsmError Code :=
  match ins.operands with
  | [operand] => do
      let (label, addend) ← orThrow (symbolOperand operand)
        (failure "loop only supports labels for now")
      require (addend = 0) (failure "loop does not support label addends")
      let c := c.push 0xe2
      let c := c.relocate ⟨c.bytes.length, label, .relative8, -1⟩
      return c.push 0
  | _ => throw (failure "loop expects 1 operand")

/-! ## Dispatch -/

def jumpSpec : JumpSpec where
  nearOpcode := [0xe9]
  shortOpcode := some 0xeb
  nearLen := 5

def callSpec : JumpSpec where
  nearOpcode := [0xe8]
  shortOpcode := none
  nearLen := 5

def conditionSpec (condition : Nat) : JumpSpec where
  nearOpcode := [0x0f, 0x80 + UInt8.ofNat condition]
  shortOpcode := some (0x70 + UInt8.ofNat condition)
  nearLen := 6

def addOpcodes : BinaryOpcodes := ⟨0x00, 0x01, 0x02, 0x03, 0⟩

def subOpcodes : BinaryOpcodes := ⟨0x28, 0x29, 0x2a, 0x2b, 5⟩

def andOpcodes : BinaryOpcodes := ⟨0x20, 0x21, 0x22, 0x23, 4⟩

def orOpcodes : BinaryOpcodes := ⟨0x08, 0x09, 0x0a, 0x0b, 1⟩

def xorOpcodes : BinaryOpcodes := ⟨0x30, 0x31, 0x32, 0x33, 6⟩

def cmpOpcodes : BinaryOpcodes := ⟨0x38, 0x39, 0x3a, 0x3b, 7⟩

/-- The families of mnemonics, with what tells their members apart. -/
inductive Family where
  /-- No operands, always the same bytes. -/
  | plain (bytes : List UInt8)
  | scalarSse
  | mov
  | extension
  | carry (byteOpcode wideOpcode : UInt8)
  | setcc (condition : Nat)
  | cmovcc (condition : Nat)
  | binop (opcodes : BinaryOpcodes)
  | imul
  | lea
  | test
  | unaryRegister (extension : Nat)
  | shift (extension : Nat)
  | push
  | pop
  /-- A branch to a label, or through a register or memory. -/
  | branch (spec : JumpSpec)
  | condition (spec : JumpSpec)
  | loop

def families : List (String × Family) :=
  [("ret", .plain [0xc3]), ("nop", .plain [0x90]), ("syscall", .plain [0x0f, 0x05]),
   ("int3", .plain [0xcc]), ("cwd", .plain [0x66, 0x99]), ("cdq", .plain [0x99]),
   ("cqo", .plain [0x48, 0x99]),
   ("movss", .scalarSse), ("movsd", .scalarSse), ("addss", .scalarSse), ("addsd", .scalarSse),
   ("subss", .scalarSse), ("subsd", .scalarSse), ("mulss", .scalarSse), ("mulsd", .scalarSse),
   ("divss", .scalarSse), ("divsd", .scalarSse),
   ("mov", .mov), ("movzx", .extension), ("movsx", .extension), ("movsxd", .extension),
   ("adc", .carry 0x10 0x11), ("sbb", .carry 0x18 0x19),
   ("add", .binop addOpcodes), ("sub", .binop subOpcodes), ("and", .binop andOpcodes),
   ("or", .binop orOpcodes), ("xor", .binop xorOpcodes), ("cmp", .binop cmpOpcodes),
   ("imul", .imul), ("lea", .lea), ("test", .test),
   ("not", .unaryRegister 2), ("neg", .unaryRegister 3), ("div", .unaryRegister 6),
   ("idiv", .unaryRegister 7),
   ("shl", .shift 4), ("sal", .shift 4), ("shr", .shift 5), ("sar", .shift 7),
   ("push", .push), ("pop", .pop),
   ("jmp", .branch jumpSpec), ("call", .branch callSpec), ("loop", .loop)]

def familyOf (mnemonic : String) : Option Family :=
  match families.find? fun e => e.1 = mnemonic with
  | some e => some e.2
  | none =>
      match prefixedCondition mnemonic "set", prefixedCondition mnemonic "cmov",
        conditionCode mnemonic with
      | some condition, _, _ => some (.setcc condition)
      | none, some condition, _ => some (.cmovcc condition)
      | none, none, some condition => some (.condition (conditionSpec condition))
      | none, none, none => none

/-- A mnemonic of a family is in the table or ends with a condition. -/
theorem familyOf_cases {mnemonic : String} {f : Family} (h : familyOf mnemonic = some f) :
    (mnemonic, f) ∈ families ∨
    (∃ condition, prefixedCondition mnemonic "set" = some condition ∧ f = .setcc condition) ∨
    (∃ condition, prefixedCondition mnemonic "cmov" = some condition ∧ f = .cmovcc condition) ∨
    ∃ condition, conditionCode mnemonic = some condition ∧
      f = .condition (conditionSpec condition) := by
  unfold familyOf at h
  cases hfind : families.find? fun e => e.1 = mnemonic with
  | some e =>
      rw [hfind] at h
      cases h
      have hname := List.find?_some hfind
      rw [decide_eq_true_eq] at hname
      rw [← hname]
      exact Or.inl (List.mem_of_find?_eq_some hfind)
  | none =>
      rw [hfind] at h
      simp only at h
      split at h
      · rename_i hset
        cases h
        exact Or.inr (Or.inl ⟨_, hset, rfl⟩)
      · rename_i hcmov
        cases h
        exact Or.inr (Or.inr (Or.inl ⟨_, hcmov, rfl⟩))
      · rename_i hcondition
        cases h
        exact Or.inr (Or.inr (Or.inr ⟨_, hcondition, rfl⟩))
      · cases h

/-- The first operand is a register or in memory. -/
def isIndirect (ins : Instruction) : Bool :=
  match ins.operands.head? with
  | some (.register _) | some (.memory _) => true
  | _ => false

def encodePush (ins : Instruction) (c : Code) : Except AsmError Code :=
  match ins.operands.head? with
  | some (.immediate imm) => encodePushImmediate ins imm c
  | _ => encodePushPop ins 0x50 c

def encodeInstruction (ins : Instruction) (c : Code) (currentSection currentOffset : Nat)
    (labelLocs : LabelLocations) (relaxation : BranchRelaxation) : Except AsmError Code :=
  match familyOf ins.mnemonic with
  | some (.plain bytes) => do
      require (ins.operands = []) (expects ins.mnemonic "0 operands")
      return c.extend bytes
  | some .scalarSse => encodeScalarSse ins c
  | some .mov => encodeMov ins c
  | some .extension => encodeExtension ins c
  | some (.carry byteOpcode wideOpcode) => encodeCarry ins byteOpcode wideOpcode c
  | some (.setcc condition) => encodeSetcc ins condition c
  | some (.cmovcc condition) => encodeCmovcc ins condition c
  | some (.binop opcodes) => encodeBinop ins opcodes c
  | some .imul => encodeImul ins c
  | some .lea => encodeLea ins c
  | some .test => encodeTest ins c
  | some (.unaryRegister extension) => encodeUnaryRegister ins extension c
  | some (.shift extension) => encodeShift ins extension c
  | some .push => encodePush ins c
  | some .pop => encodePushPop ins 0x58 c
  | some (.branch spec) =>
      if isIndirect ins then encodeIndirectBranch ins c
      else encodeJump ins spec relaxation c currentSection currentOffset labelLocs
  | some (.condition spec) =>
      encodeJump ins spec relaxation c currentSection currentOffset labelLocs
  | some .loop => encodeLoop ins c
  | none => throw (failure ("Unknown mnemonic " ++ ins.mnemonic))

end Whale.Assembler.Amd64
