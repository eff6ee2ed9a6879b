import Whale.Assembler.Fixed.Assemble

set_option autoImplicit false

/-! # The AArch64 assembler

A64 instructions with their aliases, register 31 as the stack pointer or as zero, and
relocations. -/

namespace Whale.Assembler

/-- The number of a register name after its letter, without leading zeros. -/
def canonicalNumber (digits : Text) : Option Nat :=
  if digits.all Char.isDigit && (digits.length = 1 || digits.head? ≠ some '0') then
    Text.parseU32 digits
  else none

/-- An operand; the number of operands has been checked. -/
def operand (a : List Text) (index : Nat) : Text := a.getD index []

/-- Whether a mnemonic ends with the letter. -/
def endsWith (name : String) (letter : Char) : Bool := name.toList.getLast? = some letter

namespace AArch64

open Whale.Text

/-! ## Registers -/

structure Reg where
  index : Word
  width : Nat
  sp : Bool
  zero : Bool
  deriving DecidableEq, Repr

def registerAlias (name : String) : Option Reg :=
  match name with
  | "sp" => some { index := 31, width := 64, sp := true, zero := false }
  | "wsp" => some { index := 31, width := 32, sp := true, zero := false }
  | "xzr" => some { index := 31, width := 64, sp := false, zero := true }
  | "wzr" => some { index := 31, width := 32, sp := false, zero := true }
  | "fp" => some { index := 29, width := 64, sp := false, zero := false }
  | "lr" => some { index := 30, width := 64, sp := false, zero := false }
  | _ => none

/-- The width of a register by the letter of its name. -/
def letterWidth : Option Char → Option Nat
  | some 'x' => some 64
  | some 'w' => some 32
  | _ => none

def reg (text : Text) : Except AsmError Reg :=
  let text := lower (trim text)
  match registerAlias (String.ofList text) with
  | some r => .ok r
  | none => do
      let width ← orThrow (letterWidth text.head?) (error (.invalidRegister "A64" text))
      let index ← orThrow ((canonicalNumber (text.drop 1)).filter (· ≤ 30))
        (error (.invalidRegister "A64" text))
      return { index := BitVec.ofNat 32 index, width := width, sp := false, zero := false }

def same (a b : Reg) : Except AsmError Unit :=
  require (a.width = b.width) (failure "register widths must match")

def noSp (r : Reg) : Except AsmError Reg := do
  require (r.sp = false) (failure "SP is not valid in this operand")
  return r

/-- The bit of the wide form of an instruction. -/
def sf (r : Reg) : Word := if r.width = 64 then 1 <<< 31 else 0

/-! ## Tables -/

def condition (name : String) : Option Word :=
  match name with
  | "eq" => some 0
  | "ne" => some 1
  | "cs" => some 2
  | "hs" => some 2
  | "cc" => some 3
  | "lo" => some 3
  | "mi" => some 4
  | "pl" => some 5
  | "vs" => some 6
  | "vc" => some 7
  | "hi" => some 8
  | "ls" => some 9
  | "ge" => some 10
  | "lt" => some 11
  | "gt" => some 12
  | "le" => some 13
  | "al" => some 14
  | "nv" => some 15
  | _ => none

def indirectTable (name : String) : Word :=
  match name with
  | "ret" => 0xd65f0000
  | "br" => 0xd61f0000
  | _ => 0xd63f0000

def wideMove (name : String) : Word :=
  match name with
  | "movz" => 0x52800000
  | "movn" => 0x12800000
  | _ => 0x72800000

def logicalTable (name : String) : Word :=
  match name with
  | "and" => 0x0a000000
  | "orr" => 0x2a000000
  | "eor" => 0x4a000000
  | _ => 0x6a000000

def adrRelocation : Nat := 274

def condbr19Relocation : Nat := 280

def jump26Relocation : Nat := 282

def call26Relocation : Nat := 283

/-! ## Operands -/

def shiftKind (name : String) : Option Word :=
  match name with
  | "lsl" => some 0
  | "lsr" => some 1
  | "asr" => some 2
  | "ror" => some 3
  | _ => none

/-- The kind and the amount of a shift. -/
def shift (text : Text) (width : Nat) : Except AsmError (Word × Word) :=
  match words text with
  | [kind, amount] => do
      let kind ← orThrow (shiftKind (String.ofList (lower kind)))
        (failure "unsupported shift kind")
      let amount ← unsigned amount (if width = 64 then 6 else 5)
      return (kind, amount)
  | _ => .error (failure "shift requires kind and amount")

structure Memory where
  base : Reg
  offset : Int

def memory (text : Text) : Except AsmError Memory := do
  let inside ← orThrow ((stripPrefix ['['] text).bind (stripSuffix [']']))
    (failure "memory operand requires [base, #offset]; writeback is unsupported")
  let parts ← operands inside
  require (1 ≤ parts.length ∧ parts.length ≤ 2)
    (failure "memory operand accepts a base and immediate offset")
  let base ← reg (operand parts 0)
  require (base.width = 64 ∧ base.zero = false) (failure "memory base requires X0..X30 or SP")
  let offset ← if parts.length = 2 then integer (operand parts 1) else .ok 0
  return { base := base, offset := offset }

/-! ## Branches -/

def direct (link : Bool) (offset : Int) : Except AsmError Word := do
  let imm ← displacement offset 26 4
  return (if link then 0x94000000 else 0x14000000) ||| imm

def conditional (condition : Word) (offset : Int) : Except AsmError Word := do
  let imm ← displacement offset 19 4
  return 0x54000000 ||| imm <<< 5 ||| condition

/-- One bit. -/
def flag (b : Bool) : Word := if b then 1 else 0

def compare (nonzero wide : Bool) (register : Word) (offset : Int) : Except AsmError Word := do
  let imm ← displacement offset 19 4
  return 0x34000000 ||| flag wide <<< 31 ||| flag nonzero <<< 24 ||| imm <<< 5 ||| register

def address (register : Word) (offset : Int) : Except AsmError Word := do
  let imm ← displacement offset 21 1
  return 0x10000000 ||| (imm &&& 3) <<< 29 ||| (imm >>> 2) <<< 5 ||| register

def encodeDirect (link : Bool) (inst : Instruction) (cx : Context) :
    Except AsmError (Word × Context) := do
  let a ← count inst 1
  let (offset, cx) ← cx.pcRelative (operand a 0)
    (if link then call26Relocation else jump26Relocation)
  let word ← direct link offset
  return (word, cx)

def encodeCompare (nonzero : Bool) (inst : Instruction) (cx : Context) :
    Except AsmError (Word × Context) := do
  let a ← count inst 2
  let rt ← reg (operand a 0)
  let rt ← noSp rt
  let (offset, cx) ← cx.pcRelative (operand a 1) condbr19Relocation
  let word ← compare nonzero (rt.width = 64) rt.index offset
  return (word, cx)

def encodeAddress (inst : Instruction) (cx : Context) : Except AsmError (Word × Context) := do
  let a ← count inst 2
  let rd ← reg (operand a 0)
  let rd ← noSp rd
  require (rd.width = 64) (failure "adr requires an X register")
  let (offset, cx) ← cx.pcRelative (operand a 1) adrRelocation
  let word ← address rd.index offset
  return (word, cx)

/-- A branch on the condition after `b.`. -/
def encodeConditional (name : Text) (inst : Instruction) (cx : Context) :
    Except AsmError (Word × Context) := do
  let condition ← orThrow (condition (String.ofList name))
    (failure "invalid A64 branch condition")
  let a ← count inst 1
  let (offset, cx) ← cx.pcRelative (operand a 0) condbr19Relocation
  let word ← conditional condition offset
  return (word, cx)

/-! ## Moves -/

/-- The lane that holds all bits of a pattern. -/
def moveLane (mnemonic : String) (rd : Reg) (pattern : BitVec 64) : Option Word :=
  ((List.range (rd.width / 16)).find? fun lane =>
      decide (pattern &&& ~~~((0xffff : BitVec 64) <<< (lane * 16)) = 0)).map fun lane =>
    wideMove mnemonic ||| sf rd ||| BitVec.ofNat 32 lane <<< 21 |||
      (pattern >>> (lane * 16)).setWidth 32 <<< 5 ||| rd.index

def movImmediate (rd : Reg) (value : Int) : Except AsmError Word := do
  let mask : BitVec 64 := BitVec.allOnes 64 >>> (64 - rd.width)
  require (-2 ^ (rd.width - 1) ≤ value ∧ value ≤ (mask.toNat : Int))
    (failure "mov immediate does not fit the destination register width")
  if -65536 ≤ value ∧ value < 0 then
    return wideMove "movn" ||| sf rd ||| (BitVec.ofInt 32 (-value - 1) &&& 0xffff) <<< 5 |||
      rd.index
  else
    let bits := BitVec.ofInt 64 value &&& mask
    orThrow ((moveLane "movz" rd bits).or (moveLane "movn" rd (~~~bits &&& mask)))
      (failure ("mov immediate requires a single 16-bit MOVZ/MOVN; " ++
        "use movz/movk for larger values"))

def encodeMov (inst : Instruction) : Except AsmError Word := do
  let a ← count inst 2
  let rd ← reg (operand a 0)
  match integer (operand a 1) with
  | .ok value => do
      let _ ← noSp rd
      movImmediate rd value
  | .error _ => do
      let rn ← reg (operand a 1)
      same rd rn
      if rd.sp = true ∨ rn.sp = true then
        require (rd.zero = false ∧ rn.zero = false) (failure "mov cannot mix SP and ZR")
        return 0x11000000 ||| sf rd ||| rn.index <<< 5 ||| rd.index
      else return 0x2a0003e0 ||| sf rd ||| rn.index <<< 16 ||| rd.index

/-- The lane of a wide move with a shift. -/
def wideShift (rd : Reg) (text : Text) : Except AsmError Word := do
  let (kind, amount) ← shift text 64
  require (kind = 0 ∧ amount.toNat % 16 = 0 ∧ amount.toNat < rd.width)
    (failure "wide move shift must be 0/16 for W, or 0/16/32/48 for X")
  return BitVec.ofNat 32 (amount.toNat / 16)

def encodeWideMove (inst : Instruction) : Except AsmError Word := do
  let a := inst.operands
  require (2 ≤ a.length ∧ a.length ≤ 3)
    (failure "wide move requires register, imm16 and optional lsl")
  let rd ← reg (operand a 0)
  let rd ← noSp rd
  let value ← unsigned (operand a 1) 16
  let shift ← if a.length = 3 then wideShift rd (operand a 2) else .ok 0
  return wideMove inst.mnemonic ||| sf rd ||| shift <<< 21 ||| value <<< 5 ||| rd.index

/-! ## Arithmetic -/

/-- The shift of an immediate. -/
def immediateShift (a : List Text) : Except AsmError Word :=
  if a.length = 4 then do
    let (kind, amount) ← shift (operand a 3) 64
    require (kind = 0 ∧ (amount = 0 ∨ amount = 12))
      (failure "immediate add/sub accepts only lsl #0 or #12")
    return flag (amount = 12)
  else .ok 0

/-- The shift of the last register. -/
def registerShift (a : List Text) (width : Nat) : Except AsmError (Word × Word) :=
  if a.length = 4 then shift (operand a 3) width else .ok (0, 0)

def arithmeticImmediate (flags : Bool) (operation : Word) (rd rn : Reg) (a : List Text) :
    Except AsmError Word := do
  require (rn.zero = false ∧ (flags = true → rd.sp = false) ∧ (flags = false → rd.zero = false))
    (failure ("immediate arithmetic uses SP for register 31, " ++
      "except the flag-setting destination"))
  let imm ← unsigned (operand a 2) 12
  let sh ← immediateShift a
  return 0x11000000 ||| sf rd ||| operation ||| sh <<< 22 ||| imm <<< 10 ||| rn.index <<< 5 |||
    rd.index

def arithmeticRegister (operation : Word) (rd rn : Reg) (a : List Text) :
    Except AsmError Word := do
  let _ ← noSp rd
  let _ ← noSp rn
  let rm ← reg (operand a 2)
  let rm ← noSp rm
  same rd rm
  let (kind, amount) ← registerShift a rd.width
  require (kind ≠ 3) (failure "add/sub does not support ror")
  return 0x0b000000 ||| sf rd ||| operation ||| kind <<< 22 ||| rm.index <<< 16 |||
    amount <<< 10 ||| rn.index <<< 5 ||| rd.index

/-- A comparison has the zero register as its destination. -/
def comparisonOperands (operands : List Text) : Except AsmError (List Text) := do
  require (operands ≠ []) (failure "comparison requires operands")
  let n ← reg (operand operands 0)
  return (if n.width = 64 then "xzr" else "wzr").toList :: operands

def encodeArithmetic (inst : Instruction) (comparison : Bool) : Except AsmError Word := do
  let m := inst.mnemonic
  let sub := m = "sub" || m = "subs" || m = "cmp"
  let flags := comparison || endsWith m 's'
  let a ← if comparison then comparisonOperands inst.operands else .ok inst.operands
  require (3 ≤ a.length ∧ a.length ≤ 4)
    (failure "arithmetic requires three operands and optional shift")
  let rd ← reg (operand a 0)
  let rn ← reg (operand a 1)
  same rd rn
  let operation := flag sub <<< 30 ||| flag flags <<< 29
  if (integer (operand a 2)).isOk = true then arithmeticImmediate flags operation rd rn a
  else arithmeticRegister operation rd rn a

def encodeLogical (inst : Instruction) : Except AsmError Word := do
  let a := inst.operands
  require (3 ≤ a.length ∧ a.length ≤ 4)
    (failure "logical register operation requires three operands and optional shift")
  let rd ← reg (operand a 0)
  let rd ← noSp rd
  let rn ← reg (operand a 1)
  let rn ← noSp rn
  let rm ← reg (operand a 2)
  let rm ← noSp rm
  same rd rn
  same rd rm
  let (kind, amount) ← registerShift a rd.width
  return logicalTable inst.mnemonic ||| sf rd ||| kind <<< 22 ||| rm.index <<< 16 |||
    amount <<< 10 ||| rn.index <<< 5 ||| rd.index

def encodeShift (inst : Instruction) : Except AsmError Word := do
  let m := inst.mnemonic
  let a ← count inst 3
  let rd ← reg (operand a 0)
  let rd ← noSp rd
  let rn ← reg (operand a 1)
  let rn ← noSp rn
  same rd rn
  let amount ← unsigned (operand a 2) (if rd.width = 64 then 6 else 5)
  let fields : Nat × Nat :=
    if m = "lsl" then ((rd.width - amount.toNat) % rd.width, rd.width - 1 - amount.toNat)
    else (amount.toNat, rd.width - 1)
  return (if m = "asr" then 0x13000000 else 0x53000000) ||| sf rd |||
    flag (rd.width = 64) <<< 22 ||| BitVec.ofNat 32 fields.1 <<< 16 |||
    BitVec.ofNat 32 fields.2 <<< 10 ||| rn.index <<< 5 ||| rd.index

/-! ## Memory -/

def signedOffset (value : Int) : Except AsmError Word := do
  require (-256 ≤ value ∧ value < 256)
    (failure "unscaled load/store offset must fit signed 9 bits")
  return BitVec.ofInt 32 value &&& 0x1ff

/-- The logarithm of the bytes of a transfer. -/
def transferSize (m : String) (rt : Reg) : Nat :=
  if endsWith m 'b' then 0
  else if endsWith m 'h' then 1
  else if rt.width = 64 then 3
  else 2

def scaledOffset (offset : Int) (size : Nat) : Except AsmError Word := do
  let scale : Int := 2 ^ size
  require (0 ≤ offset ∧ offset.tmod scale = 0 ∧ offset.tdiv scale ≤ 4095)
    (failure "unsigned load/store offset must be scaled, nonnegative and fit 12 bits")
  return BitVec.ofInt 32 (offset.tdiv scale) <<< 10

def encodeMemory (inst : Instruction) : Except AsmError Word := do
  let a ← count inst 2
  let rt ← reg (operand a 0)
  let rt ← noSp rt
  let address ← memory (operand a 1)
  let m := inst.mnemonic
  let load := m.toList.take 2 = ['l', 'd']
  let size := transferSize m rt
  require (size < 2 → rt.width = 32) (failure "byte/halfword transfer requires a W register")
  require (m = "ldrsw" → rt.width = 64) (failure "ldrsw requires an X register")
  let fields := address.base.index <<< 5 ||| rt.index
  if m = "ldur" ∨ m = "stur" then
    let imm ← signedOffset address.offset
    return 0x38000000 ||| BitVec.ofNat 32 size <<< 30 ||| flag load <<< 22 ||| imm <<< 12 |||
      fields
  else if m = "ldrsw" then
    let imm ← scaledOffset address.offset 2
    return 0xb9800000 ||| imm ||| fields
  else
    let imm ← scaledOffset address.offset size
    return 0x39000000 ||| BitVec.ofNat 32 size <<< 30 ||| flag load <<< 22 ||| imm ||| fields

/-! ## Instructions -/

def encodeIndirect (inst : Instruction) : Except AsmError Word := do
  let a ← if inst.mnemonic = "ret" ∧ inst.operands = [] then .ok ["x30".toList]
    else count inst 1
  let register ← reg (operand a 0)
  require (register.width = 64 ∧ register.index ≠ 31)
    (failure "indirect control flow requires X0..X30")
  return indirectTable inst.mnemonic ||| register.index <<< 5

def encodeException (inst : Instruction) (opcode : Word) : Except AsmError Word := do
  let a ← count inst 1
  let imm ← unsigned (operand a 0) 16
  return opcode ||| imm <<< 5

def encodeNop (inst : Instruction) : Except AsmError Word := do
  let _ ← count inst 0
  return 0xd503201f

/-- An instruction that does not refer to its own place. -/
def encodePlain (inst : Instruction) : Except AsmError Word :=
  match inst.mnemonic with
  | "nop" => encodeNop inst
  | "ret" => encodeIndirect inst
  | "br" => encodeIndirect inst
  | "blr" => encodeIndirect inst
  | "svc" => encodeException inst 0xd4000001
  | "brk" => encodeException inst 0xd4200000
  | "mov" => encodeMov inst
  | "movz" => encodeWideMove inst
  | "movn" => encodeWideMove inst
  | "movk" => encodeWideMove inst
  | "add" => encodeArithmetic inst false
  | "adds" => encodeArithmetic inst false
  | "sub" => encodeArithmetic inst false
  | "subs" => encodeArithmetic inst false
  | "cmp" => encodeArithmetic inst true
  | "cmn" => encodeArithmetic inst true
  | "and" => encodeLogical inst
  | "ands" => encodeLogical inst
  | "orr" => encodeLogical inst
  | "eor" => encodeLogical inst
  | "lsl" => encodeShift inst
  | "lsr" => encodeShift inst
  | "asr" => encodeShift inst
  | "ldr" => encodeMemory inst
  | "str" => encodeMemory inst
  | "ldrb" => encodeMemory inst
  | "strb" => encodeMemory inst
  | "ldrh" => encodeMemory inst
  | "strh" => encodeMemory inst
  | "ldrsw" => encodeMemory inst
  | "ldur" => encodeMemory inst
  | "stur" => encodeMemory inst
  | m => .error (error (.unsupportedInstruction "A64" m))

def encode (inst : Instruction) (cx : Context) : Except AsmError (Word × Context) :=
  match inst.mnemonic with
  | "b" => encodeDirect false inst cx
  | "bl" => encodeDirect true inst cx
  | "cbz" => encodeCompare false inst cx
  | "cbnz" => encodeCompare true inst cx
  | "adr" => encodeAddress inst cx
  | m =>
      match stripPrefix ['b', '.'] m.toList with
      | some name => encodeConditional name inst cx
      | none => do
          let word ← encodePlain inst
          return (word, cx)

end AArch64

end Whale.Assembler

namespace Whale.Assembler

def aArch64 : FixedIsa where
  id := "aarch64"
  hashComments := false
  encode := AArch64.encode

end Whale.Assembler
