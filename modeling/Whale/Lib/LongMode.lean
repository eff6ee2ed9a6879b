import Whale.Lib.TwosComplement

set_option autoImplicit false

/-! # Instructions of the 64-bit mode

How the bytes of an instruction are taken apart: legacy prefixes, a REX prefix, the opcode, the
ModRM and SIB bytes, a displacement and an immediate. -/

namespace Whale.LongMode

/-! ## Prefixes -/

structure Rex where
  w : Bool
  r : Bool
  x : Bool
  b : Bool
  deriving DecidableEq

namespace Rex

def byte (rex : Rex) : UInt8 :=
  UInt8.ofNat (64 + 8 * rex.w.toNat + 4 * rex.r.toNat + 2 * rex.x.toNat + rex.b.toNat)

def ofByte (byte : UInt8) : Option Rex :=
  if byte.toNat / 16 = 4 then
    some ⟨byte.toNat.testBit 3, byte.toNat.testBit 2, byte.toNat.testBit 1, byte.toNat.testBit 0⟩
  else none

theorem byte_plain (rex : Rex) : rex.byte ≠ 0x66 ∧ rex.byte ≠ 0xf2 ∧ rex.byte ≠ 0xf3 := by
  obtain ⟨w, r, x, b⟩ := rex
  revert w r x b
  decide

/-- What holds without a REX prefix. -/
def absent : Rex := ⟨false, false, false, false⟩

theorem ofByte_byte (rex : Rex) : ofByte rex.byte = some rex := by
  obtain ⟨w, r, x, b⟩ := rex
  revert w r x b
  decide

end Rex

/-- The high bit of a register number. -/
def extend (bit : Bool) (low : Nat) : Nat := if bit then low + 8 else low

structure Prefixes where
  /-- The operand-size prefix. -/
  operandSize : Bool
  /-- The last of the repeat prefixes. -/
  rep : Option UInt8
  rex : Option Rex
  deriving DecidableEq

namespace Prefixes

def bytes (p : Prefixes) : List UInt8 :=
  (if p.operandSize then [0x66] else []) ++ p.rep.toList ++ (p.rex.map Rex.byte).toList

def rexBits (p : Prefixes) : Rex := p.rex.getD Rex.absent

/-- The width of an operand that is not a byte. -/
def width (p : Prefixes) : Nat := if p.rexBits.w then 64 else if p.operandSize then 16 else 32

def none : Prefixes := ⟨false, .none, .none⟩

end Prefixes

/-- A REX prefix is the last one. -/
def readPrefixes (p : Prefixes) : List UInt8 → Prefixes × List UInt8
  | [] => (p, [])
  | byte :: rest =>
      if byte = 0x66 then readPrefixes { p with operandSize := true } rest
      else if byte = 0xf2 ∨ byte = 0xf3 then readPrefixes { p with rep := some byte } rest
      else
        match Rex.ofByte byte with
        | some rex => ({ p with rex := some rex }, rest)
        | none => (p, byte :: rest)

/-- A byte that no prefix is. -/
def isOpcodeByte (byte : UInt8) : Bool :=
  byte ≠ 0x66 && byte ≠ 0xf2 && byte ≠ 0xf3 && (Rex.ofByte byte).isNone

theorem readPrefixes_opcode {byte : UInt8} (h : isOpcodeByte byte = true) (p : Prefixes)
    (rest : List UInt8) : readPrefixes p (byte :: rest) = (p, byte :: rest) := by
  simp only [isOpcodeByte, Bool.and_eq_true, decide_eq_true_eq, ne_eq,
    Option.isNone_iff_eq_none] at h
  obtain ⟨⟨⟨hsize, hne⟩, hf⟩, hrex⟩ := h
  unfold readPrefixes
  rw [if_neg hsize, if_neg (not_or.mpr ⟨hne, hf⟩), hrex]

/-- The prefixes are read back in front of an opcode. -/
theorem readPrefixes_bytes {p : Prefixes} (hrep : ∀ byte ∈ p.rep, byte = 0xf2 ∨ byte = 0xf3)
    {byte : UInt8} (h : isOpcodeByte byte = true) (rest : List UInt8) :
    readPrefixes Prefixes.none (p.bytes ++ byte :: rest) = (p, byte :: rest) := by
  obtain ⟨operandSize, rep, rex⟩ := p
  have hrexBytes : ∀ q : Prefixes, q.rex = none →
      readPrefixes q ((rex.map Rex.byte).toList ++ byte :: rest) =
        ({ q with rex := rex }, byte :: rest) := by
    intro q hq
    cases rex with
    | none =>
        obtain ⟨_, _, _⟩ := q
        cases hq
        exact readPrefixes_opcode h _ rest
    | some rex =>
        show readPrefixes q (rex.byte :: byte :: rest) = _
        unfold readPrefixes
        rw [if_neg rex.byte_plain.1, if_neg (not_or.mpr rex.byte_plain.2), Rex.ofByte_byte]
  have hrepBytes : ∀ q : Prefixes, q.rep = none → q.rex = none →
      readPrefixes q (rep.toList ++ ((rex.map Rex.byte).toList ++ byte :: rest)) =
        ({ q with rep := rep, rex := rex }, byte :: rest) := by
    intro q hq hq'
    cases rep with
    | none =>
        obtain ⟨_, _, _⟩ := q
        cases hq
        exact hrexBytes _ hq'
    | some rep =>
        show readPrefixes q (rep :: ((rex.map Rex.byte).toList ++ byte :: rest)) = _
        unfold readPrefixes
        have hbyte := hrep rep rfl
        have hplain : rep ≠ 0x66 := by
          rintro rfl
          revert hbyte
          decide
        rw [if_neg hplain, if_pos hbyte]
        exact hrexBytes { q with rep := some rep } hq'
  unfold Prefixes.bytes
  simp only [List.append_assoc]
  cases operandSize with
  | false => exact hrepBytes Prefixes.none rfl rfl
  | true =>
      show readPrefixes Prefixes.none
        (0x66 :: (rep.toList ++ ((rex.map Rex.byte).toList ++ byte :: rest))) = _
      unfold readPrefixes
      rw [if_pos rfl]
      exact hrepBytes { Prefixes.none with operandSize := true } rfl rfl

/-! ## Opcodes -/

inductive Opcode where
  | primary (byte : UInt8)
  /-- Behind the escape byte. -/
  | escaped (byte : UInt8)
  deriving DecidableEq

def Opcode.bytes : Opcode → List UInt8
  | .primary byte => [byte]
  | .escaped byte => [0x0f, byte]

def readOpcode : List UInt8 → Option (Opcode × List UInt8)
  | 0x0f :: byte :: rest => some (.escaped byte, rest)
  | byte :: rest => some (.primary byte, rest)
  | [] => none

inductive ImmediateSize where
  | none
  | byte
  | dword
  /-- As wide as the operand, but four bytes at most. -/
  | operand
  /-- As wide as the operand. -/
  | full
  deriving DecidableEq

def ImmediateSize.bytes (p : Prefixes) : ImmediateSize → Nat
  | .none => 0
  | .byte => 1
  | .dword => 4
  | .operand => if p.width = 16 then 2 else 4
  | .full => p.width / 8

/-- What follows an opcode. -/
structure Shape where
  modrm : Bool
  immediate : ImmediateSize
  deriving DecidableEq

/-- The shapes of the opcodes of general instructions and of scalar moves and arithmetic. -/
def Opcode.shape : Opcode → Option Shape
  | .primary byte =>
      let n := byte.toNat
      if n < 0x40 ∧ n % 8 < 4 then some ⟨true, .none⟩
      else if 0x50 ≤ n ∧ n < 0x60 then some ⟨false, .none⟩
      else if n ∈ [0x63, 0x84, 0x85, 0x86, 0x87, 0x88, 0x89, 0x8a, 0x8b, 0x8d] then
        some ⟨true, .none⟩
      else if n = 0x68 then some ⟨false, .operand⟩
      else if n = 0x69 ∨ n = 0x81 ∨ n = 0xc7 then some ⟨true, .operand⟩
      else if n = 0x6a ∨ (0x70 ≤ n ∧ n < 0x80) then some ⟨false, .byte⟩
      else if n ∈ [0x6b, 0x80, 0x83, 0xc0, 0xc1, 0xc6] then some ⟨true, .byte⟩
      else if n ∈ [0x90, 0x99, 0xc3, 0xcc] then some ⟨false, .none⟩
      else if 0xb0 ≤ n ∧ n < 0xb8 then some ⟨false, .byte⟩
      else if 0xb8 ≤ n ∧ n < 0xc0 then some ⟨false, .full⟩
      else if n ∈ [0xd0, 0xd1, 0xd2, 0xd3, 0xff] then some ⟨true, .none⟩
      else if n = 0xe2 ∨ n = 0xeb then some ⟨false, .byte⟩
      else if n = 0xe8 ∨ n = 0xe9 then some ⟨false, .dword⟩
      else none
  | .escaped byte =>
      let n := byte.toNat
      if n = 0x05 then some ⟨false, .none⟩
      else if 0x80 ≤ n ∧ n < 0x90 then some ⟨false, .dword⟩
      else if n ∈ [0x10, 0x11, 0x58, 0x59, 0x5c, 0x5e, 0xaf, 0xb6, 0xb7, 0xbe, 0xbf] ∨
          (0x40 ≤ n ∧ n < 0x50) ∨ (0x90 ≤ n ∧ n < 0xa0) then some ⟨true, .none⟩
      else none

/-- An opcode is no prefix, and the escape byte is no opcode of its own. -/
theorem Opcode.shape_primary {byte : UInt8} (h : (Opcode.primary byte).shape.isSome = true) :
    isOpcodeByte byte = true ∧ byte ≠ 0x0f := by
  have hall : ∀ n : Fin 256, (Opcode.primary (UInt8.ofNat n)).shape.isSome = true →
      isOpcodeByte (UInt8.ofNat n) = true ∧ UInt8.ofNat n ≠ 0x0f := by decide +kernel
  have hbyte := hall ⟨byte.toNat, byte.toNat_lt⟩
  rw [UInt8.ofNat_toNat] at hbyte
  exact hbyte h

theorem readOpcode_bytes {op : Opcode} (h : op.shape.isSome = true) (rest : List UInt8) :
    readOpcode (op.bytes ++ rest) = some (op, rest) := by
  cases op with
  | escaped byte => rfl
  | primary byte =>
      have hne := (Opcode.shape_primary h).2
      show readOpcode (byte :: rest) = _
      unfold readOpcode
      split
      · rename_i heq
        exact absurd (List.cons.inj heq).1 hne
      · rename_i heq
        cases heq
        rfl
      · rename_i heq
        cases heq

/-! ## Addresses -/

/-- The registers of 64 bits in the order of their numbers. -/
def registerNames64 : List String :=
  ["rax", "rcx", "rdx", "rbx", "rsp", "rbp", "rsi", "rdi", "r8", "r9", "r10", "r11", "r12", "r13",
   "r14", "r15"]

inductive Base where
  | none
  /-- The address of the next instruction. -/
  | next
  | register (number : Nat)
  deriving DecidableEq

structure Address where
  base : Base
  /-- The number of a register and its factor. -/
  index : Option (Nat × Nat)
  disp : Int
  deriving DecidableEq

namespace Address

/-- The address for the values of the registers and the address of the next instruction. -/
def value (a : Address) (registers : Nat → Int) (next : Int) : Int :=
  let base := match a.base with
    | .none => 0
    | .next => next
    | .register number => registers number
  base + (a.index.map fun index => registers index.1 * index.2).getD 0 + a.disp

end Address

inductive RegMem where
  | register (number : Nat)
  | memory (address : Address)
  deriving DecidableEq

def readDisp (n : Nat) (bytes : List UInt8) : Option (Int × List UInt8) :=
  if n ≤ bytes.length then some (signedValue (bytes.take n), bytes.drop n) else none

/-- The bytes of a displacement behind a base register. -/
def dispBytes : Nat → Nat
  | 1 => 1
  | 2 => 4
  | _ => 0

/-- The address of a SIB byte. -/
def readSib (rex : Rex) (mod : Nat) : List UInt8 → Option (Address × List UInt8)
  | [] => none
  | sib :: rest => do
      let scale := sib.toNat / 64
      let indexNumber := extend rex.x (sib.toNat / 8 % 8)
      let base := sib.toNat % 8
      let index := if indexNumber = 4 then none else some (indexNumber, 2 ^ scale)
      if base = 5 ∧ mod = 0 then
        let (disp, rest) ← readDisp 4 rest
        return (⟨.none, index, disp⟩, rest)
      else
        let (disp, rest) ← readDisp (dispBytes mod) rest
        return (⟨.register (extend rex.b base), index, disp⟩, rest)

def readRegMem (rex : Rex) (mod rm : Nat) (bytes : List UInt8) : Option (RegMem × List UInt8) :=
  if mod = 3 then some (.register (extend rex.b rm), bytes)
  else if rm = 4 then do
    let (address, rest) ← readSib rex mod bytes
    return (.memory address, rest)
  else if rm = 5 ∧ mod = 0 then do
    let (disp, rest) ← readDisp 4 bytes
    return (.memory ⟨.next, none, disp⟩, rest)
  else do
    let (disp, rest) ← readDisp (dispBytes mod) bytes
    return (.memory ⟨.register (extend rex.b rm), none, disp⟩, rest)

theorem readDisp_append {n : Nat} {disp : List UInt8} (h : disp.length = n) (rest : List UInt8) :
    readDisp n (disp ++ rest) = some (signedValue disp, rest) := by
  subst h
  unfold readDisp
  rw [if_pos (by simp), List.take_left, List.drop_left]

/-- The bytes behind a ModRM byte with these fields denote an address, whatever follows them. -/
def ReadsAs (x b : Bool) (mod rm : Nat) (bytes : List UInt8) (a : Address) : Prop :=
  ∀ w r rest, readRegMem ⟨w, r, x, b⟩ mod rm (bytes ++ rest) = some (.memory a, rest)

/-- The index of a SIB byte with these bits. -/
def indexOf (x : Bool) (index scale : Nat) : Option (Nat × Nat) :=
  if extend x index = 4 then none else some (extend x index, 2 ^ scale)

section

variable {x b : Bool} {mod rm : Nat} {sib : UInt8} {disp : List UInt8}

theorem ReadsAs.sibBase (hmod : mod < 3) (hbase : ¬ (sib.toNat % 8 = 5 ∧ mod = 0))
    (hdisp : disp.length = dispBytes mod) :
    ReadsAs x b mod 4 (sib :: disp) ⟨.register (extend b (sib.toNat % 8)),
      indexOf x (sib.toNat / 8 % 8) (sib.toNat / 64), signedValue disp⟩ := by
  intro w r rest
  unfold readRegMem
  rw [if_neg (by omega), if_pos rfl, List.cons_append]
  unfold readSib
  simp only
  rw [if_neg hbase, readDisp_append hdisp]
  rfl

theorem ReadsAs.sibNone (hbase : sib.toNat % 8 = 5) (hdisp : disp.length = 4) :
    ReadsAs x b 0 4 (sib :: disp)
      ⟨.none, indexOf x (sib.toNat / 8 % 8) (sib.toNat / 64), signedValue disp⟩ := by
  intro w r rest
  unfold readRegMem
  rw [if_neg (by decide), if_pos rfl, List.cons_append]
  unfold readSib
  simp only
  rw [if_pos ⟨hbase, trivial⟩, readDisp_append hdisp]
  rfl

theorem ReadsAs.next (hdisp : disp.length = 4) :
    ReadsAs x b 0 5 disp ⟨.next, none, signedValue disp⟩ := by
  intro w r rest
  unfold readRegMem
  rw [if_neg (by decide), if_neg (by decide), if_pos ⟨rfl, rfl⟩, readDisp_append hdisp]
  rfl

theorem ReadsAs.base (hmod : mod < 3) (hrm : rm ≠ 4) (hnext : ¬ (rm = 5 ∧ mod = 0))
    (hdisp : disp.length = dispBytes mod) :
    ReadsAs x b mod rm disp ⟨.register (extend b rm), none, signedValue disp⟩ := by
  intro w r rest
  unfold readRegMem
  rw [if_neg (by omega), if_neg hrm, if_neg hnext, readDisp_append hdisp]
  rfl

end

/-! ## Instructions -/

structure Decoded where
  prefixes : Prefixes
  opcode : Opcode
  /-- The register of the ModRM byte. -/
  reg : Nat
  regMem : Option RegMem
  immediate : List UInt8
  deriving DecidableEq

/-- Behind the opcode of an instruction with a ModRM byte. -/
def decodeModRM (p : Prefixes) (op : Opcode) (size : ImmediateSize) :
    List UInt8 → Option Decoded
  | [] => none
  | modrm :: rest => do
      let (regMem, rest) ← readRegMem p.rexBits (modrm.toNat / 64) (modrm.toNat % 8) rest
      if rest.length = size.bytes p then
        return ⟨p, op, extend p.rexBits.r (modrm.toNat / 8 % 8), some regMem, rest⟩
      else none

/-- The instruction that exactly these bytes are. -/
def decode (bytes : List UInt8) : Option Decoded := do
  let (p, rest) := readPrefixes Prefixes.none bytes
  let (op, rest) ← readOpcode rest
  let shape ← op.shape
  if shape.modrm then decodeModRM p op shape.immediate rest
  else if rest.length = shape.immediate.bytes p then return ⟨p, op, 0, none, rest⟩
  else none

/-- The bytes behind the prefixes do not look like prefixes. -/
theorem decode_bytes {p : Prefixes} (hrep : ∀ byte ∈ p.rep, byte = 0xf2 ∨ byte = 0xf3)
    {op : Opcode} {shape : Shape} (h : op.shape = some shape) (rest : List UInt8) :
    decode (p.bytes ++ op.bytes ++ rest) =
      if shape.modrm then decodeModRM p op shape.immediate rest
      else if rest.length = shape.immediate.bytes p then some ⟨p, op, 0, none, rest⟩
      else none := by
  have hshape : op.shape.isSome = true := by
    rw [h]
    rfl
  have hprefixes : readPrefixes Prefixes.none (p.bytes ++ (op.bytes ++ rest)) =
      (p, op.bytes ++ rest) := by
    cases op with
    | escaped byte =>
        have hescape : isOpcodeByte 0x0f = true := by decide
        exact readPrefixes_bytes hrep hescape (byte :: rest)
    | primary byte => exact readPrefixes_bytes hrep (Opcode.shape_primary hshape).1 rest
  unfold decode
  rw [List.append_assoc, hprefixes]
  simp only [readOpcode_bytes hshape, h, Option.bind_eq_bind, Option.bind_some]
  rfl

theorem decode_modrm {p : Prefixes} (hrep : ∀ byte ∈ p.rep, byte = 0xf2 ∨ byte = 0xf3)
    {op : Opcode} {size : ImmediateSize} (h : op.shape = some ⟨true, size⟩) {modrm : UInt8}
    {tail immediate : List UInt8} {regMem : RegMem}
    (hregMem : readRegMem p.rexBits (modrm.toNat / 64) (modrm.toNat % 8) (tail ++ immediate) =
      some (regMem, immediate)) (hsize : immediate.length = size.bytes p) :
    decode (p.bytes ++ op.bytes ++ modrm :: (tail ++ immediate)) =
      some ⟨p, op, extend p.rexBits.r (modrm.toNat / 8 % 8), some regMem, immediate⟩ := by
  rw [decode_bytes hrep h, if_pos rfl]
  unfold decodeModRM
  simp only [hregMem, Option.bind_eq_bind, Option.bind_some, hsize, if_true]
  rfl

/-! # Moves and arithmetic of the 64-bit mode

The operation, the width and the operands of an instruction that has been taken apart. -/

/-! ## Registers -/

/-- A register, or the second byte of one. -/
structure Register where
  number : Nat
  high : Bool
  deriving DecidableEq

namespace Register

/-- Without a REX prefix, four numbers of bytes are those of second bytes. -/
def ofNumber (width : Nat) (rex : Bool) (number : Nat) : Register :=
  if width = 8 ∧ rex = false ∧ 4 ≤ number then ⟨number - 4, true⟩ else ⟨number, false⟩

/-- The registers of a width in the order of their numbers. -/
def names : Nat → List String
  | 64 => registerNames64
  | 32 => ["eax", "ecx", "edx", "ebx", "esp", "ebp", "esi", "edi", "r8d", "r9d", "r10d", "r11d",
      "r12d", "r13d", "r14d", "r15d"]
  | 16 => ["ax", "cx", "dx", "bx", "sp", "bp", "si", "di", "r8w", "r9w", "r10w", "r11w", "r12w",
      "r13w", "r14w", "r15w"]
  | 8 => ["al", "cl", "dl", "bl", "spl", "bpl", "sil", "dil", "r8b", "r9b", "r10b", "r11b", "r12b",
      "r13b", "r14b", "r15b"]
  | _ => []

def highNames : List String := ["ah", "ch", "dh", "bh"]

def name (r : Register) (width : Nat) : Option String :=
  if r.high then if width = 8 then highNames[r.number]? else none else (names width)[r.number]?

end Register

/-! ## Operations -/

inductive Operation where
  | move
  | add
  | or
  | adc
  | sbb
  | and
  | sub
  | xor
  | compare
  | test
  | multiply
  deriving DecidableEq

/-- The operations of the group, by their numbers. -/
def arithmetic : Nat → Operation
  | 0 => .add
  | 1 => .or
  | 2 => .adc
  | 3 => .sbb
  | 4 => .and
  | 5 => .sub
  | 6 => .xor
  | _ => .compare

/-- What the operands of an opcode are. -/
inductive Form where
  | toRegMem (operation : Operation)
  | toRegister (operation : Operation)
  /-- An immediate behind the register or memory; the ModRM byte has the operation. -/
  | immediateArithmetic
  | immediateMove
  /-- An immediate for a register whose low bits are in the opcode. -/
  | immediateRegister (low : Nat)
  deriving DecidableEq

/-- The form of an opcode, and whether its operands are bytes. -/
def Opcode.form : Opcode → Option (Form × Bool)
  | .primary byte =>
      let n := byte.toNat
      let bytes := decide (n % 2 = 0)
      if n < 0x40 ∧ n % 8 < 2 then some (.toRegMem (arithmetic (n / 8)), bytes)
      else if n < 0x40 ∧ n % 8 < 4 then some (.toRegister (arithmetic (n / 8)), bytes)
      else if n = 0x80 ∨ n = 0x81 ∨ n = 0x83 then some (.immediateArithmetic, bytes)
      else if n = 0x84 ∨ n = 0x85 then some (.toRegMem .test, bytes)
      else if n = 0x88 ∨ n = 0x89 then some (.toRegMem .move, bytes)
      else if n = 0x8a ∨ n = 0x8b then some (.toRegister .move, bytes)
      else if 0xb0 ≤ n ∧ n < 0xc0 then some (.immediateRegister (n % 8), decide (n < 0xb8))
      else if n = 0xc6 ∨ n = 0xc7 then some (.immediateMove, bytes)
      else none
  | .escaped byte => if byte = 0xaf then some (.toRegister .multiply, false) else none

/-- The opcodes of an operation follow one another. -/
theorem Opcode.form_toRegMem {byte : UInt8} {k b : Nat} (hk : k < 8) (hb : b < 2)
    (h : byte.toNat = 8 * k + b) :
    (Opcode.primary byte).form = some (.toRegMem (arithmetic k), decide (b = 0)) := by
  have hdiv : byte.toNat / 8 = k := by omega
  have hbytes : byte.toNat % 2 = b := by omega
  unfold Opcode.form
  simp only
  rw [if_pos (by omega), hdiv, hbytes]

theorem Opcode.form_toRegister {byte : UInt8} {k b : Nat} (hk : k < 8) (hb : b < 2)
    (h : byte.toNat = 8 * k + 2 + b) :
    (Opcode.primary byte).form = some (.toRegister (arithmetic k), decide (b = 0)) := by
  have hdiv : byte.toNat / 8 = k := by omega
  have hbytes : byte.toNat % 2 = b := by omega
  unfold Opcode.form
  simp only
  rw [if_neg (by omega), if_pos (by omega), hdiv, hbytes]

/-! ## Meanings -/

inductive Location where
  | register (register : Register)
  | memory (address : Address)
  deriving DecidableEq

inductive Source where
  | location (location : Location)
  /-- Sign-extended to the width. -/
  | immediate (n : Int)
  deriving DecidableEq

structure Meaning where
  operation : Operation
  width : Nat
  dst : Location
  src : Source
  deriving DecidableEq

namespace Decoded

variable (d : Decoded)

/-- The register of a number. -/
def register (width number : Nat) : Location :=
  .register (Register.ofNumber width d.prefixes.rex.isSome number)

def location (width : Nat) : RegMem → Location
  | .register number => d.register width number
  | .memory address => .memory address

def immediateSource : Source := .immediate (signedValue d.immediate)

def meaningOf (width : Nat) : Form → Option RegMem → Option Meaning
  | .toRegMem operation, some regMem =>
      some ⟨operation, width, d.location width regMem, .location (d.register width d.reg)⟩
  | .toRegister operation, some regMem =>
      some ⟨operation, width, d.register width d.reg, .location (d.location width regMem)⟩
  | .immediateArithmetic, some regMem =>
      some ⟨arithmetic (d.reg % 8), width, d.location width regMem, d.immediateSource⟩
  | .immediateMove, some regMem =>
      if d.reg % 8 = 0 then some ⟨.move, width, d.location width regMem, d.immediateSource⟩
      else none
  | .immediateRegister low, none =>
      some ⟨.move, width, d.register width (extend d.prefixes.rexBits.b low), d.immediateSource⟩
  | _, _ => none

/-- A repeat prefix would make it another instruction. -/
def meaning : Option Meaning :=
  if d.prefixes.rep = none then
    d.opcode.form.bind fun (form, bytes) =>
      d.meaningOf (if bytes then 8 else d.prefixes.width) form d.regMem
  else none

theorem meaning_eq {d : Decoded} {form : Form} {bytes : Bool} (hrep : d.prefixes.rep = none)
    (hform : d.opcode.form = some (form, bytes)) :
    d.meaning = d.meaningOf (if bytes then 8 else d.prefixes.width) form d.regMem := by
  unfold meaning
  rw [if_pos hrep, hform]
  rfl

end Decoded

end Whale.LongMode
