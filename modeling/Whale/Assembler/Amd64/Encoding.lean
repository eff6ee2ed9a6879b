import Mathlib.Tactic.Common
import Whale.Assembler.Amd64.Ast
import Whale.Lib.Except
import Whale.Lib.TwosComplement

set_option autoImplicit false

/-! # Register names and condition codes -/

namespace Whale.Assembler.Amd64

def registers64 : List (String × Nat) :=
  [("rax", 0), ("rcx", 1), ("rdx", 2), ("rbx", 3), ("rsp", 4), ("rbp", 5), ("rsi", 6),
   ("rdi", 7), ("r8", 8), ("r9", 9), ("r10", 10), ("r11", 11), ("r12", 12), ("r13", 13),
   ("r14", 14), ("r15", 15)]

def registers32 : List (String × Nat) :=
  [("eax", 0), ("ecx", 1), ("edx", 2), ("ebx", 3), ("esp", 4), ("ebp", 5), ("esi", 6),
   ("edi", 7), ("r8d", 8), ("r9d", 9), ("r10d", 10), ("r11d", 11), ("r12d", 12), ("r13d", 13),
   ("r14d", 14), ("r15d", 15)]

def registers16 : List (String × Nat) :=
  [("ax", 0), ("cx", 1), ("dx", 2), ("bx", 3), ("sp", 4), ("bp", 5), ("si", 6), ("di", 7),
   ("r8w", 8), ("r9w", 9), ("r10w", 10), ("r11w", 11), ("r12w", 12), ("r13w", 13), ("r14w", 14),
   ("r15w", 15)]

def registers8 : List (String × Nat) :=
  [("spl", 4), ("bpl", 5), ("sil", 6), ("dil", 7), ("al", 0), ("cl", 1), ("dl", 2), ("bl", 3),
   ("ah", 4), ("ch", 5), ("dh", 6), ("bh", 7), ("r8b", 8), ("r9b", 9), ("r10b", 10),
   ("r11b", 11), ("r12b", 12), ("r13b", 13), ("r14b", 14), ("r15b", 15)]

def registersXmm : List (String × Nat) :=
  [("xmm0", 0), ("xmm1", 1), ("xmm2", 2), ("xmm3", 3), ("xmm4", 4), ("xmm5", 5), ("xmm6", 6),
   ("xmm7", 7), ("xmm8", 8), ("xmm9", 9), ("xmm10", 10), ("xmm11", 11), ("xmm12", 12),
   ("xmm13", 13), ("xmm14", 14), ("xmm15", 15)]

/-- Condition codes and their aliases. -/
def conditionCodes : List (String × Nat) :=
  [("jo", 0), ("jno", 1), ("jb", 2), ("jc", 2), ("jnae", 2), ("jae", 3), ("jnb", 3), ("jnc", 3),
   ("je", 4), ("jz", 4), ("jne", 5), ("jnz", 5), ("jbe", 6), ("jna", 6), ("ja", 7), ("jnbe", 7),
   ("js", 8), ("jns", 9), ("jp", 10), ("jpe", 10), ("jnp", 11), ("jpo", 11), ("jl", 12),
   ("jnge", 12), ("jge", 13), ("jnl", 13), ("jle", 14), ("jng", 14), ("jg", 15), ("jnle", 15)]

/-- The first entry of a name. -/
def codeOf (table : List (String × Nat)) (name : String) : Option Nat :=
  (table.find? fun e => e.1 = name).map Prod.snd

def conditionCode (mnemonic : String) : Option Nat := codeOf conditionCodes mnemonic

def xmmRegisterCode (name : String) : Option Nat := codeOf registersXmm name

theorem mem_of_codeOf {table : List (String × Nat)} {name : String} {code : Nat}
    (h : codeOf table name = some code) : (name, code) ∈ table := by
  obtain ⟨e, he, rfl⟩ := Option.map_eq_some_iff.mp h
  have hname := List.find?_some he
  simp only [decide_eq_true_eq] at hname
  rw [← hname]
  exact List.mem_of_find?_eq_some he

/-! # Encoded addresses

The fields of the ModRM and SIB bytes and of the REX prefix, and how the address of a memory
operand is put into them. -/

/-! ## Bytes with fields -/

structure ModRM where
  modBits : Nat
  reg : Nat
  rm : Nat

def ModRM.encode (m : ModRM) : UInt8 :=
  UInt8.ofNat ((m.modBits <<< 6) ||| ((m.reg &&& 7) <<< 3) ||| (m.rm &&& 7))

structure REX where
  w : Bool
  r : Bool
  x : Bool
  b : Bool

def REX.encode (rex : REX) : UInt8 :=
  UInt8.ofNat (0x40 ||| (rex.w.toNat <<< 3) ||| (rex.r.toNat <<< 2) ||| (rex.x.toNat <<< 1) |||
    rex.b.toNat)

/-! ## Addresses -/

inductive DispKind where
  | disp8 (v : Int)
  | disp32 (v : Int)

/-- The scale, index and base bits. -/
structure SIB where
  scale : Nat
  index : Nat
  base : Nat

structure EncodedAddress where
  modBits : Nat
  rmBits : Nat
  sib : Option SIB
  disp : Option DispKind
  rexB : Bool
  rexX : Bool

def regCode (name : String) (mode : Nat) : Option Nat :=
  match mode with
  | 64 => codeOf registers64 name
  | 32 => codeOf registers32 name
  | _ => none

def scaleBits : Nat → Option Nat
  | 1 => some 0
  | 2 => some 1
  | 4 => some 2
  | 8 => some 3
  | _ => none

/-- The number, if it is one of `i32`. -/
def toI32 (n : Int) : Option Int := if -2 ^ 31 ≤ n ∧ n < 2 ^ 31 then some n else none

/-- The code of a register that may be absent. -/
def codeOfPart (part : Option String) (mode : Nat) (msg : String) :
    Except AsmError (Option Nat) :=
  match part with
  | none => return none
  | some name => do
      let code ← orThrow (regCode name mode) (failure msg)
      return some code

/-- The mod bits and the displacement behind a base register. -/
def baseDisplacement (baseLow : Nat) (disp : Option DispKind) : Nat × Option DispKind :=
  match disp with
  -- Without a displacement, `rbp` and `r13` would mean something else.
  | none => if baseLow = 5 then (1, some (.disp8 0)) else (0, none)
  | some (.disp8 v) => (1, some (.disp8 v))
  | some (.disp32 v) => (2, some (.disp32 v))

def encodeAddress (mem : MemoryOperand) (mode : Nat) : Except AsmError EncodedAddress := do
  require (mem.symbol = none) (failure "symbol memory should be encoded via rip-relative path")
  if mem.addressMode ≠ .default then
    require (¬ (mode ≠ 64 ∨ mem.base.isSome ∨ mem.index.isSome ∨ mem.scale ≠ 1))
      (failure "rel/abs requires a base-less long-mode address")
    let displacement ← orThrow (toI32 mem.disp)
      (failure "rel/abs displacement is out of signed 32-bit range")
    return {
      modBits := 0
      rmBits := if mem.addressMode = .relative then 5 else 4
      sib := if mem.addressMode = .absolute then some ⟨0, 4, 5⟩ else none
      disp := some (.disp32 displacement)
      rexB := false
      rexX := false }
  else
    let base ← codeOfPart mem.base mode "Invalid base register"
    let index ← codeOfPart mem.index mode "Invalid index register"
    require (¬ (base = none ∧ index = none)) (failure "Addressing without base/index not implemented")
    let scale ← orThrow (scaleBits mem.scale) (failure "Scale must be 1/2/4/8")
    require (index ≠ some 4) (failure "rsp/esp cannot be used as index register")
    let disp32 ← orThrow (toI32 mem.disp)
      (failure "memory displacement is out of signed 32-bit range")
    let dispKind : Option DispKind :=
      if mem.disp = 0 then none
      else if -128 ≤ mem.disp ∧ mem.disp ≤ 127 then some (.disp8 mem.disp)
      else some (.disp32 disp32)
    let needSib := index.isSome || base.isNone || (base.map (· &&& 7)) == some 4
    match base, index, needSib with
    | some base, index, true =>
        let (modBits, disp) := baseDisplacement (base &&& 7) dispKind
        return {
          modBits := modBits
          rmBits := 4
          sib := some ⟨scale, (index.map (· &&& 7)).getD 4, base &&& 7⟩
          disp := disp
          rexB := decide (8 ≤ base)
          rexX := (index.map fun i => decide (8 ≤ i)).getD false }
    | some base, _, false =>
        let (modBits, disp) := baseDisplacement (base &&& 7) dispKind
        return {
          modBits := modBits
          rmBits := base &&& 7
          sib := none
          disp := disp
          rexB := decide (8 ≤ base)
          rexX := false }
    | none, some index, _ =>
        return {
          modBits := 0
          rmBits := 4
          sib := some ⟨scale, index &&& 7, 5⟩
          disp := some (.disp32 disp32)
          rexB := false
          rexX := decide (8 ≤ index) }
    | none, none, _ => throw (failure "Addressing mode is not supported yet")

end Whale.Assembler.Amd64
