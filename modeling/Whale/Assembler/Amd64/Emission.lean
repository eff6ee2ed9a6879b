import Whale.Assembler.Amd64.AddressDecode
import Whale.Assembler.Amd64.Instructions

set_option autoImplicit false

/-! # The forms of encoded instructions

An accepted instruction has an operand in memory, or one field with a relocation, or neither. The
form of the instructions with an operand in memory is the one of the architecture: prefixes, an
opcode, the bytes of the address and an immediate. -/

namespace Whale.Assembler.Amd64

open LongMode (Rex Prefixes Opcode ImmediateSize)

/-! ## Prefixes -/

/-- The REX prefix, where one is needed. -/
def chosenRex (width : Nat) (rexR rexX rexB force : Bool) : Option Rex :=
  if force || decide (width = 64) || rexR || rexX || rexB then
    some ⟨decide (width = 64), rexR, rexX, rexB⟩
  else none

/-- Without the prefix all its bits would be zero. -/
theorem chosenRex_bits (width : Nat) (rexR rexX rexB force : Bool) :
    (chosenRex width rexR rexX rexB force).getD Rex.absent =
      ⟨decide (width = 64), rexR, rexX, rexB⟩ := by
  unfold chosenRex
  split
  · rfl
  · rename_i hneeded
    simp only [Bool.or_eq_true, not_or, Bool.not_eq_true] at hneeded
    obtain ⟨⟨⟨⟨-, hw⟩, hr⟩, hx⟩, hb⟩ := hneeded
    rw [hw, hr, hx, hb]
    rfl

variable {width : Nat}

theorem emitRex_ok {c c' : Code} {rexR rexX rexB anyHigh8 force : Bool}
    (h : emitRex c width rexR rexX rexB anyHigh8 force = .ok c') :
    c' = c.extend ((chosenRex width rexR rexX rexB force).map Rex.byte).toList ∧
      (anyHigh8 = true → chosenRex width rexR rexX rexB force = none) := by
  obtain ⟨hhigh, h⟩ := require_then_ok_iff.mp h
  cases h
  unfold chosenRex
  by_cases hneeded : (force || decide (width = 64) || rexR || rexX || rexB) = true
  · rw [if_pos hneeded, if_pos hneeded]
    refine ⟨?_, fun h => absurd ⟨h, hneeded⟩ hhigh⟩
    rw [REX.encode_eq]
    rfl
  · rw [if_neg hneeded, if_neg hneeded]
    refine ⟨?_, fun _ => rfl⟩
    unfold Code.extend
    simp

theorem emitOperandSizePrefix_eq (c : Code) (width : Nat) :
    emitOperandSizePrefix c width =
      c.extend (Prefixes.mk (decide (width = 16)) none none).bytes := by
  unfold emitOperandSizePrefix Prefixes.bytes Code.push Code.extend
  by_cases hwidth : width = 16
  · simp [hwidth]
  · simp [hwidth]

/-! ## Operands in memory -/

/-- The bytes up to the displacement of an operand in memory. -/
def EncodedAddress.head (addr : EncodedAddress) (rex : Option Rex) (opcodes : List UInt8)
    (reg : Nat) : List UInt8 :=
  (rex.map Rex.byte).toList ++ opcodes ++ (ModRM.mk addr.modBits reg addr.rmBits).encode ::
    addr.sibBytes

variable {reg : RegInfo} {mem : MemoryOperand}

theorem emitMemoryOperation_ok {c c' : Code} {opcodes : List UInt8} {rexWidth trailing : Nat}
    (h : emitMemoryOperation c opcodes reg mem rexWidth trailing = .ok c') :
    ∃ addr rex, memoryAddress mem = .ok addr ∧
      rex = chosenRex rexWidth (decide (8 ≤ reg.code)) addr.rexX addr.rexB reg.rex8 ∧
      (reg.high8 = true → rex = none) ∧
      c'.bytes = c.bytes ++ addr.head rex opcodes reg.code ++ addr.dispBytes ∧
      ((mem.symbol = none ∧ c'.relocs = c.relocs) ∨
        ∃ symbol addend, mem.symbol = some symbol ∧ memoryAddend mem trailing = .ok addend ∧
          c'.relocs = c.relocs ++ [{
            offset := (c.bytes ++ addr.head rex opcodes reg.code).length
            symbol := symbol
            kind := if mem.addressMode = .absolute then .signedAbsolute32 else .relative32
            addend := addend }]) := by
  obtain ⟨addr, haddr, h⟩ := bind_ok_iff.mp h
  obtain ⟨c₁, hrex, h⟩ := bind_ok_iff.mp h
  obtain ⟨c₂, hreloc, h⟩ := bind_ok_iff.mp h
  cases h
  obtain ⟨rfl, hhigh⟩ := emitRex_ok hrex
  refine ⟨addr, _, haddr, rfl, hhigh, ?_⟩
  rw [emitAddrTail_eq]
  unfold relocateMemory at hreloc
  cases hsymbol : mem.symbol with
  | none =>
      rw [hsymbol] at hreloc
      cases hreloc
      refine ⟨?_, .inl ⟨rfl, rfl⟩⟩
      unfold EncodedAddress.head
      simp
  | some symbol =>
      rw [hsymbol] at hreloc
      obtain ⟨addend, haddend, hreloc⟩ := bind_ok_iff.mp hreloc
      cases hreloc
      refine ⟨?_, .inr ⟨symbol, addend, rfl, haddend, ?_⟩⟩
      · unfold EncodedAddress.head
        simp
      · have hsib : (if addr.sib.isSome = true then 1 else 0) = addr.sibBytes.length := by
          unfold EncodedAddress.sibBytes
          cases addr.sib <;> rfl
        unfold EncodedAddress.head
        rw [hsib]
        simp [Nat.add_assoc, Nat.add_comm 1]

/-- The address of an operand with a symbol; the displacement is put in by the relocation. -/
theorem memoryAddress_symbol {addr : EncodedAddress} {symbol : String}
    (hsymbol : mem.symbol = some symbol) (h : memoryAddress mem = .ok addr) :
    mem.base = none ∧ mem.index = none ∧ addr.dispBytes = leInt 4 0 ∧
      ∀ disp : List UInt8, disp.length = 4 → addr.Denotes (addr.sibBytes ++ disp)
        ⟨if mem.addressMode = .absolute then .none else .next, none, signedValue disp⟩ := by
  unfold memoryAddress at h
  rw [if_neg (by rw [hsymbol]; simp)] at h
  obtain ⟨hplain, h⟩ := require_then_ok_iff.mp h
  have hmode : (if mem.addressMode = .default then MemoryAddressMode.relative
      else mem.addressMode) ≠ .default := by
    split
    · decide
    · assumption
  obtain ⟨hbase, hindex, -, hbytes, -⟩ := encodeAddress_direct h hmode (length_leInt 4 0)
  refine ⟨hbase, hindex, hbytes, fun disp hdisp => ?_⟩
  obtain ⟨-, -, -, -, hdenotes⟩ := encodeAddress_direct h hmode hdisp
  convert hdenotes using 2
  cases mem.addressMode <;> rfl

theorem memoryAddress_plain {addr : EncodedAddress} (hsymbol : mem.symbol = none)
    (h : memoryAddress mem = .ok addr) :
    ∃ a : LongMode.Address, NamesBase mem a.base ∧ NamesIndex mem a.index ∧ a.disp = mem.disp ∧
      addr.Denotes (addr.sibBytes ++ addr.dispBytes) a := by
  unfold memoryAddress at h
  rw [if_pos hsymbol] at h
  exact encodeAddress_denotes h

/-! ## Forms -/

/-- An instruction with an operand in memory, as far as the operand does not matter. -/
structure MemoryForm where
  operandSize : Bool
  rep : Option UInt8
  opcode : Opcode
  reg : RegInfo
  rexWidth : Nat
  immediate : List UInt8

namespace MemoryForm

/-- The prefixes in front of the REX prefix. -/
def legacy (f : MemoryForm) : Prefixes := ⟨f.operandSize, f.rep, none⟩

/-- The parts belong together by the rules of the architecture. -/
structure Valid (f : MemoryForm) : Prop where
  rep : ∀ byte ∈ f.rep, byte = 0xf2 ∨ byte = 0xf3
  reg : f.reg.code < 16
  shape : ∃ size, f.opcode.shape = some ⟨true, size⟩ ∧
    f.immediate.length = size.bytes ⟨f.operandSize, f.rep,
      some ⟨decide (f.rexWidth = 64), false, false, false⟩⟩

/-- The code of the form for a memory operand. -/
def emit (f : MemoryForm) (mem : MemoryOperand) : Except AsmError Code :=
  emitMemoryOperation ⟨f.legacy.bytes, []⟩ f.opcode.bytes f.reg mem f.rexWidth f.immediate.length

end MemoryForm

/-- The number of bytes of the field that a relocation is for. -/
def fieldSize : RelocKind → Option Nat
  | .targetSpecific .. => none
  | .absolute64 => some 8
  | .absolute32 => some 4
  | .signedAbsolute32 => some 4
  | .relative32 => some 4
  | .branch32 => some 4
  | .relative8 => some 1

/-- What an accepted instruction looks like. -/
inductive Emission (ins : Instruction) : Code → Prop where
  | plain {c : Code} : (∀ mem, .memory mem ∉ ins.operands) → c.relocs = [] → Emission ins c
  | field {pre field : List UInt8} {reloc : Relocation} : (∀ mem, .memory mem ∉ ins.operands) →
      reloc.offset = pre.length → fieldSize reloc.kind = some field.length →
      Emission ins ⟨pre ++ field, [reloc]⟩
  | memory {mem : MemoryOperand} {f : MemoryForm} {c : Code} :
      (∀ mem', .memory mem' ∈ ins.operands → mem' = mem) → f.Valid → f.emit mem = .ok c →
      Emission ins (c.extend f.immediate)

/-! ## The forms of each family -/

/-- A register is in the table of its width; only bytes are high or need the prefix. -/
theorem lookupReg_cases {name : String} (h : lookupReg name = some reg) :
    (∃ t ∈ [(registers64, 64), (registers32, 32), (registers16, 16)], ∃ code,
      (name, code) ∈ t.1 ∧ reg = ⟨code, t.2, false, false⟩) ∨
    ∃ code, (name, code) ∈ registers8 ∧
      reg = ⟨code, 8, decide (name ∈ ["ah", "bh", "ch", "dh"]),
        decide (name ∈ ["spl", "bpl", "sil", "dil"])⟩ := by
  unfold lookupReg at h
  split at h
  · rename_i code hcode
    cases h
    exact Or.inl ⟨(registers64, 64), by simp, code, mem_of_codeOf hcode, rfl⟩
  · split at h
    · rename_i code hcode
      cases h
      exact Or.inl ⟨(registers32, 32), by simp, code, mem_of_codeOf hcode, rfl⟩
    · split at h
      · rename_i code hcode
        cases h
        exact Or.inl ⟨(registers16, 16), by simp, code, mem_of_codeOf hcode, rfl⟩
      · split at h
        · rename_i code hcode
          cases h
          exact Or.inr ⟨code, mem_of_codeOf hcode, rfl⟩
        · cases h

theorem lookupReg_code {name : String} (h : lookupReg name = some reg) : reg.code < 16 := by
  have hwide : ∀ t ∈ [(registers64, 64), (registers32, 32), (registers16, 16)], ∀ e ∈ t.1,
      e.2 < 16 := by decide
  have hbyte : ∀ e ∈ registers8, e.2 < 16 := by decide
  rcases lookupReg_cases h with ⟨t, ht, code, hcode, rfl⟩ | ⟨code, hcode, rfl⟩
  · exact hwide t ht _ hcode
  · exact hbyte _ hcode

theorem lookupReg_width {name : String} (h : lookupReg name = some reg) :
    (reg.width = 8 ∨ reg.width = 16 ∨ reg.width = 32 ∨ reg.width = 64) ∧
      (reg.width ≠ 8 → reg.high8 = false ∧ reg.rex8 = false) := by
  have hwide : ∀ t ∈ [(registers64, 64), (registers32, 32), (registers16, 16)],
      t.2 = 8 ∨ t.2 = 16 ∨ t.2 = 32 ∨ t.2 = 64 := by decide
  rcases lookupReg_cases h with ⟨t, ht, code, -, rfl⟩ | ⟨code, -, rfl⟩
  · exact ⟨hwide t ht, fun _ => ⟨rfl, rfl⟩⟩
  · exact ⟨by simp, fun hwidth => absurd rfl hwidth⟩

variable {op : Operand}

theorem registerOperand_ok (h : registerOperand op = .ok reg) :
    reg.code < 16 ∧ ∃ name, op = .register name ∧ lookupReg name = some reg := by
  unfold registerOperand at h
  split at h
  · rw [orThrow_ok_iff] at h
    exact ⟨lookupReg_code h, _, rfl, h⟩
  · cases h

variable {dst : String}

theorem registerPair_ok {dst src : String} {regs : RegInfo × RegInfo}
    (h : registerPair dst src = .ok regs) :
    lookupReg dst = some regs.1 ∧ lookupReg src = some regs.2 ∧ regs.1.width = regs.2.width := by
  obtain ⟨reg, hreg, h⟩ := bind_ok_iff.mp h
  obtain ⟨reg', hreg', h⟩ := bind_ok_iff.mp h
  obtain ⟨hwidth, h⟩ := require_then_ok_iff.mp h
  cases h
  exact ⟨orThrow_ok_iff.mp hreg, orThrow_ok_iff.mp hreg', hwidth⟩

theorem xmmOperand_ok {code : Nat} (h : xmmOperand op = .ok code) :
    code < 16 ∧ ∃ name, op = .register name := by
  have hall : ∀ e ∈ registersXmm, e.2 < 16 := by decide
  unfold xmmOperand at h
  split at h
  · rw [orThrow_ok_iff] at h
    exact ⟨hall _ (mem_of_codeOf h), _, rfl⟩
  · cases h

variable {opcode : UInt8}

theorem emitRegReg_relocs {c c' : Code} {dst src : RegInfo}
    (h : emitRegReg c opcode dst src = .ok c') : c'.relocs = c.relocs := by
  obtain ⟨c₁, hrex, h⟩ := bind_ok_iff.mp h
  cases h
  obtain ⟨rfl, -⟩ := emitRex_ok hrex
  rw [emitOperandSizePrefix_eq]
  rfl

theorem emitRegMem_ok {c' : Code} (h : emitRegMem Code.empty opcode reg mem = .ok c') :
    (mem.width = none ∨ mem.width = some reg.width) ∧
      MemoryForm.emit ⟨decide (reg.width = 16), none, .primary opcode, reg, reg.width, []⟩ mem =
        .ok c' := by
  obtain ⟨hwidth, h⟩ := require_then_ok_iff.mp h
  rw [emitOperandSizePrefix_eq] at h
  exact ⟨hwidth, h⟩

theorem emission_regMem {ins : Instruction} {c : Code} (hreg : reg.code < 16)
    (hopcode : (Opcode.primary opcode).shape = some ⟨true, .none⟩)
    (hmem : ∀ mem', .memory mem' ∈ ins.operands → mem' = mem)
    (h : emitRegMem Code.empty opcode reg mem = .ok c) : Emission ins c := by
  have hform := Emission.memory hmem
    ⟨by simp, hreg, .none, hopcode, rfl⟩ (emitRegMem_ok h).2
  rwa [Code.extend_nil] at hform

/-- The form of an immediate behind an operand in memory; `operation` is none for a move. -/
def immediateForm (width : Nat) (imm : Int) (operation : Option Nat) : MemoryForm where
  operandSize := decide (width = 16)
  rep := none
  opcode := .primary (match operation with
    | none => if width = 8 then 0xc6 else 0xc7
    | some _ => if width = 8 then 0x80 else if inI8 imm then 0x83 else 0x81)
  reg := ⟨operation.getD 0, width, false, false⟩
  rexWidth := width
  immediate :=
    leInt (if operation.isSome ∧ width ≠ 8 ∧ inI8 imm then 1
      else (if width = 64 then 32 else width) / 8) imm

variable {imm : Int}

theorem memoryImmediateFits_width (h : memoryImmediateFits width imm) :
    width = 8 ∨ width = 16 ∨ width = 32 ∨ width = 64 := by
  unfold memoryImmediateFits at h
  split at h
  · exact .inl rfl
  · exact .inr (.inl rfl)
  · exact .inr (.inr (.inl rfl))
  · exact .inr (.inr (.inr rfl))
  · exact h.elim

theorem immediateForm_valid {operation : Option Nat} (h : memoryImmediateFits width imm)
    (hoperation : ∀ n ∈ operation, n < 16) : (immediateForm width imm operation).Valid := by
  refine ⟨by simp [immediateForm], ?_, ?_⟩
  · cases operation with
    | none => exact Nat.zero_lt_succ 15
    | some n => exact hoperation n rfl
  · unfold immediateForm
    simp only [length_leInt]
    by_cases hshort : inI8 imm
    · rcases memoryImmediateFits_width h with rfl | rfl | rfl | rfl <;> cases operation <;>
        simp only [hshort] <;> first | exact ⟨.byte, rfl, rfl⟩ | exact ⟨.operand, rfl, rfl⟩
    · rcases memoryImmediateFits_width h with rfl | rfl | rfl | rfl <;> cases operation <;>
        simp only [hshort] <;> first | exact ⟨.byte, rfl, rfl⟩ | exact ⟨.operand, rfl, rfl⟩

theorem encodeMemoryImmediate_ok {operation : Option Nat} {c : Code}
    (h : encodeMemoryImmediate mem imm operation Code.empty = .ok c) :
    ∃ width c', mem.width = some width ∧ memoryImmediateFits width imm ∧
      (immediateForm width imm operation).emit mem = .ok c' ∧
      c = c'.extend (immediateForm width imm operation).immediate := by
  obtain ⟨width, hwidth, h⟩ := bind_ok_iff.mp h
  obtain ⟨hfits, h⟩ := require_then_ok_iff.mp h
  obtain ⟨c', hc', h⟩ := bind_ok_iff.mp h
  cases h
  rw [emitOperandSizePrefix_eq] at hc'
  refine ⟨width, c', orThrow_ok_iff.mp hwidth, hfits, ?_, ?_⟩
  · unfold MemoryForm.emit immediateForm
    rw [← hc']
    cases operation with
    | none => simp [MemoryForm.legacy, Code.empty, Code.extend, Opcode.bytes]
    | some n =>
        by_cases hbyte : width = 8
        · simp [hbyte, MemoryForm.legacy, Code.empty, Code.extend, Opcode.bytes]
        · by_cases hshort : inI8 imm <;>
            simp [hbyte, hshort, MemoryForm.legacy, Code.empty, Code.extend, Opcode.bytes]
  · unfold immediateForm
    simp [Bool.and_eq_true, and_assoc]

/-! ## The forms of each family -/

section

variable {ins : Instruction} {c : Code}

theorem registerOperand_notMemory (h : registerOperand op = .ok reg) (mem : MemoryOperand) :
    .memory mem ≠ op := by
  obtain ⟨-, name, rfl, -⟩ := registerOperand_ok h
  exact nofun

theorem xmmOperand_notMemory {code : Nat} (h : xmmOperand op = .ok code) (mem : MemoryOperand) :
    .memory mem ≠ op := by
  obtain ⟨-, name, rfl⟩ := xmmOperand_ok h
  exact nofun

theorem emitRex_relocs {c' : Code} {rexR rexX rexB anyHigh8 force : Bool}
    (h : emitRex c width rexR rexX rexB anyHigh8 force = .ok c') : c'.relocs = c.relocs := by
  obtain ⟨rfl, -⟩ := emitRex_ok h
  rfl

@[simp] theorem emitOperandSizePrefix_relocs (c : Code) (width : Nat) :
    (emitOperandSizePrefix c width).relocs = c.relocs := by
  rw [emitOperandSizePrefix_eq]
  rfl

theorem Emission.register {dst : Operand} (hoperands : ins.operands = [dst])
    (hdst : registerOperand dst = .ok reg) (hrelocs : c.relocs = []) : Emission ins c := by
  refine .plain (fun mem => ?_) hrelocs
  rw [hoperands, List.mem_singleton]
  exact registerOperand_notMemory hdst mem

theorem Emission.registers {dst src : Operand} {reg reg' : RegInfo}
    (hoperands : ins.operands = [dst, src]) (hdst : registerOperand dst = .ok reg)
    (hsrc : registerOperand src = .ok reg') (hrelocs : c.relocs = []) : Emission ins c := by
  refine .plain (fun mem => ?_) hrelocs
  rw [hoperands, List.mem_pair, not_or]
  exact ⟨registerOperand_notMemory hdst mem, registerOperand_notMemory hsrc mem⟩

theorem encodeRegisterPair_emission {dst src : Operand} {byteOpcode wideOpcode : UInt8}
    (hoperands : ins.operands = [dst, src])
    (h : encodeRegisterPair dst src byteOpcode wideOpcode Code.empty = .ok c) :
    Emission ins c := by
  obtain ⟨reg, hreg, h⟩ := bind_ok_iff.mp h
  obtain ⟨reg', hreg', h⟩ := bind_ok_iff.mp h
  obtain ⟨-, h⟩ := require_then_ok_iff.mp h
  exact .registers hoperands hreg hreg' (emitRegReg_relocs h)

variable {condition : Nat}

theorem encodeCmovcc_emission (h : encodeCmovcc ins condition Code.empty = .ok c) :
    Emission ins c := by
  unfold encodeCmovcc at h
  split at h
  · rename_i hoperands
    obtain ⟨reg, hreg, h⟩ := bind_ok_iff.mp h
    obtain ⟨reg', hreg', h⟩ := bind_ok_iff.mp h
    obtain ⟨-, h⟩ := require_then_ok_iff.mp h
    obtain ⟨c', hrex, h⟩ := bind_ok_iff.mp h
    cases h
    exact .registers hoperands hreg hreg' (by simp [emitRex_relocs hrex, Code.empty])
  · cases h

theorem encodeUnaryRegister_emission {extension : Nat}
    (h : encodeUnaryRegister ins extension Code.empty = .ok c) : Emission ins c := by
  unfold encodeUnaryRegister at h
  split at h
  · rename_i hoperands
    obtain ⟨reg, hreg, h⟩ := bind_ok_iff.mp h
    obtain ⟨c', hrex, h⟩ := bind_ok_iff.mp h
    cases h
    exact .register hoperands hreg (by simp [emitRex_relocs hrex, Code.empty])
  · cases h

theorem shiftCount_notMemory {count : Operand} {result : UInt8 × Option UInt8}
    (h : shiftCount width count = .ok result) (mem : MemoryOperand) : .memory mem ≠ count := by
  rintro rfl
  cases h

theorem encodeShift_emission {extension : Nat} (h : encodeShift ins extension Code.empty = .ok c) :
    Emission ins c := by
  unfold encodeShift at h
  split at h
  · rename_i hoperands
    obtain ⟨reg, hreg, h⟩ := bind_ok_iff.mp h
    obtain ⟨⟨opcode, immediate⟩, hcount, h⟩ := bind_ok_iff.mp h
    obtain ⟨c', hrex, h⟩ := bind_ok_iff.mp h
    cases h
    refine .plain (fun mem => ?_) (by simp [emitRex_relocs hrex, Code.empty])
    rw [hoperands, List.mem_pair, not_or]
    exact ⟨registerOperand_notMemory hreg mem, shiftCount_notMemory hcount mem⟩
  · cases h

theorem encodePushPop_emission {baseOpcode : UInt8}
    (h : encodePushPop ins baseOpcode Code.empty = .ok c) : Emission ins c := by
  unfold encodePushPop at h
  split at h
  · rename_i hoperands
    obtain ⟨reg, hreg, h⟩ := bind_ok_iff.mp h
    obtain ⟨-, h⟩ := require_then_ok_iff.mp h
    obtain ⟨c', hrex, h⟩ := bind_ok_iff.mp h
    cases h
    exact .register hoperands hreg (by simp [emitRex_relocs hrex, Code.empty])
  · cases h
  · cases h

theorem encodePush_emission (h : encodePush ins Code.empty = .ok c) : Emission ins c := by
  unfold encodePush at h
  split at h
  · rename_i imm hhead
    obtain ⟨hlength, h⟩ := require_then_ok_iff.mp h
    obtain ⟨op, hoperands⟩ := List.length_eq_one_iff.mp hlength
    rw [hoperands] at hhead
    cases hhead
    refine .plain (fun mem => by rw [hoperands, List.mem_singleton]; exact nofun) ?_
    split at h
    · cases h
      rfl
    · obtain ⟨-, h⟩ := require_then_ok_iff.mp h
      cases h
      rfl
  · exact encodePushPop_emission h

theorem encodeImulImmediate_emission {dst src imm : Operand}
    (hoperands : ins.operands = [dst, src, imm])
    (h : encodeImulImmediate dst src imm Code.empty = .ok c) : Emission ins c := by
  obtain ⟨reg, hreg, h⟩ := bind_ok_iff.mp h
  obtain ⟨reg', hreg', h⟩ := bind_ok_iff.mp h
  cases imm
  case immediate imm =>
    obtain ⟨-, h⟩ := require_then_ok_iff.mp h
    obtain ⟨-, h⟩ := require_then_ok_iff.mp h
    obtain ⟨c', hrex, h⟩ := bind_ok_iff.mp h
    have hrelocs : c'.relocs = [] := by simp [emitRex_relocs hrex, Code.empty]
    refine .plain (fun mem => ?_) ?_
    · rw [hoperands, List.mem_cons, List.mem_pair, not_or, not_or]
      exact ⟨registerOperand_notMemory hreg mem, registerOperand_notMemory hreg' mem, nofun⟩
    · split at h
      · cases h
        exact hrelocs
      · split at h <;> cases h <;> exact hrelocs
  all_goals cases h

theorem onlyMemory (h : ∀ mem, .memory mem ≠ op) :
    (ins.operands = [op, .memory mem] ∨ ins.operands = [.memory mem, op]) →
      ∀ mem', .memory mem' ∈ ins.operands → mem' = mem := by
  rintro (hoperands | hoperands) mem' hmem
  · rw [hoperands, List.mem_pair] at hmem
    exact Operand.memory.inj (hmem.resolve_left (h mem'))
  · rw [hoperands, List.mem_pair] at hmem
    exact Operand.memory.inj (hmem.resolve_right (h mem'))

/-- A form without an immediate. -/
theorem Emission.operation {f : MemoryForm}
    (hmem : ∀ mem', .memory mem' ∈ ins.operands → mem' = mem) (hvalid : f.Valid)
    (hnone : f.immediate = []) (h : f.emit mem = .ok c) : Emission ins c := by
  have hform := Emission.memory hmem hvalid h
  rw [hnone] at hform
  unfold Code.extend at hform
  rwa [List.append_nil] at hform

theorem encodeImul_emission (h : encodeImul ins Code.empty = .ok c) : Emission ins c := by
  unfold encodeImul at h
  split at h
  case h_1 hoperands => exact encodeImulImmediate_emission hoperands h
  case h_2 dst src hoperands =>
    obtain ⟨reg, hreg, h⟩ := orThrow_then_ok_iff.mp h
    obtain ⟨-, h⟩ := require_then_ok_iff.mp h
    cases src
    case register src =>
      obtain ⟨_, -, h⟩ := bind_ok_iff.mp h
      obtain ⟨-, h⟩ := require_then_ok_iff.mp h
      obtain ⟨c', hrex, h⟩ := bind_ok_iff.mp h
      cases h
      refine .plain (fun mem => ?_) (by simp [emitRex_relocs hrex, Code.empty])
      rw [hoperands]
      simp
    case memory mem =>
      obtain ⟨-, h⟩ := require_then_ok_iff.mp h
      rw [emitOperandSizePrefix_eq] at h
      exact .operation (f := ⟨decide (reg.width = 16), none, .escaped 0xaf, reg, reg.width, []⟩)
        (onlyMemory (by simp) (.inl hoperands))
        ⟨by simp, lookupReg_code hreg, .none,
          (by decide : (Opcode.escaped 0xaf).shape = some ⟨true, .none⟩), rfl⟩ rfl h
    all_goals cases h
  all_goals cases h

theorem encodeLea_emission (h : encodeLea ins Code.empty = .ok c) : Emission ins c := by
  unfold encodeLea at h
  split at h
  · rename_i dst src hoperands
    obtain ⟨reg, hreg, h⟩ := bind_ok_iff.mp h
    obtain ⟨-, h⟩ := require_then_ok_iff.mp h
    cases src
    case memory mem =>
      exact emission_regMem (registerOperand_ok hreg).1 (by decide)
        (onlyMemory (registerOperand_notMemory hreg) (.inl hoperands)) h
    all_goals cases h
  · cases h

theorem encodeScalarSse_emission (h : encodeScalarSse ins Code.empty = .ok c) :
    Emission ins c := by
  have hrep : ∀ single : Bool, ∀ byte ∈ some (if single then (0xf3 : UInt8) else 0xf2),
      byte = 0xf2 ∨ byte = 0xf3 := by
    rintro (_ | _) _ ⟨⟩
    · exact .inl rfl
    · exact .inr rfl
  unfold encodeScalarSse at h
  split at h
  · rename_i dst src hoperands
    simp only at h
    generalize decide (ins.mnemonic ∈ ["movss", "addss", "subss", "mulss", "divss"]) = single at h
    split at h
    · rename_i mem
      obtain ⟨-, h⟩ := require_then_ok_iff.mp h
      obtain ⟨code, hcode, h⟩ := bind_ok_iff.mp h
      obtain ⟨-, h⟩ := require_then_ok_iff.mp h
      exact .operation (f := ⟨false, some (if single then 0xf3 else 0xf2), .escaped 0x11,
          ⟨code, if single then 32 else 64, false, false⟩, 0, []⟩)
        (onlyMemory (xmmOperand_notMemory hcode) (.inr hoperands))
        ⟨hrep single, (xmmOperand_ok hcode).1, .none,
          (by decide : (Opcode.escaped 0x11).shape = some ⟨true, .none⟩), rfl⟩ rfl h
    · obtain ⟨code, hcode, h⟩ := bind_ok_iff.mp h
      split at h
      · obtain ⟨source, hsource, h⟩ := bind_ok_iff.mp h
        obtain ⟨c', hrex, h⟩ := bind_ok_iff.mp h
        cases h
        refine .plain (fun mem => ?_) (by simp [emitRex_relocs hrex, Code.empty])
        rw [hoperands, List.mem_pair, not_or]
        exact ⟨xmmOperand_notMemory hcode mem, xmmOperand_notMemory hsource mem⟩
      · rename_i mem
        obtain ⟨-, h⟩ := require_then_ok_iff.mp h
        have hshape : (Opcode.escaped (scalarOpcode ins.mnemonic)).shape = some ⟨true, .none⟩ := by
          unfold scalarOpcode
          repeat' split
          all_goals decide
        exact .operation (f := ⟨false, some (if single then 0xf3 else 0xf2),
            .escaped (scalarOpcode ins.mnemonic), ⟨code, if single then 32 else 64, false, false⟩,
            0, []⟩)
          (onlyMemory (xmmOperand_notMemory hcode) (.inl hoperands))
          ⟨hrep single, (xmmOperand_ok hcode).1, .none, hshape, rfl⟩ rfl h
      · cases h
  · cases h

/-- An extended opcode byte of `setcc` and the group of `ff`. -/
theorem emitGroupOperand_emission (opcode : Opcode) {operand : Operand}
    {width rexWidth extension : Nat} (hoperands : ins.operands = [operand]) (hextension : extension < 16)
    (hopcode : opcode.shape = some ⟨true, .none⟩) (hwidth : width ≠ 16)
    (h : emitGroupOperand Code.empty operand width rexWidth opcode.bytes extension = .ok c) :
    Emission ins c := by
  unfold emitGroupOperand at h
  rw [emitOperandSizePrefix_eq, decide_eq_false hwidth] at h
  cases operand
  case register =>
    obtain ⟨reg, hreg, h⟩ := bind_ok_iff.mp h
    obtain ⟨-, h⟩ := require_then_ok_iff.mp h
    obtain ⟨c', hrex, h⟩ := bind_ok_iff.mp h
    cases h
    exact .register hoperands hreg (by simp [emitRex_relocs hrex, Code.empty])
  case memory mem =>
    obtain ⟨-, h⟩ := require_then_ok_iff.mp h
    refine .operation (f := ⟨false, none, opcode, ⟨extension, width, false, false⟩, rexWidth, []⟩)
      ?_ ⟨by simp, hextension, .none, hopcode, rfl⟩ rfl h
    rw [hoperands]
    simp
  all_goals cases h

theorem encodeSetcc_emission (hcondition : condition < 16)
    (h : encodeSetcc ins condition Code.empty = .ok c) : Emission ins c := by
  have hall : ∀ n : Fin 16, (Opcode.escaped (0x90 + UInt8.ofNat n)).shape =
      some ⟨true, .none⟩ := by decide
  unfold encodeSetcc at h
  split at h
  · rename_i hoperands
    exact emitGroupOperand_emission (.escaped (0x90 + UInt8.ofNat condition)) hoperands
      (by decide) (hall ⟨condition, hcondition⟩) (by decide) h
  · cases h

theorem encodeIndirectBranch_emission (h : encodeIndirectBranch ins Code.empty = .ok c) :
    Emission ins c := by
  unfold encodeIndirectBranch at h
  split at h
  · rename_i hoperands
    exact emitGroupOperand_emission (.primary 0xff) hoperands (by split <;> decide)
      (by decide) (by decide) h
  · cases h

theorem encodeExtension_emission (h : encodeExtension ins Code.empty = .ok c) :
    Emission ins c := by
  unfold encodeExtension at h
  split at h
  · rename_i dst src hoperands
    obtain ⟨reg, hreg, h⟩ := bind_ok_iff.mp h
    obtain ⟨srcWidth, hwidth, h⟩ := bind_ok_iff.mp h
    obtain ⟨-, h⟩ := require_then_ok_iff.mp h
    have hopcode : ∃ opcode : Opcode, extensionOpcode ins.mnemonic srcWidth = opcode.bytes ∧
        opcode.shape = some ⟨true, .none⟩ := by
      unfold extensionOpcode
      split
      · exact ⟨.primary 0x63, rfl, by decide⟩
      · split
        · exact ⟨.escaped 0xb6, rfl, by decide⟩
        · split
          · exact ⟨.escaped 0xb7, rfl, by decide⟩
          · split
            · exact ⟨.escaped 0xbe, rfl, by decide⟩
            · exact ⟨.escaped 0xbf, rfl, by decide⟩
    obtain ⟨opcode, hbytes, hshape⟩ := hopcode
    simp only at h
    rw [hbytes] at h
    split at h
    · rename_i mem
      rw [emitOperandSizePrefix_eq] at h
      exact .operation (f := ⟨decide (reg.width = 16), none, opcode, reg, reg.width, []⟩)
        (onlyMemory (registerOperand_notMemory hreg) (.inl hoperands))
        ⟨by simp, (registerOperand_ok hreg).1, .none, hshape, rfl⟩ rfl h
    · obtain ⟨reg', hreg', h⟩ := bind_ok_iff.mp h
      obtain ⟨c', hrex, h⟩ := bind_ok_iff.mp h
      cases h
      exact .registers hoperands hreg hreg' (by simp [emitRex_relocs hrex, Code.empty])
  · cases h

/-- The prefixes of an instruction without an operand in memory. -/
def registerPrefixes (width : Nat) (rexR rexB force : Bool) : Prefixes where
  operandSize := decide (width = 16)
  rep := none
  rex := chosenRex width rexR false rexB force

theorem emitRegReg_ok {dst src : RegInfo} (h : emitRegReg Code.empty opcode dst src = .ok c) :
    ((dst.high8 || src.high8) = true → (registerPrefixes dst.width (decide (8 ≤ src.code))
        (decide (8 ≤ dst.code)) (dst.rex8 || src.rex8)).rex = none) ∧
      c = ⟨(registerPrefixes dst.width (decide (8 ≤ src.code)) (decide (8 ≤ dst.code))
        (dst.rex8 || src.rex8)).bytes ++ [opcode] ++ [(ModRM.mk 3 src.code dst.code).encode], []⟩ := by
  obtain ⟨c', hrex, h⟩ := bind_ok_iff.mp h
  cases h
  obtain ⟨rfl, hhigh⟩ := emitRex_ok hrex
  refine ⟨hhigh, ?_⟩
  rw [emitOperandSizePrefix_eq]
  simp [registerPrefixes, Prefixes.bytes, Code.empty, Code.extend, Code.push]

theorem moveImmediate_ok (h : moveImmediate dst imm Code.empty = .ok c) :
    ∃ reg, lookupReg dst = some reg ∧ inWidth reg.width imm ∧
      (reg.high8 = true →
        (registerPrefixes reg.width false (decide (8 ≤ reg.code)) reg.rex8).rex = none) ∧
      c = ⟨(registerPrefixes reg.width false (decide (8 ≤ reg.code)) reg.rex8).bytes ++
        [(if reg.width = 8 then 0xb0 else 0xb8) + UInt8.ofNat (reg.code &&& 7)] ++
          leInt (reg.width / 8) imm, []⟩ := by
  obtain ⟨reg, hreg, h⟩ := orThrow_then_ok_iff.mp h
  have hplain := (lookupReg_width hreg).2
  refine ⟨reg, hreg, ?_⟩
  simp only at h
  -- The width chooses the opcode, the prefix and how many bytes the value takes.
  split at h
  case h_1 hwidth =>
    obtain ⟨hrange, h⟩ := require_then_ok_iff.mp h
    obtain ⟨c', hrex, h⟩ := bind_ok_iff.mp h
    cases h
    obtain ⟨rfl, hhigh⟩ := emitRex_ok hrex
    refine ⟨by rw [hwidth]; exact hrange, hhigh, ?_⟩
    simp [registerPrefixes, Prefixes.bytes, Code.empty, Code.extend, Code.push, hwidth,
      ← lowByte_eq]
  case h_2 hwidth =>
    obtain ⟨hrange, h⟩ := require_then_ok_iff.mp h
    obtain ⟨c', hrex, h⟩ := bind_ok_iff.mp h
    cases h
    obtain ⟨rfl, -⟩ := emitRex_ok hrex
    obtain ⟨hhigh, hrex8⟩ := hplain (by omega)
    refine ⟨by rw [hwidth]; exact hrange, by rw [hhigh]; exact nofun, ?_⟩
    simp [registerPrefixes, Prefixes.bytes, Code.empty, Code.extend, Code.push, hwidth, hrex8,
      emitOperandSizePrefix_eq]
  case h_3 hwidth =>
    obtain ⟨hrange, h⟩ := require_then_ok_iff.mp h
    obtain ⟨c', hrex, h⟩ := bind_ok_iff.mp h
    cases h
    obtain ⟨rfl, -⟩ := emitRex_ok hrex
    obtain ⟨hhigh, hrex8⟩ := hplain (by omega)
    refine ⟨by rw [hwidth]; exact hrange, by rw [hhigh]; exact nofun, ?_⟩
    simp [registerPrefixes, Prefixes.bytes, Code.empty, Code.extend, Code.push, hwidth, hrex8]
  case h_4 hwidth =>
    obtain ⟨c', hrex, h⟩ := bind_ok_iff.mp h
    obtain ⟨hrange, h⟩ := require_then_ok_iff.mp h
    cases h
    obtain ⟨rfl, -⟩ := emitRex_ok hrex
    obtain ⟨hhigh, hrex8⟩ := hplain (by omega)
    refine ⟨by rw [hwidth]; exact hrange, by rw [hhigh]; exact nofun, ?_⟩
    simp [registerPrefixes, Prefixes.bytes, Code.empty, Code.extend, Code.push, hwidth, hrex8]
  case h_5 => cases h

theorem memoryImmediateFits_of_inI8 (hwidth : width = 8 ∨ width = 16 ∨ width = 32 ∨ width = 64)
    (h : inI8 imm) : memoryImmediateFits width imm := by
  obtain ⟨hlo, hhi⟩ := h
  rcases hwidth with rfl | rfl | rfl | rfl <;>
    simp only [memoryImmediateFits, inWidth, inI32] <;> constructor <;> omega

/-- An operation with an immediate has the opcode and the immediate that it has in memory. -/
theorem binopImmediate_ok {extension : Nat}
    (h : binopImmediate dst imm extension Code.empty = .ok c) :
    ∃ reg, lookupReg dst = some reg ∧ memoryImmediateFits reg.width imm ∧
      (reg.high8 = true →
        (registerPrefixes reg.width false (decide (8 ≤ reg.code)) reg.rex8).rex = none) ∧
      c = ⟨(registerPrefixes reg.width false (decide (8 ≤ reg.code)) reg.rex8).bytes ++
        (immediateForm reg.width imm (some extension)).opcode.bytes ++
          (ModRM.mk 3 extension reg.code).encode ::
            (immediateForm reg.width imm (some extension)).immediate, []⟩ := by
  obtain ⟨reg, hreg, h⟩ := orThrow_then_ok_iff.mp h
  obtain ⟨c', hrex, h⟩ := bind_ok_iff.mp h
  obtain ⟨rfl, hhigh⟩ := emitRex_ok hrex
  have hwidths := (lookupReg_width hreg).1
  refine ⟨reg, hreg, ?_⟩
  simp only at h
  split at h
  case isTrue hwidth =>
    obtain ⟨hrange, h⟩ := require_then_ok_iff.mp h
    cases h
    refine ⟨by rw [hwidth]; exact hrange, hhigh, ?_⟩
    simp [registerPrefixes, immediateForm, Prefixes.bytes, Opcode.bytes, Code.empty, Code.extend,
      Code.push, hwidth, emitOperandSizePrefix_eq, ← lowByte_eq]
  case isFalse hwidth =>
    split at h
    case isTrue hshort =>
      cases h
      refine ⟨memoryImmediateFits_of_inI8 hwidths hshort, hhigh, ?_⟩
      simp [registerPrefixes, immediateForm, Prefixes.bytes, Opcode.bytes, Code.empty, Code.extend,
        Code.push, hwidth, hshort, emitOperandSizePrefix_eq, ← lowByte_eq]
    case isFalse hlong =>
      split at h
      case h_4 => cases h
      all_goals
        rename_i hcase
        obtain ⟨hrange, h⟩ := require_then_ok_iff.mp h
        cases h
        refine ⟨by rw [hcase]; exact hrange, hhigh, ?_⟩
        simp [registerPrefixes, immediateForm, Prefixes.bytes, Opcode.bytes, Code.empty,
          Code.extend, Code.push, hcase, hlong, emitOperandSizePrefix_eq]

theorem moveSymbol_ok {dst label : String} {addend : Int}
    (h : moveSymbol dst label addend Code.empty = .ok c) :
    ∃ reg kind, lookupReg dst = some reg ∧
      ((reg.width = 64 ∧ kind = .absolute64) ∨ (reg.width = 32 ∧ kind = .absolute32)) ∧
      ∃ pre, pre = ((chosenRex reg.width false false (decide (8 ≤ reg.code)) false).map
          Rex.byte).toList ++ [0xb8 + UInt8.ofNat (reg.code &&& 7)] ∧
        c = ⟨pre ++ leInt (reg.width / 8) 0, [⟨pre.length, label, kind, addend⟩]⟩ := by
  obtain ⟨reg, hreg, h⟩ := orThrow_then_ok_iff.mp h
  simp only at h
  split at h
  case h_3 => cases h
  all_goals
    rename_i hwidth
    obtain ⟨c', hrex, h⟩ := bind_ok_iff.mp h
    obtain ⟨n, hn, h⟩ := bind_ok_iff.mp h
    cases h
    obtain ⟨rfl, -⟩ := emitRex_ok hrex
    rw [orThrow_ok_iff] at hn
    have hn : n = addend := by
      unfold toI64 at hn
      split at hn <;> cases hn
      rfl
    cases hn
  · refine ⟨reg, .absolute64, hreg, .inl ⟨hwidth, rfl⟩, _, rfl, ?_⟩
    simp [Code.empty, Code.extend, Code.relocate, Code.push, hwidth]
  · refine ⟨reg, .absolute32, hreg, .inr ⟨hwidth, rfl⟩, _, rfl, ?_⟩
    simp [Code.empty, Code.extend, Code.relocate, Code.push, hwidth]

theorem encodeMov_emission (h : encodeMov ins Code.empty = .ok c) : Emission ins c := by
  unfold encodeMov at h
  split at h
  case h_1 hoperands =>
    obtain ⟨reg, -, -, -, rfl⟩ := moveImmediate_ok h
    refine .plain (fun mem => ?_) rfl
    rw [hoperands]
    simp
  case h_2 hoperands =>
    obtain ⟨reg, kind, -, hkind, pre, -, rfl⟩ := moveSymbol_ok h
    refine .field (fun mem => ?_) rfl ?_
    · rw [hoperands]
      simp
    · rcases hkind with ⟨hwidth, rfl⟩ | ⟨hwidth, rfl⟩ <;> rw [hwidth] <;> rfl
  case h_3 hoperands =>
    obtain ⟨reg, kind, -, hkind, pre, -, rfl⟩ := moveSymbol_ok h
    refine .field (fun mem => ?_) rfl ?_
    · rw [hoperands]
      simp
    · rcases hkind with ⟨hwidth, rfl⟩ | ⟨hwidth, rfl⟩ <;> rw [hwidth] <;> rfl
  case h_4 hoperands =>
    obtain ⟨⟨reg, reg'⟩, -, h⟩ := bind_ok_iff.mp h
    refine .plain (fun mem => ?_) (emitRegReg_relocs h)
    rw [hoperands]
    simp
  case h_5 dst mem hoperands =>
    obtain ⟨reg, hreg, h⟩ := orThrow_then_ok_iff.mp h
    exact emission_regMem (lookupReg_code hreg) (by split <;> decide)
      (onlyMemory (by simp) (.inl hoperands)) h
  case h_6 mem src hoperands =>
    obtain ⟨reg, hreg, h⟩ := orThrow_then_ok_iff.mp h
    exact emission_regMem (lookupReg_code hreg) (by split <;> decide)
      (onlyMemory (by simp) (.inr hoperands)) h
  case h_7 mem imm hoperands =>
    obtain ⟨width, c', -, hfits, hform, rfl⟩ := encodeMemoryImmediate_ok h
    exact .memory (onlyMemory (by simp) (.inr hoperands)) (immediateForm_valid hfits nofun) hform
  all_goals cases h

/-- The opcodes of an operation follow one another. -/
def BinaryOpcodes.Regular (op : BinaryOpcodes) : Prop :=
  op.immediate < 8 ∧ op.rmR8.toNat = 8 * op.immediate ∧ op.rmR.toNat = 8 * op.immediate + 1 ∧
    op.rRm8.toNat = 8 * op.immediate + 2 ∧ op.rRm.toNat = 8 * op.immediate + 3

theorem BinaryOpcodes.Regular.shape {op : BinaryOpcodes} (hop : op.Regular) {byte : UInt8}
    (h : byte ∈ [op.rmR8, op.rmR, op.rRm8, op.rRm]) :
    (Opcode.primary byte).shape = some ⟨true, .none⟩ := by
  obtain ⟨himmediate, h8, hr, hrm8, hrm⟩ := hop
  simp only [List.mem_cons, List.not_mem_nil, or_false] at h
  unfold Opcode.shape
  simp only
  rw [if_pos]
  rcases h with rfl | rfl | rfl | rfl <;> omega

variable {mnemonic : String}

theorem familyOf_binop {op : BinaryOpcodes} (h : familyOf mnemonic = some (.binop op)) :
    op.Regular := by
  have hregular : ∀ op ∈ [addOpcodes, subOpcodes, andOpcodes, orOpcodes, xorOpcodes, cmpOpcodes],
      op.Regular := by
    unfold BinaryOpcodes.Regular
    decide
  rcases familyOf_cases h with hmem | ⟨_, -, h⟩ | ⟨_, -, h⟩ | ⟨_, -, h⟩
  · refine hregular op ?_
    simp only [families, List.mem_cons, Prod.mk.injEq, reduceCtorEq, and_false, false_or,
      Family.binop.injEq, List.not_mem_nil, or_false] at hmem
    rcases hmem with ⟨-, rfl⟩ | ⟨-, rfl⟩ | ⟨-, rfl⟩ | ⟨-, rfl⟩ | ⟨-, rfl⟩ | ⟨-, rfl⟩ <;> simp
  all_goals cases h

theorem prefixedCondition_lt {mnemonic pre : String}
    (h : prefixedCondition mnemonic pre = some condition) : condition < 16 := by
  have hall : ∀ e ∈ conditionCodes, e.2 < 16 := by decide
  obtain ⟨suffix, -, h⟩ := Option.bind_eq_some_iff.mp h
  obtain ⟨e, he, h⟩ := Option.bind_eq_some_iff.mp h
  cases h
  exact hall e (List.mem_of_find?_eq_some he)

theorem familyOf_setcc (h : familyOf mnemonic = some (.setcc condition)) : condition < 16 := by
  rcases familyOf_cases h with hmem | ⟨_, hset, h⟩ | ⟨_, -, h⟩ | ⟨_, -, h⟩
  · simp only [families, List.mem_cons, Prod.mk.injEq, reduceCtorEq, and_false, or_self,
      List.not_mem_nil] at hmem
  · cases h
    exact prefixedCondition_lt hset
  all_goals cases h

theorem encodeBinop_emission {op : BinaryOpcodes} (hop : op.Regular)
    (h : encodeBinop ins op Code.empty = .ok c) : Emission ins c := by
  unfold encodeBinop at h
  split at h
  case h_1 hoperands =>
    obtain ⟨⟨reg, reg'⟩, -, h⟩ := bind_ok_iff.mp h
    refine .plain (fun mem => ?_) (emitRegReg_relocs h)
    rw [hoperands]
    simp
  case h_2 hoperands =>
    obtain ⟨reg, -, -, -, rfl⟩ := binopImmediate_ok h
    refine .plain (fun mem => ?_) rfl
    rw [hoperands]
    simp
  case h_5 dst mem hoperands =>
    obtain ⟨reg, hreg, h⟩ := orThrow_then_ok_iff.mp h
    exact emission_regMem (lookupReg_code hreg) (hop.shape (by split <;> simp))
      (onlyMemory (by simp) (.inl hoperands)) h
  case h_6 mem src hoperands =>
    obtain ⟨reg, hreg, h⟩ := orThrow_then_ok_iff.mp h
    exact emission_regMem (lookupReg_code hreg) (hop.shape (by split <;> simp))
      (onlyMemory (by simp) (.inr hoperands)) h
  case h_7 mem imm hoperands =>
    obtain ⟨width, c', -, hfits, hform, rfl⟩ := encodeMemoryImmediate_ok h
    refine .memory (onlyMemory (by simp) (.inr hoperands)) (immediateForm_valid hfits ?_) hform
    rintro n ⟨⟩
    exact hop.1.trans (by decide)
  all_goals cases h

theorem symbolOperand_notMemory {e : String × Int} (h : symbolOperand op = some e)
    (mem : MemoryOperand) : .memory mem ≠ op := by
  rintro rfl
  cases h

theorem encodeJump_emission {spec : JumpSpec} {relaxation : BranchRelaxation}
    {currentSection currentOffset : Nat} {labelLocs : LabelLocations}
    (h : encodeJump ins spec relaxation Code.empty currentSection currentOffset labelLocs =
      .ok c) : Emission ins c := by
  unfold encodeJump at h
  split at h
  case h_2 => cases h
  case h_1 operand hoperands =>
    obtain ⟨⟨label, addend⟩, hlabel, h⟩ := bind_ok_iff.mp h
    obtain ⟨-, h⟩ := require_then_ok_iff.mp h
    rw [orThrow_ok_iff] at hlabel
    have hmem : ∀ mem, .memory mem ∉ ins.operands := by
      intro mem
      rw [hoperands, List.mem_singleton]
      exact symbolOperand_notMemory hlabel mem
    simp only at h
    split at h
    · split at h
      · cases h
        exact .plain hmem rfl
      · obtain ⟨-, h⟩ := require_then_ok_iff.mp h
        cases h
        exact .plain hmem rfl
    · cases h
      exact .field hmem rfl rfl

theorem encodeLoop_emission (h : encodeLoop ins Code.empty = .ok c) : Emission ins c := by
  unfold encodeLoop at h
  split at h
  case h_2 => cases h
  case h_1 operand hoperands =>
    obtain ⟨⟨label, addend⟩, hlabel, h⟩ := bind_ok_iff.mp h
    obtain ⟨-, h⟩ := require_then_ok_iff.mp h
    rw [orThrow_ok_iff] at hlabel
    cases h
    refine @Emission.field ins [0xe2] [0] _ (fun mem => ?_) rfl rfl
    rw [hoperands, List.mem_singleton]
    exact symbolOperand_notMemory hlabel mem

/-- An accepted instruction has one of the three forms. -/
theorem encodeInstruction_emission {currentSection currentOffset : Nat}
    {labelLocs : LabelLocations} {relaxation : BranchRelaxation}
    (h : encodeInstruction ins Code.empty currentSection currentOffset labelLocs relaxation =
      .ok c) : Emission ins c := by
  unfold encodeInstruction at h
  cases hfamily : familyOf ins.mnemonic with
  | none =>
      rw [hfamily] at h
      cases h
  | some family =>
      rw [hfamily] at h
      cases family with
      | plain bytes =>
          obtain ⟨hoperands, h⟩ := require_then_ok_iff.mp h
          cases h
          refine .plain (fun mem => ?_) rfl
          rw [hoperands]
          exact List.not_mem_nil
      | scalarSse => exact encodeScalarSse_emission h
      | mov => exact encodeMov_emission h
      | extension => exact encodeExtension_emission h
      | carry =>
          simp only [encodeCarry] at h
          split at h
          · exact encodeRegisterPair_emission ‹_› h
          · cases h
      | setcc => exact encodeSetcc_emission (familyOf_setcc hfamily) h
      | cmovcc => exact encodeCmovcc_emission h
      | binop => exact encodeBinop_emission (familyOf_binop hfamily) h
      | imul => exact encodeImul_emission h
      | lea => exact encodeLea_emission h
      | test =>
          simp only [encodeTest] at h
          split at h
          · exact encodeRegisterPair_emission ‹_› h
          · cases h
      | unaryRegister => exact encodeUnaryRegister_emission h
      | shift => exact encodeShift_emission h
      | push => exact encodePush_emission h
      | pop => exact encodePushPop_emission h
      | branch =>
          simp only at h
          split at h
          · exact encodeIndirectBranch_emission h
          · exact encodeJump_emission h
      | condition => exact encodeJump_emission h
      | loop => exact encodeLoop_emission h

end

end Whale.Assembler.Amd64
