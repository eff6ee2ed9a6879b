import Mathlib.Data.Int.ModEq
import Whale.Assembler.Amd64.Linked

set_option autoImplicit false

/-! # Moves and arithmetic mean what was written

The bytes of an accepted move or arithmetic instruction are taken apart by the rules of the
architecture. They have the operation, the width and the operands of the source. -/

namespace Whale.Assembler.Amd64

open LongMode (Rex Prefixes Opcode RegMem Register Operation Form Location Source Decoded decode
  arithmetic)

/-! ## Registers -/

variable {width : Nat}

theorem chosenRex_isSome {rexR rexX rexB force : Bool}
    (h : force = true ∨ rexR = true ∨ rexX = true ∨ rexB = true) :
    (chosenRex width rexR rexX rexB force).isSome = true := by
  unfold chosenRex
  rw [if_pos (by rcases h with h | h | h | h <;> simp [h])]
  rfl

variable {name : String}

variable {reg : RegInfo}

/-- A register is read back under its name: the second bytes without a REX prefix, and the others
with one where they need it. -/
theorem lookupReg_name (h : lookupReg name = some reg) {rex : Option Rex}
    (hhigh : reg.high8 = true → rex = none)
    (hrex : reg.rex8 = true ∨ 8 ≤ reg.code → rex.isSome = true) :
    (Register.ofNumber reg.width rex.isSome reg.code).name reg.width = some name := by
  have hnone : reg.high8 = true → rex.isSome = false := fun h => by
    rw [hhigh h]
    rfl
  have hwide : ∀ t ∈ [(registers64, 64), (registers32, 32), (registers16, 16)], ∀ e ∈ t.1, ∀ rex,
      (Register.ofNumber t.2 rex e.2).name t.2 = some e.1 := by decide
  have hbyte : ∀ e ∈ registers8, ∀ rex,
      (e.1 ∈ ["ah", "bh", "ch", "dh"] → rex = false) →
      (e.1 ∈ ["spl", "bpl", "sil", "dil"] ∨ 8 ≤ e.2 → rex = true) →
      (Register.ofNumber 8 rex e.2).name 8 = some e.1 := by decide
  rcases lookupReg_cases h with ⟨t, ht, code, hcode, rfl⟩ | ⟨code, hcode, rfl⟩
  · exact hwide t ht _ hcode rex.isSome
  · exact hbyte _ hcode rex.isSome (fun h => hnone (decide_eq_true h))
      fun h => hrex (h.imp_left decide_eq_true)

/-! ## Instructions without an operand in memory -/

theorem registerPrefixes_bits (width : Nat) (rexR rexB force : Bool) :
    (registerPrefixes width rexR rexB force).rexBits = ⟨decide (width = 64), rexR, false, rexB⟩ :=
  chosenRex_bits _ _ _ _ _

theorem width_eq {p : Prefixes} (hwidth : width = 8 ∨ width = 16 ∨ width = 32 ∨ width = 64)
    (hsize : p.operandSize = decide (width = 16)) (hw : p.rexBits.w = decide (width = 64)) :
    (if decide (width = 8) = true then 8 else p.width) = width := by
  unfold Prefixes.width
  rw [hsize, hw]
  rcases hwidth with rfl | rfl | rfl | rfl <;> rfl

theorem decode_registers (width : Nat) (force : Bool) {reg rm : Nat} {opcode : Opcode}
    {size : LongMode.ImmediateSize} (hshape : opcode.shape = some ⟨true, size⟩) (hreg : reg < 16)
    (hrm : rm < 16) {immediate : List UInt8}
    (hsize : immediate.length = size.bytes
      (registerPrefixes width (decide (8 ≤ reg)) (decide (8 ≤ rm)) force)) :
    decode ((registerPrefixes width (decide (8 ≤ reg)) (decide (8 ≤ rm)) force).bytes ++
        opcode.bytes ++ (ModRM.mk 3 reg rm).encode :: immediate) =
      some ⟨registerPrefixes width (decide (8 ≤ reg)) (decide (8 ≤ rm)) force, opcode, reg,
        some (.register rm), immediate⟩ := by
  have hbits := registerPrefixes_bits width (decide (8 ≤ reg)) (decide (8 ≤ rm)) force
  obtain ⟨hmodField, hregField, hrmField⟩ := ModRM.encode_fields (by decide : 3 < 4) hreg hrm
  have hread : LongMode.readRegMem
      (registerPrefixes width (decide (8 ≤ reg)) (decide (8 ≤ rm)) force).rexBits
      ((ModRM.mk 3 reg rm).encode.toNat / 64) ((ModRM.mk 3 reg rm).encode.toNat % 8)
      ([] ++ immediate) = some (.register rm, immediate) := by
    rw [hbits, hmodField, hrmField]
    unfold LongMode.readRegMem
    rw [if_pos rfl, extend_low hrm]
    rfl
  have hdecode := LongMode.decode_modrm (by simp [registerPrefixes]) hshape hread hsize
  rw [hbits, hregField, extend_low hreg] at hdecode
  exact hdecode

/-! ## What an operand means -/

/-- The source operand is the operand of the instruction at `next`, where symbols have values. -/
def Operand.Means (width : Nat) (symbols : String → Int) (next : Int) : Operand → Source → Prop
  | .register name, .location (.register r) => r.name width = some name
  | .memory mem, .location (.memory a) =>
      (mem.width = none ∨ mem.width = some width) ∧ mem.Denotes symbols next a
  | .immediate imm, .immediate n => n ≡ imm [ZMOD 2 ^ width]
  | .label name, .immediate n => n ≡ symbols name [ZMOD 2 ^ width]
  | .symbolExpr name addend, .immediate n => n ≡ symbols name + addend [ZMOD 2 ^ width]
  | _, _ => False

/-- Bytes that end at `next` are an operation on operands. -/
def Means (operation : Operation) (width : Nat) (dst src : Operand) (symbols : String → Int)
    (next : Int) (bytes : List UInt8) : Prop :=
  ∃ d m, decode bytes = some d ∧ d.meaning = some m ∧ m.operation = operation ∧
    m.width = width ∧ dst.Means width symbols next (.location m.dst) ∧
    src.Means width symbols next m.src

/-- An immediate that a form of the operation can have: a move to a register has one of all
widths, and all other immediates have 32 bits at most and are sign-extended. -/
def Representable (operation : Operation) (dst : Operand) (width : Nat) (imm : Int) : Prop :=
  inWidth width imm ∧
    (width = 64 → (operation = .move ∧ ∃ name, dst = .register name) ∨ inI32 imm)

variable {imm : Int}

theorem inI32_inWidth (h : inI32 imm) : inWidth 64 imm := by
  obtain ⟨hlo, hhi⟩ := h
  constructor <;> omega

theorem representable_of_fits {operation : Operation} {dst : Operand}
    (h : memoryImmediateFits width imm) : Representable operation dst width imm := by
  rcases memoryImmediateFits_width h with rfl | rfl | rfl | rfl
  · exact ⟨h, fun h => absurd h (by decide)⟩
  · exact ⟨h, fun h => absurd h (by decide)⟩
  · exact ⟨h, fun h => absurd h (by decide)⟩
  · exact ⟨inI32_inWidth h, fun _ => .inr h⟩

/-- The bytes of an immediate have its value modulo the width, if they have the width or if the
immediate is a signed number of the bytes. -/
theorem immediate_modEq {n width : Nat}
    (h : 2 ^ width = 256 ^ n ∨ (-(256 ^ n : Nat) ≤ 2 * imm ∧ 2 * imm < (256 ^ n : Nat))) :
    signedValue (leInt n imm) ≡ imm [ZMOD 2 ^ width] := by
  rcases h with hwidth | ⟨hlo, hhi⟩
  · have hmod := signedValue_leInt_modEq n imm
    rw [← hwidth] at hmod
    exact_mod_cast hmod
  · rw [signedValue_leInt hlo hhi]

theorem immediateForm_modEq {operation : Option Nat} (h : memoryImmediateFits width imm) :
    signedValue (immediateForm width imm operation).immediate ≡ imm [ZMOD 2 ^ width] := by
  unfold immediateForm
  simp only
  split
  case isTrue hshort =>
    obtain ⟨-, -, hlo, hhi⟩ := hshort
    exact immediate_modEq (.inr (by constructor <;> omega))
  case isFalse =>
    rcases memoryImmediateFits_width h with rfl | rfl | rfl | rfl
    · exact immediate_modEq (.inl (by decide))
    · exact immediate_modEq (.inl (by decide))
    · exact immediate_modEq (.inl (by decide))
    · obtain ⟨hlo, hhi⟩ : inI32 imm := h
      exact immediate_modEq (n := 4) (.inr (by constructor <;> omega))

/-! ## Each form -/

theorem meaning_width {d : Decoded} {form : Form} (hrep : d.prefixes.rep = none)
    (hsize : d.prefixes.operandSize = decide (width = 16))
    (hw : d.prefixes.rexBits.w = decide (width = 64))
    (hwidth : width = 8 ∨ width = 16 ∨ width = 32 ∨ width = 64)
    (hform : d.opcode.form = some (form, decide (width = 8))) :
    d.meaning = d.meaningOf width form d.regMem := by
  rw [Decoded.meaning_eq hrep hform, width_eq hwidth hsize hw]

variable {mem : MemoryOperand}

section

variable {operation : Operation} {symbols : String → Int} {next : Int} {c : Code}

variable {bytes : List UInt8}

/-- An instruction with the registers of its ModRM byte, in either direction. -/
theorem registers_means {opcode : Opcode} {reg rm : RegInfo} {name name' : String} (force : Bool)
    (hshape : opcode.shape = some ⟨true, .none⟩) (hreg : lookupReg name = some reg)
    (hrm : lookupReg name' = some rm) (hwidth : reg.width = width) (hwidth' : rm.width = width)
    (hforce : reg.rex8 = true ∨ rm.rex8 = true → force = true)
    (hhigh : reg.high8 = true ∨ rm.high8 = true →
      (registerPrefixes width (decide (8 ≤ reg.code)) (decide (8 ≤ rm.code)) force).rex = none)
    (hbytes : bytes =
      (registerPrefixes width (decide (8 ≤ reg.code)) (decide (8 ≤ rm.code)) force).bytes ++
        opcode.bytes ++ [(ModRM.mk 3 reg.code rm.code).encode]) :
    (opcode.form = some (.toRegMem operation, decide (width = 8)) →
      Means operation width (.register name') (.register name) symbols next bytes) ∧
    (opcode.form = some (.toRegister operation, decide (width = 8)) →
      Means operation width (.register name) (.register name') symbols next bytes) := by
  have hdecode := decode_registers width force hshape (lookupReg_code hreg) (lookupReg_code hrm)
    (rfl : [].length = LongMode.ImmediateSize.none.bytes
      (registerPrefixes width (decide (8 ≤ reg.code)) (decide (8 ≤ rm.code)) force))
  have hbits := registerPrefixes_bits width (decide (8 ≤ reg.code)) (decide (8 ≤ rm.code)) force
  rw [← hbytes] at hdecode
  have hwidths := (lookupReg_width hreg).1
  rw [hwidth] at hwidths
  have hname := lookupReg_name hreg (fun h => hhigh (.inl h)) fun h => chosenRex_isSome <|
    h.elim (fun h => .inl (hforce (.inl h))) fun h => .inr (.inl (decide_eq_true h))
  have hname' := lookupReg_name hrm (fun h => hhigh (.inr h)) fun h => chosenRex_isSome <|
    h.elim (fun h => .inl (hforce (.inr h))) fun h => .inr (.inr (.inr (decide_eq_true h)))
  rw [hwidth] at hname
  rw [hwidth'] at hname'
  constructor
  · intro hform
    have hmeaning := meaning_width (d := ⟨_, _, reg.code, some (.register rm.code), []⟩) rfl rfl
      (congrArg Rex.w hbits) hwidths hform
    exact ⟨_, _, hdecode, hmeaning, rfl, rfl, hname', hname⟩
  · intro hform
    have hmeaning := meaning_width (d := ⟨_, _, reg.code, some (.register rm.code), []⟩) rfl rfl
      (congrArg Rex.w hbits) hwidths hform
    exact ⟨_, _, hdecode, hmeaning, rfl, rfl, hname, hname'⟩

variable {a : LongMode.Address}

/-- The parts of a form with an operand in memory. -/
theorem MemoryForm.Decodes.meaning {f : MemoryForm} (h : f.Decodes bytes a) {form : Form}
    (hrep : f.rep = none) (hsize : f.operandSize = decide (f.rexWidth = 16))
    (hwidth : f.rexWidth = 8 ∨ f.rexWidth = 16 ∨ f.rexWidth = 32 ∨ f.rexWidth = 64)
    (hform : f.opcode.form = some (form, decide (f.rexWidth = 8))) :
    ∃ d, decode bytes = some d ∧ d.meaning = d.meaningOf f.rexWidth form (some (.memory a)) ∧
      d.immediate = f.immediate ∧ d.reg = f.reg.code ∧
      (f.reg.high8 = true → d.prefixes.rex = none) ∧
      (f.reg.rex8 = true ∨ 8 ≤ f.reg.code → d.prefixes.rex.isSome = true) := by
  obtain ⟨rexX, rexB, rex, hrex, hhigh, hdecode⟩ := h
  refine ⟨_, hdecode, meaning_width hrep hsize ?_ hwidth hform, rfl, rfl, hhigh, fun h => ?_⟩
  · rw [hrex]
    exact congrArg Rex.w (chosenRex_bits f.rexWidth _ rexX rexB f.reg.rex8)
  · rw [hrex]
    exact chosenRex_isSome (h.imp_right fun h => .inl (decide_eq_true h))

/-- A register and an operand in memory. -/
theorem MemoryForm.Decodes.means {f : MemoryForm} (h : f.Decodes bytes a) (hrep : f.rep = none)
    (hsize : f.operandSize = decide (f.rexWidth = 16)) (hreg : lookupReg name = some f.reg)
    (hwidth : f.rexWidth = f.reg.width) (hmem : mem.width = none ∨ mem.width = some f.rexWidth)
    (ha : mem.Denotes symbols next a) :
    (f.opcode.form = some (.toRegister operation, decide (f.rexWidth = 8)) →
      Means operation f.rexWidth (.register name) (.memory mem) symbols next bytes) ∧
    (f.opcode.form = some (.toRegMem operation, decide (f.rexWidth = 8)) →
      Means operation f.rexWidth (.memory mem) (.register name) symbols next bytes) := by
  have hwidths := (lookupReg_width hreg).1
  rw [← hwidth] at hwidths
  constructor
  · intro hform
    obtain ⟨d, hdecode, hmeaning, -, hnumber, hhigh, hrex⟩ := h.meaning hrep hsize hwidths hform
    refine ⟨d, _, hdecode, hmeaning, rfl, rfl, ?_, hmem, ha⟩
    have hname := lookupReg_name hreg hhigh hrex
    rwa [← hnumber, ← hwidth] at hname
  · intro hform
    obtain ⟨d, hdecode, hmeaning, -, hnumber, hhigh, hrex⟩ := h.meaning hrep hsize hwidths hform
    refine ⟨d, _, hdecode, hmeaning, rfl, rfl, ⟨hmem, ha⟩, ?_⟩
    have hname := lookupReg_name hreg hhigh hrex
    rwa [← hnumber, ← hwidth] at hname

/-- The operation of an immediate form. -/
def immediateOperation : Option Nat → Operation
  | none => .move
  | some n => arithmetic n

theorem immediateForm_form (imm : Int) (number : Option Nat) :
    (immediateForm width imm number).opcode.form = some
      (if number = none then .immediateMove else .immediateArithmetic, decide (width = 8)) := by
  unfold immediateForm
  cases number with
  | none =>
      by_cases hwidth : width = 8
      · simp only [hwidth]
        decide
      · simp only [hwidth]
        decide
  | some n =>
      by_cases hwidth : width = 8
      · simp only [hwidth, if_true]
        rfl
      · by_cases hshort : inI8 imm
        · simp only [hwidth, hshort]
          rfl
        · simp only [hwidth, hshort]
          rfl

theorem MemoryForm.Decodes.means_immediate {number : Option Nat}
    (h : (immediateForm width imm number).Decodes bytes a) (hfits : memoryImmediateFits width imm)
    (hnumber : ∀ n ∈ number, n < 8) (hmem : mem.width = some width)
    (ha : mem.Denotes symbols next a) :
    Means (immediateOperation number) width (.memory mem) (.immediate imm) symbols next bytes := by
  obtain ⟨d, hdecode, hmeaning, himmediate, hreg, -⟩ := h.meaning rfl rfl
    (memoryImmediateFits_width hfits) (immediateForm_form imm number)
  have hmod : signedValue d.immediate ≡ imm [ZMOD 2 ^ width] := by
    rw [himmediate]
    exact immediateForm_modEq hfits
  cases number with
  | none =>
      have hzero : d.reg % 8 = 0 := by rw [hreg]; rfl
      refine ⟨d, _, hdecode, hmeaning.trans (if_pos hzero), rfl, rfl, ⟨.inr hmem, ha⟩, hmod⟩
  | some n =>
      have hlow : d.reg % 8 = n := by
        rw [hreg]
        exact Nat.mod_eq_of_lt (hnumber n rfl)
      refine ⟨d, _, hdecode, hmeaning, ?_, rfl, ⟨.inr hmem, ha⟩, hmod⟩
      show arithmetic (d.reg % 8) = arithmetic n
      rw [hlow]

theorem sizeBytes_congr {p q : Prefixes} (hbits : p.rexBits.w = q.rexBits.w)
    (hsize : p.operandSize = q.operandSize) (size : LongMode.ImmediateSize) :
    size.bytes p = size.bytes q := by
  unfold LongMode.ImmediateSize.bytes Prefixes.width
  rw [hbits, hsize]

theorem registerPrefixes_name (h : lookupReg name = some reg) {rexR : Bool}
    (hhigh : reg.high8 = true →
      (registerPrefixes reg.width rexR (decide (8 ≤ reg.code)) reg.rex8).rex = none) :
    (Register.ofNumber reg.width
      (registerPrefixes reg.width rexR (decide (8 ≤ reg.code)) reg.rex8).rex.isSome
        reg.code).name reg.width = some name := by
  refine lookupReg_name h hhigh fun h => chosenRex_isSome ?_
  exact h.imp_right fun h => .inr (.inr (decide_eq_true h))

/-- The opcode of a move to the register with these low bits. -/
def moveOpcode (width low : Nat) : Opcode :=
  .primary ((if width = 8 then 0xb0 else 0xb8) + UInt8.ofNat low)

theorem moveOpcode_facts (width : Nat) {low : Nat} (hlow : low < 8) :
    (moveOpcode width low).shape = some ⟨false, if width = 8 then .byte else .full⟩ ∧
      (moveOpcode width low).form = some (.immediateRegister low, decide (width = 8)) := by
  have hbyte : ∀ low : Fin 8, (Opcode.primary (0xb0 + UInt8.ofNat low)).shape =
      some ⟨false, .byte⟩ ∧ (Opcode.primary (0xb0 + UInt8.ofNat low)).form =
        some (.immediateRegister low, true) := by decide
  have hwide : ∀ low : Fin 8, (Opcode.primary (0xb8 + UInt8.ofNat low)).shape =
      some ⟨false, .full⟩ ∧ (Opcode.primary (0xb8 + UInt8.ofNat low)).form =
        some (.immediateRegister low, false) := by decide
  unfold moveOpcode
  by_cases hwidth : width = 8
  · simp only [hwidth]
    exact hbyte ⟨low, hlow⟩
  · simp only [hwidth]
    exact hwide ⟨low, hlow⟩

theorem moveRegister_means (symbols : String → Int) (next : Int) (hreg : lookupReg name = some reg)
    (hhigh : reg.high8 = true →
      (registerPrefixes reg.width false (decide (8 ≤ reg.code)) reg.rex8).rex = none) (n : Int) :
    Means .move reg.width (.register name) (.immediate n) symbols next
      ((registerPrefixes reg.width false (decide (8 ≤ reg.code)) reg.rex8).bytes ++
        (moveOpcode reg.width (reg.code &&& 7)).bytes ++ leInt (reg.width / 8) n) := by
  have hlow : reg.code &&& 7 < 8 := by
    rw [and_seven]
    omega
  obtain ⟨hshape, hform⟩ := moveOpcode_facts reg.width hlow
  have hwidths := (lookupReg_width hreg).1
  have hbits := registerPrefixes_bits reg.width false (decide (8 ≤ reg.code)) reg.rex8
  have hdecode := LongMode.decode_bytes (p := registerPrefixes reg.width false
    (decide (8 ≤ reg.code)) reg.rex8) (by simp [registerPrefixes]) hshape (leInt (reg.width / 8) n)
  have hwidth : reg.width ≠ 8 → (registerPrefixes reg.width false (decide (8 ≤ reg.code))
      reg.rex8).width = reg.width := by
    intro hne
    have hwidth := width_eq (p := registerPrefixes reg.width false (decide (8 ≤ reg.code)) reg.rex8)
      hwidths rfl (congrArg Rex.w hbits)
    rwa [if_neg (by simpa using hne)] at hwidth
  have hlength : (leInt (reg.width / 8) n).length = LongMode.ImmediateSize.bytes
      (registerPrefixes reg.width false (decide (8 ≤ reg.code)) reg.rex8)
      (if reg.width = 8 then .byte else .full) := by
    rw [length_leInt]
    split
    case isTrue hbyte =>
      rw [hbyte]
      rfl
    case isFalse hwide =>
      show reg.width / 8 = _ / 8
      rw [hwidth hwide]
  rw [if_neg Bool.false_ne_true, if_pos hlength] at hdecode
  have hmeaning := meaning_width (d := ⟨_, _, 0, none, leInt (reg.width / 8) n⟩) rfl rfl
    (congrArg Rex.w hbits) hwidths hform
  refine ⟨_, _, hdecode, hmeaning, rfl, rfl, ?_, ?_⟩
  · have hname := registerPrefixes_name hreg hhigh
    have hnumber : LongMode.extend (registerPrefixes reg.width false (decide (8 ≤ reg.code))
        reg.rex8).rexBits.b (reg.code &&& 7) = reg.code := by
      rw [hbits, and_seven]
      exact extend_low (lookupReg_code hreg)
    exact (congrArg (fun number => (Register.ofNumber reg.width _ number).name reg.width)
      hnumber).trans hname
  · refine immediate_modEq (.inl ?_)
    rcases hwidths with h | h | h | h <;> rw [h] <;> decide

end

/-! ## Accepted instructions -/

/-- The symbol that an operand needs a relocation for. -/
def Operand.symbol : Operand → Option String
  | .label name => some name
  | .symbolExpr name _ => some name
  | .memory mem => mem.symbol
  | _ => none

/-- The width is the one of a register, or it is written at the memory. -/
def HasWidth (dst src : Operand) (width : Nat) : Prop :=
  (∃ name, (dst = .register name ∨ src = .register name) ∧
    ∃ reg, lookupReg name = some reg ∧ reg.width = width) ∨
  ∃ mem, dst = .memory mem ∧ mem.width = some width

/-- The code is the operation on the operands, wherever it is put and whatever the values of the
symbols are. -/
structure Meant (operation : Operation) (dst src : Operand) (c : Code) : Prop where
  relocs : c.relocs.map Relocation.symbol = dst.symbol.toList ++ src.symbol.toList
  means : ∃ width, HasWidth dst src width ∧
    (∀ imm, src = .immediate imm → Representable operation dst width imm) ∧
    ∀ symbols address bytes, c.linked symbols address = some bytes →
      bytes.length = c.bytes.length ∧
      Means operation width dst src symbols (address + bytes.length) bytes

section

variable {operation : Operation} {c : Code}

/-- Without a relocation only the bytes of the code matter. -/
theorem Meant.of_plain {dst src : Operand} (hrelocs : c.relocs = []) (hdst : dst.symbol = none)
    (hsrc : src.symbol = none) (hwidth : HasWidth dst src width)
    (himm : ∀ imm, src = .immediate imm → Representable operation dst width imm)
    (h : ∀ symbols next, Means operation width dst src symbols next c.bytes) :
    Meant operation dst src c := by
  refine ⟨by rw [hrelocs, hdst, hsrc]; rfl, width, hwidth, himm, fun symbols address bytes hlink => ?_⟩
  rw [linked_plain hrelocs] at hlink
  cases hlink
  exact ⟨rfl, h _ _⟩

theorem MemoryForm.meant (operation : Operation) {f : MemoryForm} (hf : f.Valid)
    (h : f.emit mem = .ok c) (hrep : f.rep = none)
    (hsize : f.operandSize = decide (f.rexWidth = 16)) (hreg : lookupReg name = some f.reg)
    (hwidth : f.rexWidth = f.reg.width) (hmem : mem.width = none ∨ mem.width = some f.rexWidth) :
    (f.opcode.form = some (.toRegister operation, decide (f.rexWidth = 8)) →
      Meant operation (.register name) (.memory mem) (c.extend f.immediate)) ∧
    (f.opcode.form = some (.toRegMem operation, decide (f.rexWidth = 8)) →
      Meant operation (.memory mem) (.register name) (c.extend f.immediate)) := by
  have hrelocs := MemoryForm.relocs_symbol h
  constructor
  · intro hform
    refine ⟨hrelocs, f.rexWidth, .inl ⟨name, .inl rfl, _, hreg, hwidth.symm⟩, nofun,
      fun symbols address bytes hlink => ?_⟩
    obtain ⟨hlength, a, hdecodes, ha⟩ := MemoryForm.linked hf h hlink
    exact ⟨hlength, (hdecodes.means hrep hsize hreg hwidth hmem ha).1 hform⟩
  · intro hform
    refine ⟨hrelocs.trans (List.append_nil _).symm, f.rexWidth,
      .inl ⟨name, .inr rfl, _, hreg, hwidth.symm⟩, nofun, fun symbols address bytes hlink => ?_⟩
    obtain ⟨hlength, a, hdecodes, ha⟩ := MemoryForm.linked hf h hlink
    exact ⟨hlength, (hdecodes.means hrep hsize hreg hwidth hmem ha).2 hform⟩

theorem emitRegMem_meant {opcode : UInt8} (hreg : lookupReg name = some reg)
    (hshape : (Opcode.primary opcode).shape = some ⟨true, .none⟩)
    (h : emitRegMem Code.empty opcode reg mem = .ok c) :
    ((Opcode.primary opcode).form = some (.toRegister operation, decide (reg.width = 8)) →
      Meant operation (.register name) (.memory mem) c) ∧
    ((Opcode.primary opcode).form = some (.toRegMem operation, decide (reg.width = 8)) →
      Meant operation (.memory mem) (.register name) c) := by
  obtain ⟨hwidth, hemit⟩ := emitRegMem_ok h
  have hmeant := MemoryForm.meant operation
    ⟨by simp, lookupReg_code hreg, .none, hshape, rfl⟩ hemit rfl rfl hreg rfl hwidth
  rwa [Code.extend_nil] at hmeant

theorem emitRegReg_meant {opcode : UInt8} {dst src : RegInfo} {name name' : String}
    (hshape : (Opcode.primary opcode).shape = some ⟨true, .none⟩)
    (hform : (Opcode.primary opcode).form = some (.toRegMem operation, decide (dst.width = 8)))
    (hdst : lookupReg name = some dst) (hsrc : lookupReg name' = some src)
    (hwidth : dst.width = src.width) (h : emitRegReg Code.empty opcode dst src = .ok c) :
    Meant operation (.register name) (.register name') c :=
  .of_plain (emitRegReg_relocs h) rfl rfl (.inl ⟨name, .inl rfl, _, hdst, rfl⟩) nofun
    fun symbols next => by
      obtain ⟨hhigh, rfl⟩ := emitRegReg_ok h
      refine (registers_means _ hshape hsrc hdst hwidth.symm rfl (fun h => ?_) (fun h => hhigh ?_)
        rfl).1 hform
      · rw [Bool.or_eq_true]
        exact h.symm
      · rw [Bool.or_eq_true]
        exact h.symm

theorem encodeMemoryImmediate_meant {number : Option Nat} (hnumber : ∀ n ∈ number, n < 8)
    (h : encodeMemoryImmediate mem imm number Code.empty = .ok c) :
    Meant (immediateOperation number) (.memory mem) (.immediate imm) c := by
  obtain ⟨width, c', hwidth, hfits, hemit, rfl⟩ := encodeMemoryImmediate_ok h
  have hf : (immediateForm width imm number).Valid :=
    immediateForm_valid hfits fun n hn => (hnumber n hn).trans (by decide)
  refine ⟨(MemoryForm.relocs_symbol hemit).trans (List.append_nil _).symm, width,
    .inr ⟨mem, rfl, hwidth⟩, ?_, fun symbols address bytes hlink => ?_⟩
  · rintro _ ⟨⟩
    exact representable_of_fits hfits
  · obtain ⟨hlength, a, hdecodes, ha⟩ := MemoryForm.linked hf hemit hlink
    exact ⟨hlength, hdecodes.means_immediate hfits hnumber hwidth ha⟩

theorem moveImmediate_meant {dst : String} (h : moveImmediate dst imm Code.empty = .ok c) :
    Meant .move (.register dst) (.immediate imm) c := by
  obtain ⟨reg, hreg, hrange, hhigh, rfl⟩ := moveImmediate_ok h
  refine .of_plain rfl rfl rfl (.inl ⟨dst, .inl rfl, reg, hreg, rfl⟩) ?_ fun symbols next =>
    moveRegister_means symbols next hreg hhigh imm
  rintro _ ⟨⟩
  exact ⟨hrange, fun _ => .inl ⟨rfl, dst, rfl⟩⟩

/-- A symbol is moved through a relocation of the immediate. -/
theorem moveSymbol_meant {dst label : String} {addend : Int} {src : Operand}
    (h : moveSymbol dst label addend Code.empty = .ok c) (hsymbol : src.symbol = some label)
    (hplain : ∀ imm, src ≠ .immediate imm)
    (hmeans : ∀ width symbols next n, n ≡ symbols label + addend [ZMOD 2 ^ width] →
      src.Means width symbols next (.immediate n)) : Meant .move (.register dst) src c := by
  obtain ⟨reg, kind, hreg, hkind, pre, hpre, rfl⟩ := moveSymbol_ok h
  have hwide : reg.width ≠ 8 := by
    rcases hkind with ⟨hwidth, -⟩ | ⟨hwidth, -⟩ <;> omega
  obtain ⟨hhigh, hrex8⟩ := (lookupReg_width hreg).2 hwide
  have hbefore : pre = (registerPrefixes reg.width false (decide (8 ≤ reg.code)) reg.rex8).bytes ++
      (moveOpcode reg.width (reg.code &&& 7)).bytes := by
    have hsize : reg.width ≠ 16 := by
      rcases hkind with ⟨hwidth, -⟩ | ⟨hwidth, -⟩ <;> omega
    rw [hpre]
    simp [registerPrefixes, Prefixes.bytes, moveOpcode, Opcode.bytes, hwide, hsize, hrex8]
  refine ⟨by rw [hsymbol]; rfl, reg.width, .inl ⟨dst, .inl rfl, reg, hreg, rfl⟩,
    fun imm himm => absurd himm (hplain imm), fun symbols address bytes hlink => ?_⟩
  have hfield : ∃ fits : Bool, linkField symbols address (pre ++ leInt (reg.width / 8) 0)
      ⟨pre.length, label, kind, addend⟩ =
        if fits = true then some (pre ++ leInt (reg.width / 8) (symbols label + addend)) else none := by
    have hany : ∀ linked : Whale.RelocKind, objectKind kind = some linked →
        Linker.RelocKind.value linked (symbols label + addend) (address + pre.length) =
          some (symbols label + addend, reg.width / 8) → ∃ fits : Bool,
        linkField symbols address (pre ++ leInt (reg.width / 8) 0)
            ⟨pre.length, label, kind, addend⟩ =
          if fits = true then some (pre ++ leInt (reg.width / 8) (symbols label + addend))
          else none := by
      intro linked hlinked hvalue
      rw [← length_leInt (reg.width / 8) 0] at hvalue
      have hfield : linkField symbols address (pre ++ leInt (reg.width / 8) 0 ++ [])
          ⟨pre.length, label, kind, addend⟩ = _ := linkField_eq rfl hlinked hvalue
      simp only [List.append_nil, length_leInt] at hfield
      exact ⟨_, hfield⟩
    rcases hkind with ⟨hwidth, rfl⟩ | ⟨hwidth, rfl⟩
    · exact hany .absolute64 rfl (by rw [hwidth]; rfl)
    · exact hany .absolute32 rfl (by rw [hwidth]; rfl)
  obtain ⟨fits, hfield⟩ := hfield
  unfold Code.linked at hlink
  simp only [List.foldlM_cons, List.foldlM_nil, bind_pure] at hlink
  rw [hfield] at hlink
  split at hlink
  case isFalse => cases hlink
  case isTrue =>
    cases hlink
    refine ⟨by simp, ?_⟩
    rw [hbefore]
    obtain ⟨d, m, hdecode, hmeaning, hoperation, hwidth, hdst, hsrc⟩ :=
      moveRegister_means symbols (address + _) hreg (fun h => by rw [hhigh] at h; cases h)
        (symbols label + addend)
    refine ⟨d, m, hdecode, hmeaning, hoperation, hwidth, hdst, ?_⟩
    cases hm : m.src with
    | location => 
        rw [hm] at hsrc
        exact hsrc.elim
    | immediate n =>
        rw [hm] at hsrc
        exact hmeans _ _ _ _ hsrc

theorem binopImmediate_meant {dst : String} {number : Nat} (hnumber : number < 8)
    (h : binopImmediate dst imm number Code.empty = .ok c) :
    Meant (arithmetic number) (.register dst) (.immediate imm) c := by
  obtain ⟨reg, hreg, hfits, hhigh, rfl⟩ := binopImmediate_ok h
  refine .of_plain rfl rfl rfl (.inl ⟨dst, .inl rfl, reg, hreg, rfl⟩) ?_ fun symbols next => ?_
  · rintro _ ⟨⟩
    exact representable_of_fits hfits
  have hvalid : (immediateForm reg.width imm (some number)).Valid := immediateForm_valid hfits (by
    rintro n ⟨⟩
    omega)
  obtain ⟨size, hshape, hlength⟩ := hvalid.shape
  have hlow : decide (8 ≤ number) = false := by simpa using hnumber
  have hbits := registerPrefixes_bits reg.width false (decide (8 ≤ reg.code)) reg.rex8
  have hsize : (immediateForm reg.width imm (some number)).immediate.length = size.bytes
      (registerPrefixes reg.width (decide (8 ≤ number)) (decide (8 ≤ reg.code)) reg.rex8) := by
    rw [hlength, hlow]
    refine sizeBytes_congr ?_ ?_ size
    · rw [hbits]
      rfl
    · rfl
  have hdecode := decode_registers reg.width reg.rex8 hshape (by omega) (lookupReg_code hreg) hsize
  rw [hlow] at hdecode
  have hmeaning := meaning_width (d := ⟨_, _, number, some (.register reg.code),
    (immediateForm reg.width imm (some number)).immediate⟩) rfl rfl (congrArg Rex.w hbits)
    (lookupReg_width hreg).1 (immediateForm_form imm (some number))
  refine ⟨_, _, hdecode, hmeaning, ?_, rfl, registerPrefixes_name hreg hhigh,
    immediateForm_modEq hfits⟩
  show arithmetic (number % 8) = arithmetic number
  rw [Nat.mod_eq_of_lt hnumber]


/-! ## Families -/

variable {byteOpcode wideOpcode : UInt8}

theorem form_ite {form : Form} (hbyte : (Opcode.primary byteOpcode).form = some (form, true))
    (hwide : (Opcode.primary wideOpcode).form = some (form, false)) :
    (Opcode.primary (if width = 8 then byteOpcode else wideOpcode)).form =
      some (form, decide (width = 8)) := by
  by_cases hwidth : width = 8
  · rw [if_pos hwidth, decide_eq_true hwidth, hbyte]
  · rw [if_neg hwidth, decide_eq_false hwidth, hwide]

theorem shape_ite {shape : Option LongMode.Shape}
    (hbyte : (Opcode.primary byteOpcode).shape = shape)
    (hwide : (Opcode.primary wideOpcode).shape = shape) :
    (Opcode.primary (if width = 8 then byteOpcode else wideOpcode)).shape = shape := by
  split
  · exact hbyte
  · exact hwide

variable {ins : Instruction}

theorem encodeMov_meant (h : encodeMov ins Code.empty = .ok c) :
    ∃ dst src, ins.operands = [dst, src] ∧ Meant .move dst src c := by
  have hshape : ∀ byte ∈ ([0x88, 0x89, 0x8a, 0x8b] : List UInt8),
      (Opcode.primary byte).shape = some ⟨true, .none⟩ := by
    simp only [List.forall_mem_cons]
    exact ⟨rfl, rfl, rfl, rfl, nofun⟩
  unfold encodeMov at h
  split at h
  case h_1 dst imm hoperands => exact ⟨_, _, hoperands, moveImmediate_meant h⟩
  case h_2 dst label hoperands =>
    refine ⟨_, _, hoperands, moveSymbol_meant h rfl nofun fun width symbols next n hn => ?_⟩
    rwa [Int.add_zero] at hn
  case h_3 dst label addend hoperands =>
    exact ⟨_, _, hoperands, moveSymbol_meant h rfl nofun fun width symbols next n hn => hn⟩
  case h_4 dst src hoperands =>
    obtain ⟨⟨reg, reg'⟩, hpair, h⟩ := bind_ok_iff.mp h
    obtain ⟨hdst, hsrc, hwidth⟩ := registerPair_ok hpair
    exact ⟨_, _, hoperands, emitRegReg_meant
      (shape_ite (hshape _ (by simp)) (hshape _ (by simp))) (form_ite (by decide) (by decide)) hdst
      hsrc hwidth h⟩
  case h_5 dst mem hoperands =>
    obtain ⟨reg, hreg, h⟩ := orThrow_then_ok_iff.mp h
    exact ⟨_, _, hoperands, (emitRegMem_meant hreg
      (shape_ite (hshape _ (by simp)) (hshape _ (by simp))) h).1 (form_ite (by decide) (by decide))⟩
  case h_6 mem src hoperands =>
    obtain ⟨reg, hreg, h⟩ := orThrow_then_ok_iff.mp h
    exact ⟨_, _, hoperands, (emitRegMem_meant hreg
      (shape_ite (hshape _ (by simp)) (hshape _ (by simp))) h).2 (form_ite (by decide) (by decide))⟩
  case h_7 mem imm hoperands =>
    exact ⟨_, _, hoperands, encodeMemoryImmediate_meant (fun n hn => by cases hn) h⟩
  all_goals cases h

theorem BinaryOpcodes.Regular.form {op : BinaryOpcodes} (hop : op.Regular) (width : Nat) :
    (Opcode.primary (if width = 8 then op.rmR8 else op.rmR)).form =
        some (.toRegMem (arithmetic op.immediate), decide (width = 8)) ∧
      (Opcode.primary (if width = 8 then op.rRm8 else op.rRm)).form =
        some (.toRegister (arithmetic op.immediate), decide (width = 8)) := by
  obtain ⟨himmediate, h8, hr, hrm8, hrm⟩ := hop
  constructor
  · exact form_ite (Opcode.form_toRegMem himmediate (by decide : 0 < 2) h8)
      (Opcode.form_toRegMem himmediate (by decide : 1 < 2) hr)
  · exact form_ite (Opcode.form_toRegister himmediate (by decide : 0 < 2) hrm8)
      (Opcode.form_toRegister himmediate (by decide : 1 < 2) hrm)

theorem encodeBinop_meant {op : BinaryOpcodes} (hop : op.Regular)
    (h : encodeBinop ins op Code.empty = .ok c) :
    ∃ dst src, ins.operands = [dst, src] ∧ Meant (arithmetic op.immediate) dst src c := by
  unfold encodeBinop at h
  split at h
  case h_1 dst src hoperands =>
    obtain ⟨⟨reg, reg'⟩, hpair, h⟩ := bind_ok_iff.mp h
    obtain ⟨hdst, hsrc, hwidth⟩ := registerPair_ok hpair
    exact ⟨_, _, hoperands, emitRegReg_meant (hop.shape (by split <;> simp)) (hop.form reg.width).1
      hdst hsrc hwidth h⟩
  case h_2 dst imm hoperands => exact ⟨_, _, hoperands, binopImmediate_meant hop.1 h⟩
  case h_5 dst mem hoperands =>
    obtain ⟨reg, hreg, h⟩ := orThrow_then_ok_iff.mp h
    exact ⟨_, _, hoperands, (emitRegMem_meant hreg (hop.shape (by split <;> simp)) h).1
      (hop.form reg.width).2⟩
  case h_6 mem src hoperands =>
    obtain ⟨reg, hreg, h⟩ := orThrow_then_ok_iff.mp h
    exact ⟨_, _, hoperands, (emitRegMem_meant hreg (hop.shape (by split <;> simp)) h).2
      (hop.form reg.width).1⟩
  case h_7 mem imm hoperands =>
    refine ⟨_, _, hoperands, encodeMemoryImmediate_meant ?_ h⟩
    rintro n ⟨⟩
    exact hop.1
  all_goals cases h

theorem encodeRegisterPair_meant {dst src : Operand} (hshape : ∀ byte ∈ [byteOpcode, wideOpcode],
      (Opcode.primary byte).shape = some ⟨true, .none⟩)
    (hbyte : (Opcode.primary byteOpcode).form = some (.toRegMem operation, true))
    (hwide : (Opcode.primary wideOpcode).form = some (.toRegMem operation, false))
    (h : encodeRegisterPair dst src byteOpcode wideOpcode Code.empty = .ok c) :
    Meant operation dst src c := by
  obtain ⟨reg, hreg, h⟩ := bind_ok_iff.mp h
  obtain ⟨reg', hreg', h⟩ := bind_ok_iff.mp h
  obtain ⟨hwidth, hemit⟩ := require_then_ok_iff.mp h
  obtain ⟨-, name, rfl, hdst⟩ := registerOperand_ok hreg
  obtain ⟨-, name', rfl, hsrc⟩ := registerOperand_ok hreg'
  exact emitRegReg_meant (shape_ite (hshape _ (by simp)) (hshape _ (by simp)))
    (form_ite hbyte hwide) hdst hsrc hwidth hemit

theorem encodeImul_meant (htwo : ins.operands.length = 2) (h : encodeImul ins Code.empty = .ok c) :
    ∃ dst src, ins.operands = [dst, src] ∧ Meant .multiply dst src c := by
  have hshape : (Opcode.escaped 0xaf).shape = some ⟨true, .none⟩ := by decide
  have hform : (Opcode.escaped 0xaf).form = some (.toRegister .multiply, false) := by decide
  unfold encodeImul at h
  split at h
  case h_1 hoperands =>
    rw [hoperands] at htwo
    cases htwo
  case h_2 dst src hoperands =>
    obtain ⟨reg, hreg, h⟩ := orThrow_then_ok_iff.mp h
    obtain ⟨hwide, h⟩ := require_then_ok_iff.mp h
    cases src
    case register src =>
      obtain ⟨reg', hreg', h⟩ := bind_ok_iff.mp h
      obtain ⟨hwidth, h⟩ := require_then_ok_iff.mp h
      obtain ⟨c', hrex, h⟩ := bind_ok_iff.mp h
      rw [orThrow_ok_iff] at hreg'
      cases h
      obtain ⟨rfl, -⟩ := emitRex_ok hrex
      refine ⟨_, _, hoperands, .of_plain (by simp [Code.empty]) rfl rfl
        (.inl ⟨dst, .inl rfl, reg, hreg, rfl⟩) (by rintro _ ⟨⟩) fun symbols next => ?_⟩
      have hwide' : reg'.width ≠ 8 := hwidth ▸ hwide
      obtain ⟨hhigh, hrex8⟩ := (lookupReg_width hreg).2 hwide
      obtain ⟨hhigh', hrex8'⟩ := (lookupReg_width hreg').2 hwide'
      refine (registers_means false hshape hreg hreg' rfl hwidth (fun h => ?_) (fun h => ?_) ?_).2
        (by rw [hform, decide_eq_false hwide])
      · rw [hrex8, hrex8'] at h
        exact h.elim id id
      · rw [hhigh, hhigh'] at h
        rcases h with h | h <;> cases h
      · rw [emitOperandSizePrefix_eq]
        simp [registerPrefixes, Prefixes.bytes, Code.empty, Opcode.bytes]
    case memory mem =>
      obtain ⟨hmem, h⟩ := require_then_ok_iff.mp h
      rw [emitOperandSizePrefix_eq] at h
      have hf : (MemoryForm.mk (decide (reg.width = 16)) none (.escaped 0xaf) reg reg.width
          []).Valid := ⟨by simp, lookupReg_code hreg, .none, hshape, rfl⟩
      have hmeant := (MemoryForm.meant .multiply hf h rfl rfl hreg rfl hmem).1
        (by rw [hform, decide_eq_false hwide])
      rw [Code.extend_nil] at hmeant
      exact ⟨_, _, hoperands, hmeant⟩
    all_goals cases h
  all_goals cases h

/-- The moves and the arithmetic instructions with two operands. -/
def operations : List (String × Operation) :=
  [("mov", .move), ("add", .add), ("or", .or), ("adc", .adc), ("sbb", .sbb), ("and", .and),
   ("sub", .sub), ("xor", .xor), ("cmp", .compare), ("test", .test), ("imul", .multiply)]

theorem forall_mem_pair {α : Type} {P : α → Prop} {a b : α} (ha : P a) (hb : P b) :
    ∀ x ∈ [a, b], P x :=
  List.forall_mem_cons.mpr ⟨ha, List.forall_mem_singleton.mpr hb⟩

/-- The family has the operation. -/
def Family.Performs (operation : Operation) : Family → Prop
  | .mov => operation = .move
  | .binop op => operation = arithmetic op.immediate
  | .carry byteOpcode wideOpcode =>
      (∀ byte ∈ [byteOpcode, wideOpcode], (Opcode.primary byte).shape = some ⟨true, .none⟩) ∧
        (Opcode.primary byteOpcode).form = some (.toRegMem operation, true) ∧
        (Opcode.primary wideOpcode).form = some (.toRegMem operation, false)
  | .test => operation = .test
  | .imul => operation = .multiply
  | _ => False

theorem operations_family : ∀ e ∈ operations,
    ∃ family, familyOf e.1 = some family ∧ family.Performs e.2 := by
  intro e he
  simp only [operations, List.mem_cons, List.not_mem_nil, or_false] at he
  rcases he with rfl | rfl | rfl | rfl | rfl | rfl | rfl | rfl | rfl | rfl | rfl
  case inr.inr.inr.inl | inr.inr.inr.inr.inl =>
    exact ⟨_, rfl, forall_mem_pair rfl rfl, rfl, rfl⟩
  all_goals exact ⟨_, rfl, rfl⟩

theorem encodeInstruction_meant (hoperation : (ins.mnemonic, operation) ∈ operations)
    (htwo : ins.operands.length = 2) {currentSection currentOffset : Nat}
    {labelLocs : LabelLocations} {relaxation : BranchRelaxation}
    (h : encodeInstruction ins Code.empty currentSection currentOffset labelLocs relaxation =
      .ok c) : ∃ dst src, ins.operands = [dst, src] ∧ Meant operation dst src c := by
  obtain ⟨family, hfamily, hperforms⟩ := operations_family _ hoperation
  unfold encodeInstruction at h
  rw [hfamily] at h
  cases family with
  | mov =>
      obtain rfl : operation = .move := hperforms
      exact encodeMov_meant h
  | binop op =>
      obtain rfl : operation = arithmetic op.immediate := hperforms
      exact encodeBinop_meant (familyOf_binop hfamily) h
  | carry byteOpcode wideOpcode =>
      obtain ⟨hshape, hbyte, hwide⟩ := hperforms
      simp only [encodeCarry] at h
      split at h
      · exact ⟨_, _, ‹_›, encodeRegisterPair_meant hshape hbyte hwide h⟩
      · cases h
  | test =>
      obtain rfl : operation = .test := hperforms
      simp only [encodeTest] at h
      split at h
      · exact ⟨_, _, ‹_›, encodeRegisterPair_meant (forall_mem_pair rfl rfl) rfl rfl h⟩
      · cases h
  | imul =>
      obtain rfl : operation = .multiply := hperforms
      exact encodeImul_meant htwo h
  | _ => exact hperforms.elim

/-- An accepted move or arithmetic instruction with two operands means what was written. -/
theorem dataInstruction_means {consts : AssocMap String Int} {scope : Option String}
    {ins inst : Instruction} (hresolve : resolveInstruction consts scope ins = .ok inst)
    (hoperation : (ins.mnemonic, operation) ∈ operations) (htwo : ins.operands.length = 2)
    {currentSection currentOffset : Nat} {labelLocs : LabelLocations}
    {relaxation : BranchRelaxation}
    (h : encodeInstruction inst Code.empty currentSection currentOffset labelLocs relaxation =
      .ok c) :
    ∃ dst src dst' src', ins.operands = [dst, src] ∧ dst.ResolvesTo consts scope dst' ∧
      src.ResolvesTo consts scope src' ∧ Meant operation dst' src' c := by
  have hoperands := resolveInstruction_operands hresolve
  rw [← (resolveInstruction_ok hresolve).1] at hoperation
  obtain ⟨dst', src', hpair, hmeant⟩ :=
    encodeInstruction_meant hoperation (hoperands.length_eq ▸ htwo) h
  obtain ⟨dst, src, hsource⟩ := List.length_eq_two.mp htwo
  rw [hpair, hsource] at hoperands
  cases hoperands with
  | cons hdst hrest =>
      cases hrest with
      | cons hsrc _ => exact ⟨dst, src, dst', src', hsource, hdst, hsrc, hmeant⟩

/-- The least number of a byte is sign-extended to a register that needs a REX prefix. -/
theorem dataInstruction_means_r9 :
    Meant .xor (.register "r9") (.immediate (-128)) ⟨[0x49, 0x83, 0xf1, 0x80], []⟩ := by
  have hresolve : resolveInstruction [("mask", -128)] none
      ⟨"xor", [.register "r9", .label "mask"]⟩ = .ok ⟨"xor", [.register "r9", .immediate (-128)]⟩ := by
    decide
  have hcode : encodeInstruction ⟨"xor", [.register "r9", .immediate (-128)]⟩ Code.empty 0 0 []
      ⟨0, false⟩ = .ok ⟨[0x49, 0x83, 0xf1, 0x80], []⟩ := by decide
  obtain ⟨dst, src, dst', src', hoperands, hdst, hsrc, hmeant⟩ :=
    dataInstruction_means hresolve (by decide : ("xor", Operation.xor) ∈ operations) rfl hcode
  cases hoperands
  cases hdst
  obtain ⟨name, hname, rfl⟩ := hsrc
  cases hname
  exact hmeant

end

end Whale.Assembler.Amd64
