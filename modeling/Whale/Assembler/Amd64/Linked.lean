import Whale.Assembler.Amd64.ConstantsResolved
import Whale.Assembler.Amd64.Emission
import Whale.Assembler.Amd64.Lengths
import Whale.Linker.Relocation

set_option autoImplicit false

/-! # Operands in memory mean what was written

The bytes of an accepted instruction, with the fields of its relocations filled in by the rule of
the linker, are taken apart by the rules of the architecture. The address in them is the one of
the operand. -/

namespace Whale.Assembler.Amd64

open LongMode (Rex Prefixes Opcode Decoded decode)

/-! ## Filling in the fields -/

/-- The kind in the object file. No instruction has a relocation of another target. -/
def objectKind : RelocKind → Option Whale.RelocKind
  | .targetSpecific .. => none
  | .absolute64 => some .absolute64
  | .absolute32 => some .absolute32
  | .signedAbsolute32 => some .signedAbsolute32
  | .relative32 => some .relative32
  | .branch32 => some .plt32
  | .relative8 => some .relative8

/-- A field with the value that the linker computes, if the value fits. -/
def linkField (symbols : String → Int) (address : Nat) (bytes : List UInt8) (reloc : Relocation) :
    Option (List UInt8) := do
  let kind ← objectKind reloc.kind
  let (value, width) ←
    Linker.RelocKind.value kind (symbols reloc.symbol + reloc.addend) (address + reloc.offset)
  if Linker.RelocKind.fits kind value = true then
    return bytes.take reloc.offset ++ leInt width value ++ bytes.drop (reloc.offset + width)
  else none

/-- The bytes at an address, for the values of the symbols. -/
def Code.linked (c : Code) (symbols : String → Int) (address : Nat) : Option (List UInt8) :=
  c.relocs.foldlM (linkField symbols address) c.bytes

variable {c : Code}

theorem linked_plain (h : c.relocs = []) (symbols : String → Int) (address : Nat) :
    c.linked symbols address = some c.bytes := by
  unfold Code.linked
  rw [h]
  rfl

variable {symbols : String → Int}

/-- The field is replaced, the bytes around it stay. -/
theorem linkField_eq {address : Nat} {reloc : Relocation} {before field after : List UInt8}
    {kind : Whale.RelocKind} {value : Int} (hoffset : reloc.offset = before.length)
    (hkind : objectKind reloc.kind = some kind)
    (hvalue : Linker.RelocKind.value kind (symbols reloc.symbol + reloc.addend)
      (address + reloc.offset) = some (value, field.length)) :
    linkField symbols address (before ++ field ++ after) reloc =
      if Linker.RelocKind.fits kind value = true then
        some (before ++ leInt field.length value ++ after)
      else none := by
  have htake : (before ++ field ++ after).take reloc.offset = before := by
    rw [hoffset, List.append_assoc, List.take_left]
  have hdrop : (before ++ field ++ after).drop (reloc.offset + field.length) = after := by
    rw [hoffset, ← List.length_append, List.drop_left]
  unfold linkField
  rw [hkind]
  simp only [Option.bind_eq_bind, Option.bind_some, hvalue, htake, hdrop]
  rfl

/-- The value of a displacement. -/
def displacement (kind : RelocKind) (target : Int) (place : Nat) : Int :=
  if kind = .signedAbsolute32 then target else target - place

theorem linkField_displacement {address : Nat} {reloc : Relocation}
    {before field after : List UInt8} (hoffset : reloc.offset = before.length)
    (hfield : field.length = 4) (hkind : reloc.kind = .signedAbsolute32 ∨ reloc.kind = .relative32)
    :
    linkField symbols address (before ++ field ++ after) reloc =
      if inI32 (displacement reloc.kind (symbols reloc.symbol + reloc.addend)
          (address + reloc.offset)) then
        some (before ++ leInt 4 (displacement reloc.kind (symbols reloc.symbol + reloc.addend)
          (address + reloc.offset)) ++ after)
      else none := by
  unfold displacement
  rcases hkind with hkind | hkind
  · rw [linkField_eq hoffset (by rw [hkind]; rfl : objectKind reloc.kind = some .signedAbsolute32)
      (by rw [hfield]; rfl), hfield, if_pos hkind]
    simp [Linker.RelocKind.fits, inI32]
  · have hrelative : reloc.kind ≠ .signedAbsolute32 := by
      rw [hkind]
      decide
    rw [if_neg hrelative,
      linkField_eq hoffset (by rw [hkind]; rfl : objectKind reloc.kind = some .relative32)
      (by rw [hfield]; rfl), hfield]
    simp [Linker.RelocKind.fits, inI32]

/-! ## Taking forms apart -/

variable {f : MemoryForm}

theorem MemoryForm.decode_eq (hf : f.Valid) {addr : EncodedAddress} {a : LongMode.Address}
    {disp : List UInt8} (ha : addr.Denotes (addr.sibBytes ++ disp) a) (force : Bool) :
    decode (f.legacy.bytes ++ addr.head
        (chosenRex f.rexWidth (decide (8 ≤ f.reg.code)) addr.rexX addr.rexB force)
        f.opcode.bytes f.reg.code ++ disp ++ f.immediate) =
      some ⟨⟨f.operandSize, f.rep,
        chosenRex f.rexWidth (decide (8 ≤ f.reg.code)) addr.rexX addr.rexB force⟩, f.opcode,
        f.reg.code, some (.memory a), f.immediate⟩ := by
  obtain ⟨size, hshape, himmediate⟩ := hf.shape
  obtain ⟨hmod, hrm, hreads⟩ := ha
  generalize hrex : chosenRex f.rexWidth (decide (8 ≤ f.reg.code)) addr.rexX addr.rexB force = rex
  have hbits : (Prefixes.mk f.operandSize f.rep rex).rexBits =
      ⟨decide (f.rexWidth = 64), decide (8 ≤ f.reg.code), addr.rexX, addr.rexB⟩ := by
    rw [← hrex]
    exact chosenRex_bits _ _ _ _ _
  obtain ⟨hmodField, hregField, hrmField⟩ :=
    ModRM.encode_fields (by omega : addr.modBits < 4) hf.reg (by omega : addr.rmBits < 16)
  have hread : LongMode.readRegMem (Prefixes.mk f.operandSize f.rep rex).rexBits
      ((ModRM.mk addr.modBits f.reg.code addr.rmBits).encode.toNat / 64)
      ((ModRM.mk addr.modBits f.reg.code addr.rmBits).encode.toNat % 8)
      ((addr.sibBytes ++ disp) ++ f.immediate) = some (.memory a, f.immediate) := by
    rw [hbits, hmodField, hrmField, Nat.mod_eq_of_lt (by omega)]
    exact hreads _ _ _
  have hlength : f.immediate.length = size.bytes ⟨f.operandSize, f.rep, rex⟩ := by
    rw [himmediate]
    unfold LongMode.ImmediateSize.bytes Prefixes.width
    rw [hbits]
    rfl
  have hdecode := LongMode.decode_modrm (p := ⟨f.operandSize, f.rep, rex⟩) hf.rep hshape hread
    hlength
  rw [hbits, hregField, extend_low hf.reg] at hdecode
  rw [← hdecode]
  congr 1
  unfold EncodedAddress.head MemoryForm.legacy Prefixes.bytes
  simp

/-! ## What an operand means -/

/-- The displacement of an operand with a symbol, from the end of the instruction unless the
address is absolute. -/
def MemoryOperand.symbolDisplacement (mem : MemoryOperand) (target next : Int) : Int :=
  if mem.addressMode = .absolute then target + mem.disp else target + mem.disp - next

/-- The address is the one that was written: by its registers and its displacement, or by a symbol
and an offset, whatever the registers hold. -/
def MemoryOperand.Denotes (mem : MemoryOperand) (symbols : String → Int) (next : Int)
    (a : LongMode.Address) : Prop :=
  match mem.symbol with
  | none => NamesBase mem a.base ∧ NamesIndex mem a.index ∧ a.disp = mem.disp
  | some symbol =>
      a.base = (if mem.addressMode = .absolute then .none else .next) ∧ a.index = none ∧
        ∀ registers, a.value registers next = symbols symbol + mem.disp

variable {mem : MemoryOperand}

theorem memoryAddend_ok {trailing : Nat} {addend : Int} (h : memoryAddend mem trailing = .ok addend)
    :
    addend = if mem.addressMode = .absolute then mem.disp else mem.disp - 4 - trailing := by
  have hsame : ∀ {n m : Int}, toI64 n = some m → m = n := by
    intro n m h
    unfold toI64 at h
    split at h <;> cases h
    rfl
  unfold memoryAddend at h
  split at h
  case isTrue hmode =>
    cases h
    rw [if_pos hmode]
  case isFalse hmode =>
    obtain ⟨n, hn, h⟩ := bind_ok_iff.mp h
    rw [if_neg hmode, hsame (orThrow_ok_iff.mp h), hsame (orThrow_ok_iff.mp hn)]

theorem MemoryForm.linked_symbol {symbol : String} (hsymbol : mem.symbol = some symbol)
    (h : f.emit mem = .ok c) :
    ∃ addr rex, memoryAddress mem = .ok addr ∧
      rex = chosenRex f.rexWidth (decide (8 ≤ f.reg.code)) addr.rexX addr.rexB f.reg.rex8 ∧
      (f.reg.high8 = true → rex = none) ∧
      c.relocs.map Relocation.symbol = [symbol] ∧
      c.bytes.length = (f.legacy.bytes ++ addr.head rex f.opcode.bytes f.reg.code).length + 4 ∧
      ∀ symbols address, (c.extend f.immediate).linked symbols address =
        let disp := mem.symbolDisplacement (symbols symbol)
          ((address : Int) + (c.extend f.immediate).bytes.length)
        if inI32 disp then
          some (f.legacy.bytes ++ addr.head rex f.opcode.bytes f.reg.code ++ leInt 4 disp ++
            f.immediate)
        else none := by
  obtain ⟨addr, rex, haddr, hrex, hhigh, hbytes, hrelocs⟩ := emitMemoryOperation_ok h
  rcases hrelocs with ⟨hnone, -⟩ | ⟨symbol', addend, hsome, haddend, hrelocs⟩
  · rw [hsymbol] at hnone
    cases hnone
  rw [hsymbol] at hsome
  cases hsome
  have hlength : addr.dispBytes.length = 4 := by
    rw [(memoryAddress_symbol hsymbol haddr).2.2.1, length_leInt]
  refine ⟨addr, rex, haddr, hrex, hhigh, by rw [hrelocs]; rfl, ?_, fun symbols address => ?_⟩
  · rw [hbytes, List.length_append, hlength]
  have haddend := memoryAddend_ok haddend
  unfold Code.linked
  simp only [Code.relocs_extend, Code.bytes_extend, hrelocs, hbytes, List.nil_append,
    List.foldlM_cons, List.foldlM_nil, bind_pure]
  rw [linkField_displacement rfl hlength (by split <;> simp)]
  have hvalue : displacement
      (if mem.addressMode = .absolute then .signedAbsolute32 else .relative32)
      (symbols symbol + addend)
      (address + (f.legacy.bytes ++ addr.head rex f.opcode.bytes f.reg.code).length) =
      mem.symbolDisplacement (symbols symbol) (address + (f.legacy.bytes ++
        addr.head rex f.opcode.bytes f.reg.code ++ addr.dispBytes ++ f.immediate).length) := by
    unfold displacement MemoryOperand.symbolDisplacement
    rw [haddend]
    -- An absolute address is the symbol itself, a relative one counts from the next instruction.
    by_cases hmode : mem.addressMode = .absolute
    · simp [hmode]
    · rw [if_neg hmode, if_neg hmode, if_neg hmode, if_neg (by decide)]
      simp only [List.length_append, hlength]
      omega
  simp only [hvalue]

theorem MemoryForm.relocs_plain (hsymbol : mem.symbol = none) (h : f.emit mem = .ok c) :
    (c.extend f.immediate).relocs = [] := by
  obtain ⟨_, _, -, -, -, -, hrelocs⟩ := emitMemoryOperation_ok h
  rcases hrelocs with ⟨-, hrelocs⟩ | ⟨_, _, hsome, -⟩
  · exact hrelocs
  · rw [hsymbol] at hsome
    cases hsome

theorem MemoryForm.relocs_symbol (h : f.emit mem = .ok c) :
    (c.extend f.immediate).relocs.map Relocation.symbol = mem.symbol.toList := by
  cases hsymbol : mem.symbol with
  | none =>
      rw [MemoryForm.relocs_plain hsymbol h]
      rfl
  | some symbol =>
      obtain ⟨-, -, -, -, -, hrelocs, -⟩ := MemoryForm.linked_symbol hsymbol h
      exact hrelocs

/-- The bytes are an instruction of the form with the given address. -/
def MemoryForm.Decodes (f : MemoryForm) (bytes : List UInt8) (a : LongMode.Address) : Prop :=
  ∃ rexX rexB rex, rex = chosenRex f.rexWidth (decide (8 ≤ f.reg.code)) rexX rexB f.reg.rex8 ∧
    (f.reg.high8 = true → rex = none) ∧
    decode bytes = some ⟨⟨f.operandSize, f.rep, rex⟩, f.opcode, f.reg.code, some (.memory a),
      f.immediate⟩

theorem MemoryForm.linked (hf : f.Valid) (h : f.emit mem = .ok c) {address : Nat}
    {bytes : List UInt8} (hlinked : (c.extend f.immediate).linked symbols address = some bytes) :
    bytes.length = (c.extend f.immediate).bytes.length ∧
      ∃ a, f.Decodes bytes a ∧ mem.Denotes symbols (address + bytes.length) a := by
  -- Without a symbol nothing is patched; with one the four displacement bytes are.
  cases hsymbol : mem.symbol with
  | none =>
      obtain ⟨addr, rex, haddr, hrex, hhigh, hbytes, -⟩ := emitMemoryOperation_ok h
      rw [linked_plain (MemoryForm.relocs_plain hsymbol h)] at hlinked
      cases hlinked
      obtain ⟨a, hbase, hindex, hdisp, ha⟩ := memoryAddress_plain hsymbol haddr
      refine ⟨rfl, a, ⟨addr.rexX, addr.rexB, rex, hrex, hhigh, ?_⟩, ?_⟩
      · rw [Code.bytes_extend, hbytes, hrex]
        exact MemoryForm.decode_eq hf ha f.reg.rex8
      · unfold MemoryOperand.Denotes
        rw [hsymbol]
        exact ⟨hbase, hindex, hdisp⟩
  | some symbol =>
      obtain ⟨addr, rex, haddr, hrex, hhigh, -, hcount, hfield⟩ :=
        MemoryForm.linked_symbol hsymbol h
      rw [hfield] at hlinked
      simp only at hlinked
      generalize hdisp : mem.symbolDisplacement (symbols symbol)
        ((address : Int) + (c.extend f.immediate).bytes.length) = disp at hlinked
      split at hlinked
      case isFalse => cases hlinked
      case isTrue hrange =>
        cases hlinked
        have ha := (memoryAddress_symbol hsymbol haddr).2.2.2 (leInt 4 disp) (length_leInt 4 disp)
        have hvalue : signedValue (leInt 4 disp) = disp :=
          DispKind.signedValue_bytes (d := .disp32 disp) hrange
        rw [hvalue] at ha
        have hdecode := MemoryForm.decode_eq hf ha f.reg.rex8
        rw [← hrex] at hdecode
        have hsame : (f.legacy.bytes ++ addr.head rex f.opcode.bytes f.reg.code ++ leInt 4 disp ++
            f.immediate).length = (c.extend f.immediate).bytes.length := by
          rw [Code.bytes_extend, List.length_append, List.length_append, length_leInt, ← hcount,
            ← List.length_append]
        refine ⟨hsame, _, ⟨addr.rexX, addr.rexB, rex, hrex, hhigh, hdecode⟩, ?_⟩
        rw [hsame]
        unfold MemoryOperand.Denotes
        rw [hsymbol]
        refine ⟨rfl, rfl, fun registers => ?_⟩
        rw [← hdisp]
        unfold LongMode.Address.value MemoryOperand.symbolDisplacement
        by_cases hmode : mem.addressMode = .absolute
        · simp [hmode]
        · simp [hmode]

/-! ## From the source to the bytes -/

/-- The operand that is encoded: its symbol has its scope, and a constant is part of the
displacement. -/
def MemoryOperand.ResolvesTo (consts : AssocMap String Int) (scope : Option String)
    (mem mem' : MemoryOperand) : Prop :=
  match mem.symbol with
  | none => mem' = mem
  | some raw => ∃ name, scopedName scope raw = some name ∧
      match consts.get name with
      | none => mem' = { mem with symbol := some name }
      | some value => mem' = { mem with disp := value + mem.disp, symbol := none }

variable {consts : AssocMap String Int}

variable {scope : Option String}

theorem resolveOperand_memory {named op : Operand}
    (hnamed : resolveOperandSymbols scope (.memory mem) = .ok named)
    (hop : resolveOperandConsts consts named = .ok op) :
    ∃ mem', op = .memory mem' ∧ mem.ResolvesTo consts scope mem' := by
  unfold MemoryOperand.ResolvesTo
  unfold resolveOperandSymbols at hnamed
  cases hsymbol : mem.symbol with
  | none =>
      simp only [hsymbol] at hnamed
      cases hnamed
      unfold resolveOperandConsts at hop
      simp only [hsymbol, Option.bind_none] at hop
      cases hop
      exact ⟨mem, rfl, rfl⟩
  | some raw =>
      simp only [hsymbol] at hnamed
      obtain ⟨name, hname, hnamed⟩ := bind_ok_iff.mp hnamed
      cases hnamed
      unfold resolveOperandConsts at hop
      simp only [Option.bind_some] at hop
      cases hvalue : consts.get name with
      | none =>
          simp only [hvalue, Option.map_none] at hop
          cases hop
          refine ⟨_, rfl, name, Definitions.resolveSymbolName_ok_iff.mp hname, ?_⟩
          rw [hvalue]
      | some value =>
          simp only [hvalue, Option.map_some] at hop
          obtain ⟨n, hn, hop⟩ := bind_ok_iff.mp hop
          obtain ⟨disp, hdisp, hop⟩ := bind_ok_iff.mp hop
          cases hop
          obtain ⟨-, rfl⟩ := Definitions.checkedExpressionAdd_ok_iff.mp hn
          have hsame : disp = value + mem.disp := by
            have hdisp := orThrow_ok_iff.mp hdisp
            unfold toI64 at hdisp
            split at hdisp <;> cases hdisp
            rfl
          refine ⟨_, rfl, name, Definitions.resolveSymbolName_ok_iff.mp hname, ?_⟩
          rw [hvalue, hsame]

def Operand.ResolvesTo (consts : AssocMap String Int) (scope : Option String) (op : Operand)
    (op' : Operand) : Prop :=
  match op with
  | .label raw => ∃ name, scopedName scope raw = some name ∧
      op' = ((consts.get name).map Operand.immediate).getD (.label name)
  | .symbolExpr raw addend => ∃ name, scopedName scope raw = some name ∧
      op' = ((consts.get name).map fun value => .immediate (value + addend)).getD
        (.symbolExpr name addend)
  | .memory mem => ∃ mem', op' = .memory mem' ∧ mem.ResolvesTo consts scope mem'
  | _ => op' = op

theorem resolveOperand_ok {op named op' : Operand}
    (hnamed : resolveOperandSymbols scope op = .ok named)
    (hop : resolveOperandConsts consts named = .ok op') : op.ResolvesTo consts scope op' := by
  cases op with
  | memory => exact resolveOperand_memory hnamed hop
  | register | immediate =>
      cases hnamed
      cases hop
      rfl
  | label raw =>
      obtain ⟨name, hname, hnamed⟩ := bind_ok_iff.mp hnamed
      cases hnamed
      refine ⟨name, Definitions.resolveSymbolName_ok_iff.mp hname, ?_⟩
      unfold resolveOperandConsts at hop
      cases hvalue : consts.get name with
      | none =>
          simp only [hvalue] at hop
          cases hop
          rfl
      | some value =>
          simp only [hvalue] at hop
          cases hop
          rfl
  | symbolExpr raw addend =>
      obtain ⟨name, hname, hnamed⟩ := bind_ok_iff.mp hnamed
      cases hnamed
      refine ⟨name, Definitions.resolveSymbolName_ok_iff.mp hname, ?_⟩
      unfold resolveOperandConsts at hop
      cases hvalue : consts.get name with
      | none =>
          simp only [hvalue] at hop
          cases hop
          rfl
      | some value =>
          simp only [hvalue] at hop
          obtain ⟨n, hn, hop⟩ := bind_ok_iff.mp hop
          cases hop
          obtain ⟨-, rfl⟩ := Definitions.checkedExpressionAdd_ok_iff.mp hn
          rfl

theorem resolveInstruction_operands {ins inst : Instruction}
    (h : resolveInstruction consts scope ins = .ok inst) :
    List.Forall₂ (Operand.ResolvesTo consts scope) ins.operands inst.operands := by
  obtain ⟨-, named, hnamed, hoperands⟩ := resolveInstruction_ok h
  generalize ins.operands = ops at hnamed
  generalize inst.operands = ops' at hoperands
  induction hnamed generalizing ops' with
  | nil =>
      cases hoperands
      exact .nil
  | cons hop _ ih =>
      cases hoperands with
      | cons hop' hrest => exact .cons (resolveOperand_ok hop hop') (ih _ hrest)

theorem resolveInstruction_memory {ins inst : Instruction}
    (h : resolveInstruction consts scope ins = .ok inst) (hmem : .memory mem ∈ ins.operands) :
    ∃ mem', .memory mem' ∈ inst.operands ∧ mem.ResolvesTo consts scope mem' := by
  have hoperands := resolveInstruction_operands h
  obtain ⟨i, hi, hget⟩ := List.getElem_of_mem hmem
  have hi' : i < inst.operands.length := by
    rw [← hoperands.length_eq]
    exact hi
  have hop := hoperands.get hi hi'
  rw [List.get_eq_getElem, hget] at hop
  obtain ⟨mem', hmem', hresolves⟩ := hop
  refine ⟨mem', ?_, hresolves⟩
  rw [← hmem']
  exact List.getElem_mem hi'

/-- An operand in memory is in the bytes as it was written. The linker fills in a field for a
symbol exactly when the displacement fits. -/
theorem memoryOperand_encodes {consts : AssocMap String Int} {scope : Option String}
    {ins inst : Instruction} (hresolve : resolveInstruction consts scope ins = .ok inst)
    {currentSection currentOffset : Nat} {labelLocs : LabelLocations}
    {relaxation : BranchRelaxation} {c : Code}
    (h : encodeInstruction inst Code.empty currentSection currentOffset labelLocs relaxation =
      .ok c) {mem : MemoryOperand} (hmem : .memory mem ∈ ins.operands) :
    ∃ mem', .memory mem' ∈ inst.operands ∧ mem.ResolvesTo consts scope mem' ∧
      c.relocs.map Relocation.symbol = mem'.symbol.toList ∧
      ∀ (symbols : String → Int) (address : Nat),
        ((c.linked symbols address).isSome = true ↔ ∀ symbol ∈ mem'.symbol,
          inI32 (mem'.symbolDisplacement (symbols symbol) (address + c.bytes.length))) ∧
        ∀ bytes, c.linked symbols address = some bytes →
          bytes.length = c.bytes.length ∧
          ∃ d a, decode bytes = some d ∧ d.regMem = some (.memory a) ∧
            mem'.Denotes symbols (address + bytes.length) a := by
  obtain ⟨mem', hmem', hresolves⟩ := resolveInstruction_memory hresolve hmem
  refine ⟨mem', hmem', hresolves, ?_⟩
  cases encodeInstruction_emission h with
  | plain hnone => exact absurd hmem' (hnone mem')
  | field hnone => exact absurd hmem' (hnone mem')
  | memory hone hf hemit =>
      rename_i mem₀ f c₀
      obtain rfl := hone mem' hmem'
      refine ⟨MemoryForm.relocs_symbol hemit, fun symbols address => ⟨?_, fun bytes hbytes => ?_⟩⟩
      · cases hsymbol : mem'.symbol with
        | none =>
            rw [linked_plain (MemoryForm.relocs_plain hsymbol hemit)]
            exact ⟨fun _ => nofun, fun _ => rfl⟩
        | some symbol =>
            obtain ⟨_, _, -, -, -, -, -, hfield⟩ := MemoryForm.linked_symbol hsymbol hemit
            rw [hfield]
            simp only [Option.mem_some_iff, forall_eq']
            split
            case isTrue hrange => exact ⟨fun _ => hrange, fun _ => rfl⟩
            case isFalse hrange => exact ⟨nofun, fun h => absurd h hrange⟩
      · obtain ⟨hlength, a, ⟨_, _, _, -, -, hdecode⟩, ha⟩ := MemoryForm.linked hf hemit hbytes
        exact ⟨hlength, _, a, hdecode, rfl, ha⟩

/-- A comparison of a variable at an offset from a symbol with an immediate of four bytes. -/
def compareCounter : Instruction where
  mnemonic := "cmp"
  operands := [
    .memory {
      addressMode := .relative, width := some 32, base := none, index := none, scale := 1
      disp := 8, symbol := some "counter" },
    .immediate 1000]

theorem memoryOperand_encodes_counter :
    encodeInstruction compareCounter Code.empty 0 0 [] ⟨0, false⟩ =
        .ok ⟨[0x81, 0x3d, 0, 0, 0, 0, 0xe8, 3, 0, 0], [⟨2, "counter", .relative32, 0⟩]⟩ ∧
      ∃ mem : MemoryOperand, mem.symbol = some "counter" ∧ mem.disp = 8 ∧
        ∀ symbols address bytes,
          (Code.mk [0x81, 0x3d, 0, 0, 0, 0, 0xe8, 3, 0, 0]
            [⟨2, "counter", .relative32, 0⟩]).linked symbols address = some bytes →
          ∃ d a, decode bytes = some d ∧ d.regMem = some (.memory a) ∧
            mem.Denotes symbols (address + bytes.length) a := by
  have hcode : encodeInstruction compareCounter Code.empty 0 0 [] ⟨0, false⟩ =
      .ok ⟨[0x81, 0x3d, 0, 0, 0, 0, 0xe8, 3, 0, 0], [⟨2, "counter", .relative32, 0⟩]⟩ := by
    decide
  have hresolve : resolveInstruction [] none compareCounter = .ok compareCounter := by decide
  obtain ⟨mem, hmem, -, -, hlinked⟩ :=
    memoryOperand_encodes hresolve hcode List.mem_cons_self
  have hsame : mem = ⟨.relative, some 32, none, none, 1, 8, some "counter"⟩ := by
    simpa [compareCounter] using hmem
  subst hsame
  exact ⟨hcode, _, rfl, rfl, fun symbols address bytes h => ((hlinked symbols address).2 bytes h).2⟩

end Whale.Assembler.Amd64
