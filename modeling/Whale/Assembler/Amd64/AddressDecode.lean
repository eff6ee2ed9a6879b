import Whale.Assembler.Amd64.Emit
import Whale.Lib.LongMode

set_option autoImplicit false

/-! # Addresses are read back

The ModRM fields, the SIB byte and the displacement of an encoded address denote the base, the
index, the scale and the displacement of the memory operand. -/

namespace Whale.Assembler.Amd64

open LongMode (Rex extend registerNames64)

/-! ## Bytes with fields -/

theorem REX.encode_eq (rex : REX) : rex.encode = (Rex.mk rex.w rex.r rex.x rex.b).byte := by
  obtain ⟨w, r, x, b⟩ := rex
  revert w r x b
  decide

/-- The fields of a ModRM byte; a register number gives its low bits. -/
theorem ModRM.encode_fields {mod reg rm : Nat} (hmod : mod < 4) (hreg : reg < 16) (hrm : rm < 16) :
    (ModRM.mk mod reg rm).encode.toNat / 64 = mod ∧
      (ModRM.mk mod reg rm).encode.toNat / 8 % 8 = reg % 8 ∧
      (ModRM.mk mod reg rm).encode.toNat % 8 = rm % 8 := by
  have hall : ∀ (mod : Fin 4) (reg rm : Fin 16),
      (ModRM.mk mod reg rm).encode.toNat / 64 = mod ∧
        (ModRM.mk mod reg rm).encode.toNat / 8 % 8 = reg % 8 ∧
        (ModRM.mk mod reg rm).encode.toNat % 8 = rm % 8 := by decide +kernel
  exact hall ⟨mod, hmod⟩ ⟨reg, hreg⟩ ⟨rm, hrm⟩

def SIB.byte (sib : SIB) : UInt8 :=
  UInt8.ofNat ((sib.scale <<< 6) ||| (sib.index <<< 3) ||| sib.base)

theorem SIB.byte_fields {scale index base : Nat} (hscale : scale < 4) (hindex : index < 8)
    (hbase : base < 8) :
    (SIB.mk scale index base).byte.toNat / 64 = scale ∧
      (SIB.mk scale index base).byte.toNat / 8 % 8 = index ∧
      (SIB.mk scale index base).byte.toNat % 8 = base := by
  have hall : ∀ (scale : Fin 4) (index base : Fin 8),
      (SIB.mk scale index base).byte.toNat / 64 = scale ∧
        (SIB.mk scale index base).byte.toNat / 8 % 8 = index ∧
        (SIB.mk scale index base).byte.toNat % 8 = base := by decide +kernel
  exact hall ⟨scale, hscale⟩ ⟨index, hindex⟩ ⟨base, hbase⟩

theorem lowByte_eq (n : Int) : [lowByte n] = leInt 1 n := rfl

theorem and_seven (n : Nat) : n &&& 7 = n % 8 := Nat.and_two_pow_sub_one_eq_mod n 3

/-- A register number is its low bits and the bit of the prefix. -/
theorem extend_low {n : Nat} (h : n < 16) : extend (decide (8 ≤ n)) (n % 8) = n := by
  unfold extend
  by_cases hn : 8 ≤ n
  · rw [if_pos (decide_eq_true hn)]
    omega
  · rw [if_neg (by simpa using hn)]
    omega

/-! ## The tail of an address -/

def DispKind.bytes : DispKind → List UInt8
  | .disp8 v => leInt 1 v
  | .disp32 v => leInt 4 v

def DispKind.value : DispKind → Int
  | .disp8 v => v
  | .disp32 v => v

/-- The displacement fits in its bytes. -/
def DispKind.Fits : DispKind → Prop
  | .disp8 v => -128 ≤ v ∧ v ≤ 127
  | .disp32 v => -2 ^ 31 ≤ v ∧ v < 2 ^ 31

theorem DispKind.signedValue_bytes {d : DispKind} (h : d.Fits) : signedValue d.bytes = d.value := by
  cases d with
  | disp8 v =>
      have hfits : -128 ≤ v ∧ v ≤ 127 := h
      exact signedValue_leInt (n := 1) (by omega) (by omega)
  | disp32 v =>
      have hfits : -2 ^ 31 ≤ v ∧ v < 2 ^ 31 := h
      exact signedValue_leInt (n := 4) (by omega) (by omega)

/-- The bytes in front of the displacement. -/
def EncodedAddress.sibBytes (addr : EncodedAddress) : List UInt8 := (addr.sib.map SIB.byte).toList

def EncodedAddress.dispBytes (addr : EncodedAddress) : List UInt8 :=
  (addr.disp.map DispKind.bytes).getD []

theorem emitAddrTail_eq (c : Code) (addr : EncodedAddress) :
    emitAddrTail c addr = c.extend (addr.sibBytes ++ addr.dispBytes) := by
  obtain ⟨modBits, rmBits, sib, disp, rexB, rexX⟩ := addr
  unfold emitAddrTail emitDisp EncodedAddress.sibBytes EncodedAddress.dispBytes
  rcases sib with _ | sib <;> rcases disp with _ | disp | disp <;>
    simp [Code.extend, Code.push, DispKind.bytes, SIB.byte, lowByte_eq]

/-! ## What an operand denotes -/

/-- The base of an operand whose address is meant in some mode. -/
def NamesBase (mem : MemoryOperand) (base : LongMode.Base) : Prop :=
  match mem.addressMode with
  | .relative => mem.base = none ∧ base = .next
  | .absolute => mem.base = none ∧ base = .none
  | .default =>
      match mem.base with
      | none => base = .none
      | some name => ∃ n, registerNames64[n]? = some name ∧ base = .register n

/-- The index register with its scale. -/
def NamesIndex (mem : MemoryOperand) (index : Option (Nat × Nat)) : Prop :=
  match mem.index with
  | none => index = none
  | some name => ∃ n, registerNames64[n]? = some name ∧ index = some (n, mem.scale)

theorem regCode_ok {name : String} {code : Nat} (h : regCode name 64 = some code) :
    registerNames64[code]? = some name ∧ code < 16 := by
  have hall : ∀ e ∈ registers64, registerNames64[e.2]? = some e.1 ∧ e.2 < 16 := by decide
  exact hall (name, code) (mem_of_codeOf h)

theorem codeOfPart_ok {part : Option String} {msg : String} {code : Option Nat}
    (h : codeOfPart part 64 msg = .ok code) :
    (part = none ∧ code = none) ∨
      ∃ name n, part = some name ∧ code = some n ∧ registerNames64[n]? = some name ∧ n < 16 := by
  cases part with
  | none =>
      cases h
      exact .inl ⟨rfl, rfl⟩
  | some name =>
      obtain ⟨n, hn, h⟩ := bind_ok_iff.mp h
      cases h
      exact .inr ⟨name, n, rfl, rfl, regCode_ok (orThrow_ok_iff.mp hn)⟩

theorem scaleBits_ok {scale bits : Nat} (h : scaleBits scale = some bits) :
    bits < 4 ∧ 2 ^ bits = scale := by
  unfold scaleBits at h
  split at h <;> cases h <;> decide

theorem toI32_ok {n m : Int} (h : toI32 n = some m) : m = n ∧ -2 ^ 31 ≤ n ∧ n < 2 ^ 31 := by
  unfold toI32 at h
  split at h
  · rename_i hrange
    cases h
    exact ⟨rfl, hrange⟩
  · cases h

/-- The displacement of an operand, as short as it can be. -/
def shortestDisp (n : Int) : Option DispKind :=
  if n = 0 then none else if -128 ≤ n ∧ n ≤ 127 then some (.disp8 n) else some (.disp32 n)

/-- The mod bits tell how many bytes the displacement has, and they do not ask for the form
without a base. -/
theorem baseDisplacement_spec {n : Int} (hn : -2 ^ 31 ≤ n ∧ n < 2 ^ 31) (baseLow : Nat) :
    let (modBits, disp) := baseDisplacement baseLow (shortestDisp n)
    modBits < 3 ∧ ¬ (baseLow = 5 ∧ modBits = 0) ∧
      ((disp.map DispKind.bytes).getD []).length = LongMode.dispBytes modBits ∧
      signedValue ((disp.map DispKind.bytes).getD []) = n := by
  have h8 : ∀ v, -128 ≤ v ∧ v ≤ 127 → signedValue (DispKind.disp8 v).bytes = v :=
    fun v hv => DispKind.signedValue_bytes hv
  have h32 : signedValue (DispKind.disp32 n).bytes = n := DispKind.signedValue_bytes hn
  unfold shortestDisp baseDisplacement
  by_cases hzero : n = 0
  · rw [if_pos hzero]
    simp only
    split
    · refine ⟨by decide, by omega, rfl, ?_⟩
      rw [hzero]
      exact h8 0 (by decide)
    · rename_i hbase
      refine ⟨by decide, fun h => hbase h.1, rfl, ?_⟩
      rw [hzero]
      rfl
  · rw [if_neg hzero]
    by_cases hshort : -128 ≤ n ∧ n ≤ 127
    · rw [if_pos hshort]
      exact ⟨by decide, by omega, rfl, h8 n hshort⟩
    · rw [if_neg hshort]
      exact ⟨by decide, by omega, rfl, h32⟩

/-! ## Reading addresses -/

/-- The bytes of the address denote `a`. -/
def EncodedAddress.Denotes (addr : EncodedAddress) (bytes : List UInt8) (a : LongMode.Address) :
    Prop :=
  addr.modBits < 3 ∧ addr.rmBits < 8 ∧
    LongMode.ReadsAs addr.rexX addr.rexB addr.modBits addr.rmBits bytes a

theorem encodeAddress_direct {mem : MemoryOperand} {addr : EncodedAddress}
    (h : encodeAddress mem 64 = .ok addr) (hmode : mem.addressMode ≠ .default)
    {disp : List UInt8} (hdisp : disp.length = 4) :
    mem.base = none ∧ mem.index = none ∧ (-2 ^ 31 ≤ mem.disp ∧ mem.disp < 2 ^ 31) ∧
      addr.dispBytes = leInt 4 mem.disp ∧
      addr.Denotes (addr.sibBytes ++ disp)
        ⟨if mem.addressMode = .relative then .next else .none, none, signedValue disp⟩ := by
  unfold encodeAddress at h
  obtain ⟨-, h⟩ := require_then_ok_iff.mp h
  rw [if_pos hmode] at h
  obtain ⟨hplain, h⟩ := require_then_ok_iff.mp h
  obtain ⟨d, hd, h⟩ := bind_ok_iff.mp h
  obtain ⟨rfl, hrange⟩ := toI32_ok (orThrow_ok_iff.mp hd)
  simp only [not_or, Option.not_isSome_iff_eq_none] at hplain
  obtain ⟨-, hbase, hindex, -⟩ := hplain
  cases h
  refine ⟨hbase, hindex, hrange, rfl, Nat.zero_lt_succ 2, ?_, ?_⟩
  · simp only
    split <;> decide
  · cases hcase : mem.addressMode with
    | default => exact absurd hcase hmode
    | relative => exact LongMode.ReadsAs.next hdisp
    | absolute =>
        have hread : LongMode.ReadsAs false false 0 4 ((SIB.mk 0 4 5).byte :: disp) _ :=
          LongMode.ReadsAs.sibNone (by decide) hdisp
        exact hread

/-- The index bits are those of the register, or four without one. -/
theorem indexOf_bits {index : Option Nat} (h : ∀ i ∈ index, i < 16 ∧ i ≠ 4) (scale : Nat) :
    (index.map (· &&& 7)).getD 4 < 8 ∧
      LongMode.indexOf ((index.map fun i => decide (8 ≤ i)).getD false)
        ((index.map (· &&& 7)).getD 4) scale = index.map fun i => (i, 2 ^ scale) := by
  cases index with
  | none => exact ⟨by decide, rfl⟩
  | some i =>
      obtain ⟨hlt, hne⟩ := h i rfl
      unfold LongMode.indexOf
      simp only [Option.map_some, Option.getD_some, and_seven, extend_low hlt, if_neg hne]
      exact ⟨by omega, trivial⟩

/-- The registers and the displacement of an operand without a symbol are read back. -/
theorem encodeAddress_denotes {mem : MemoryOperand} {addr : EncodedAddress}
    (h : encodeAddress mem 64 = .ok addr) :
    ∃ a : LongMode.Address, NamesBase mem a.base ∧ NamesIndex mem a.index ∧ a.disp = mem.disp ∧
      addr.Denotes (addr.sibBytes ++ addr.dispBytes) a := by
  by_cases hmode : mem.addressMode = .default
  · unfold encodeAddress at h
    obtain ⟨-, h⟩ := require_then_ok_iff.mp h
    rw [if_neg (not_not.mpr hmode)] at h
    obtain ⟨base, hbase, h⟩ := bind_ok_iff.mp h
    obtain ⟨index, hindex, h⟩ := bind_ok_iff.mp h
    obtain ⟨-, h⟩ := require_then_ok_iff.mp h
    obtain ⟨scale, hscale, h⟩ := bind_ok_iff.mp h
    obtain ⟨hnotFour, h⟩ := require_then_ok_iff.mp h
    obtain ⟨disp32, hdisp, h⟩ := bind_ok_iff.mp h
    obtain ⟨rfl, hrange⟩ := toI32_ok (orThrow_ok_iff.mp hdisp)
    obtain ⟨hscaleLt, hscaleEq⟩ := scaleBits_ok (orThrow_ok_iff.mp hscale)
    have hnames : NamesIndex mem (index.map fun i => (i, 2 ^ scale)) ∧
        ∀ i ∈ index, i < 16 ∧ i ≠ 4 := by
      unfold NamesIndex
      rw [hscaleEq]
      rcases codeOfPart_ok hindex with ⟨hname, rfl⟩ | ⟨name, i, hname, rfl, hi, hlt⟩
      · rw [hname]
        exact ⟨rfl, nofun⟩
      · rw [hname]
        refine ⟨⟨i, hi, rfl⟩, ?_⟩
        rintro j ⟨⟩
        exact ⟨hlt, fun h => hnotFour (congrArg some h)⟩
    obtain ⟨hbits, hindexOf⟩ := indexOf_bits hnames.2 scale
    rcases codeOfPart_ok hbase with ⟨hname, rfl⟩ | ⟨name, b, hname, rfl, hb, hlt⟩
    · -- An index alone is encoded with four bytes of displacement.
      cases index with
      | none => cases h
      | some i =>
          cases h
          have hbits : i &&& 7 < 8 := hbits
          obtain ⟨hscaleBits, hindexBits, hbaseBits⟩ :=
            SIB.byte_fields hscaleLt hbits (by decide : 5 < 8)
          have hvalue : signedValue (leInt 4 mem.disp) = mem.disp :=
            DispKind.signedValue_bytes (d := .disp32 mem.disp) hrange
          have hindexOf : LongMode.indexOf (decide (8 ≤ i)) (i &&& 7) scale =
              some (i, 2 ^ scale) := hindexOf
          have hread : LongMode.ReadsAs (decide (8 ≤ i)) false 0 4 _ _ :=
            LongMode.ReadsAs.sibNone hbaseBits (length_leInt 4 mem.disp)
          rw [hindexBits, hscaleBits, hindexOf, hvalue] at hread
          refine ⟨⟨.none, some (i, 2 ^ scale), mem.disp⟩, ?_, hnames.1, rfl, Nat.zero_lt_succ 2,
            (by decide : 4 < 8), hread⟩
          unfold NamesBase
          rw [hmode, hname]
    · have hnamesBase : NamesBase mem (.register b) := by
        unfold NamesBase
        rw [hmode, hname]
        exact ⟨b, hb, rfl⟩
      have hspec := baseDisplacement_spec hrange (b &&& 7)
      rcases hpair : baseDisplacement (b &&& 7) (shortestDisp mem.disp) with ⟨modBits, disp⟩
      rw [hpair] at hspec
      obtain ⟨hmod, hnotNone, hlength, hvalue⟩ := hspec
      unfold shortestDisp at hpair
      have hextend : extend (decide (8 ≤ b)) (b &&& 7) = b := by
        rw [and_seven, extend_low hlt]
      have hlow : b &&& 7 < 8 := by
        rw [and_seven]
        omega
      -- `rsp` and `r12` as a base need a SIB byte even without an index.
      by_cases hneed : index.isSome = true ∨ b &&& 7 = 4
      · have hneedSib : (index.isSome || (some b).isNone ||
            (some b).map (fun x => x &&& 7) == some 4) = true := by
          simpa using hneed
        simp only [hneedSib, hpair] at h
        cases h
        obtain ⟨hscaleBits, hindexBits, hbaseBits⟩ := SIB.byte_fields hscaleLt hbits hlow
        have hread := LongMode.ReadsAs.sibBase (b := decide (8 ≤ b))
          (x := (index.map fun i => decide (8 ≤ i)).getD false) hmod
          (by rw [hbaseBits]; exact hnotNone) hlength
        rw [hscaleBits, hindexBits, hbaseBits, hindexOf, hvalue, hextend] at hread
        exact ⟨_, hnamesBase, hnames.1, rfl, hmod, (by decide : 4 < 8), hread⟩
      · have hneedSib : (index.isSome || (some b).isNone ||
            (some b).map (fun x => x &&& 7) == some 4) = false := by
          simpa using hneed
        simp only [hneedSib, hpair] at h
        cases h
        rw [not_or, Bool.not_eq_true, Option.isSome_eq_false_iff, Option.isNone_iff_eq_none] at hneed
        obtain ⟨rfl, hlowFour⟩ := hneed
        have hread := LongMode.ReadsAs.base (b := decide (8 ≤ b)) (x := false) hmod hlowFour
          hnotNone hlength
        rw [hvalue, hextend] at hread
        exact ⟨_, hnamesBase, hnames.1, rfl, hmod, hlow, hread⟩
  · have hdisp : addr.dispBytes.length = 4 := by
      rw [(encodeAddress_direct h hmode (length_leInt 4 0)).2.2.2.1, length_leInt]
    obtain ⟨hbase, hindex, hrange, hbytes, hdenotes⟩ := encodeAddress_direct h hmode hdisp
    refine ⟨_, ?_, ?_, ?_, hdenotes⟩
    · unfold NamesBase
      cases hcase : mem.addressMode with
      | default => exact absurd hcase hmode
      | relative => exact ⟨hbase, rfl⟩
      | absolute => exact ⟨hbase, rfl⟩
    · unfold NamesIndex
      rw [hindex]
    · rw [hbytes]
      exact DispKind.signedValue_bytes (d := .disp32 mem.disp) hrange

end Whale.Assembler.Amd64
