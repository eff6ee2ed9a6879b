import Mathlib.Tactic.Ring
import Whale.Assembler.AArch64
import Whale.Lib.A64

set_option autoImplicit false

/-! # Moves of immediates

`mov` of an immediate becomes the one wide move that makes the value, when there is one. -/

namespace Whale.Assembler.AArch64

open Whale.A64 BitFields

/-! ## Words -/

/-- The instruction a word of `wideMove` is. -/
def wideMoveOp (mnemonic : String) : WideMove :=
  match mnemonic with
  | "movz" => .movz
  | "movn" => .movn
  | _ => .movk

theorem field_wideMove (mnemonic : String) :
    field (wideMove mnemonic) 23 6 = 0b100101 ∧
      MoveWide.opOf (field (wideMove mnemonic) 29 2) = some (wideMoveOp mnemonic) ∧
      field (wideMove mnemonic) 31 1 = 0#1 ∧ field (wideMove mnemonic) 21 2 = 0#2 ∧
      field (wideMove mnemonic) 5 16 = 0#16 ∧ field (wideMove mnemonic) 0 5 = 0#5 := by
  by_cases hz : mnemonic = "movz"
  · subst hz
    decide
  by_cases hn : mnemonic = "movn"
  · subst hn
    decide
  have hword : wideMove mnemonic = 0x72800000 := by
    unfold wideMove
    split <;> first | contradiction | rfl
  have hop : wideMoveOp mnemonic = .movk := by
    unfold wideMoveOp
    split <;> first | contradiction | rfl
  rw [hword, hop]
  decide

theorem sf_eq (rd : Reg) : sf rd = (if rd.width = 64 then 1 else 0 : Word) <<< 31 := by
  unfold sf
  split <;> rfl

variable {rd : Reg}

/-- The fields of a wide move are read back. -/
theorem decode_wideMove (mnemonic : String) {lane imm : Word} (hrd : Fits rd.index 5)
    (himm : Fits imm 16) (hlane : lane.toNat < if rd.width = 64 then 4 else 2) :
    MoveWide.decode (wideMove mnemonic ||| sf rd ||| lane <<< 21 ||| imm <<< 5 ||| rd.index) =
      some { op := wideMoveOp mnemonic, wide := rd.width = 64, lane := lane.setWidth 2,
             imm := imm.setWidth 16, rd := rd.index.setWidth 5 } := by
  have hlane2 : Fits lane 2 := by
    unfold Fits
    split at hlane <;> omega
  have hsf : Fits (if rd.width = 64 then 1 else 0 : Word) 1 := by
    unfold Fits
    split <;> decide
  obtain ⟨h23, h29, h31, h21, h5, h0⟩ := field_wideMove mnemonic
  have hzero : rd.index = rd.index <<< 0 := (BitVec.shiftLeft_zero _).symm
  have hfields : ∀ pos len, field (wideMove mnemonic ||| sf rd ||| lane <<< 21 ||| imm <<< 5 |||
      rd.index) pos len = field (wideMove mnemonic) pos len |||
        field ((if rd.width = 64 then 1 else 0 : Word) <<< 31) pos len |||
        field (lane <<< 21) pos len ||| field (imm <<< 5) pos len |||
        field (rd.index <<< 0) pos len := by
    intro pos len
    rw [field_or, field_or, field_or, field_or, sf_eq, ← hzero]
  unfold MoveWide.decode
  rw [hfields 23 6, hfields 29 2, hfields 31 1, hfields 21 2, hfields 5 16, hfields 0 5]
  simp (disch := first | assumption | omega) only [field_shiftLeft_disjoint, field_shiftLeft_self]
  rw [h23, h31, h21, h5, h0]
  simp only [BitVec.or_zero, BitVec.zero_or]
  rw [if_pos trivial, h29]
  have hwide : BitVec.setWidth 1 (if rd.width = 64 then 1 else 0 : Word) = 1 ↔ rd.width = 64 := by
    by_cases h : rd.width = 64 <;> simp [h]
  have hlow : (lane.setWidth 2).toNat = lane.toNat := by
    rw [BitVec.toNat_setWidth]
    exact Nat.mod_eq_of_lt hlane2
  have hallowed : BitVec.setWidth 1 (if rd.width = 64 then 1 else 0 : Word) = 1 ∨
      (lane.setWidth 2).toNat < 2 := by
    rw [hlow, hwide]
    by_cases h : rd.width = 64
    · exact .inl h
    · rw [if_neg h] at hlane
      exact .inr hlane
  rw [Option.bind_eq_bind, Option.bind_some, if_pos hallowed, decide_eq_decide.mpr hwide]

/-! ## Lanes -/

/-- All bits of a number that are set are in one aligned lane of 16 bits. -/
def InLane (p lane : Nat) : Prop := ∀ i, p.testBit i = true → 16 * lane ≤ i ∧ i < 16 * lane + 16

theorem getLsbD_lane (lane i : Nat) : ((0xffff : BitVec 64) <<< (lane * 16)).getLsbD i =
    (decide (i < 64) && decide (16 * lane ≤ i ∧ i < 16 * lane + 16)) := by
  have hones : (0xffff : BitVec 64).getLsbD (i - lane * 16) = decide (i - lane * 16 < 16) := by
    have hpow : (0xffff : BitVec 64).toNat = 2 ^ 16 - 1 := by decide
    rw [← BitVec.testBit_toNat, hpow, Nat.testBit_two_pow_sub_one]
  rw [BitVec.getLsbD_shiftLeft, hones]
  by_cases hlow : i < lane * 16
  · have hnot : ¬ (16 * lane ≤ i ∧ i < 16 * lane + 16) := by omega
    simp [hlow, hnot]
  · have hiff : i - lane * 16 < 16 ↔ 16 * lane ≤ i ∧ i < 16 * lane + 16 := by omega
    simp [hlow, hiff]

variable {p : BitVec 64}

theorem inLane_iff {lane : Nat} :
    p &&& ~~~((0xffff : BitVec 64) <<< (lane * 16)) = 0#64 ↔ InLane p.toNat lane := by
  constructor
  · intro h i hi
    by_contra hnot
    have hlt : i < 64 := BitVec.lt_of_getLsbD hi
    have hbit := congrArg (fun q : BitVec 64 => q.getLsbD i) h
    simp only [BitVec.getLsbD_and, BitVec.getLsbD_not, getLsbD_lane, hnot, hlt,
      BitVec.getLsbD_zero] at hbit
    rw [BitVec.testBit_toNat] at hi
    simp [hi] at hbit
  · intro h
    apply BitVec.eq_of_getLsbD_eq
    intro i hi
    rw [BitVec.getLsbD_and, BitVec.getLsbD_not, getLsbD_lane, BitVec.getLsbD_zero]
    by_cases hbit : p.getLsbD i = true
    · have hlane := h i (by rw [BitVec.testBit_toNat]; exact hbit)
      simp [hlane]
    · simp [hbit]

/-- A pattern in one lane is the value of the lane, put back in its place. -/
theorem lane_shift {lane : Nat} (h : InLane p.toNat lane) :
    (((p >>> (lane * 16)).setWidth 32).setWidth 16).setWidth 64 <<< (16 * lane) = p := by
  apply BitVec.eq_of_getLsbD_eq
  intro i hi
  simp only [BitVec.getLsbD_shiftLeft, BitVec.getLsbD_setWidth, BitVec.getLsbD_ushiftRight]
  by_cases hbit : p.getLsbD i = true
  · have hlane := h i (by rw [BitVec.testBit_toNat]; exact hbit)
    have hback : lane * 16 + (i - 16 * lane) = i := by omega
    have hlow : i - 16 * lane < 16 := by omega
    rw [hback, hbit]
    simp
    omega
  · by_cases hlow : i < 16 * lane
    · simp [hlow, hbit]
    · have hback : lane * 16 + (i - 16 * lane) = i := by omega
      rw [hback]
      simp [hbit]

theorem fits_lane {lane : Nat} (h : InLane p.toNat lane) :
    Fits ((p >>> (lane * 16)).setWidth 32) 16 := by
  unfold Fits
  refine Nat.lt_pow_two_of_testBit _ fun i hi => ?_
  rw [BitVec.testBit_toNat, BitVec.getLsbD_setWidth, BitVec.getLsbD_ushiftRight]
  by_contra hbit
  simp only [Bool.not_eq_false, Bool.and_eq_true] at hbit
  have hlane := h (lane * 16 + i) (by rw [BitVec.testBit_toNat]; exact hbit.2)
  omega

theorem moveLane_eq_some {mnemonic : String} {word : Word} (h : moveLane mnemonic rd p = some word) :
    ∃ lane < rd.width / 16, InLane p.toNat lane ∧
      word = wideMove mnemonic ||| sf rd ||| BitVec.ofNat 32 lane <<< 21 |||
        (p >>> (lane * 16)).setWidth 32 <<< 5 ||| rd.index := by
  unfold moveLane at h
  obtain ⟨lane, hfind, rfl⟩ := Option.map_eq_some_iff.mp h
  have hmem := List.mem_range.mp (List.mem_of_find?_eq_some hfind)
  have htest := List.find?_some hfind
  exact ⟨lane, hmem, inLane_iff.mp (of_decide_eq_true htest), rfl⟩

theorem moveLane_isSome_iff (mnemonic : String) :
    (∃ word, moveLane mnemonic rd p = some word) ↔ ∃ lane < rd.width / 16, InLane p.toNat lane := by
  constructor
  · rintro ⟨word, h⟩
    obtain ⟨lane, hlt, hlane, -⟩ := moveLane_eq_some h
    exact ⟨lane, hlt, hlane⟩
  · rintro ⟨lane, hlt, hlane⟩
    have hsome : (moveLane mnemonic rd p).isSome = true := by
      unfold moveLane
      rw [Option.isSome_map, List.find?_isSome]
      exact ⟨lane, List.mem_range.mpr hlt, decide_eq_true (inLane_iff.mpr hlane)⟩
    exact Option.isSome_iff_exists.mp hsome

/-! ## Patterns -/

/-- The bits of a value in a register of `w` bits. -/
def pattern (w : Nat) (value : Int) : Nat := (value % 2 ^ w).toNat

/-- A register as the operands of an instruction name it. -/
structure Reg.Valid (rd : Reg) : Prop where
  width : rd.width = 32 ∨ rd.width = 64
  index : Fits rd.index 5

theorem reg_valid {text : Text} (h : reg text = .ok rd) : rd.Valid := by
  unfold reg at h
  simp only at h
  split at h
  · next r halias =>
    cases h
    unfold registerAlias at halias
    split at halias <;> cases halias <;> exact ⟨by decide, by decide⟩
  · obtain ⟨width, hwidth, h⟩ := bind_ok_iff.mp h
    obtain ⟨index, hindex, h⟩ := bind_ok_iff.mp h
    cases h
    rw [orThrow_ok_iff] at hwidth hindex
    have hle := Option.filter_eq_some_iff.mp hindex
    refine ⟨?_, ?_⟩
    · unfold letterWidth at hwidth
      split at hwidth <;> cases hwidth <;> simp
    · have hle : index ≤ 30 := by simpa using hle.2
      show (BitVec.ofNat 32 index).toNat < 2 ^ 5
      rw [BitVec.toNat_ofNat]
      omega

theorem pattern_lt (w : Nat) (value : Int) : pattern w value < 2 ^ w := by
  have hpos : (0 : Int) < 2 ^ w := Int.pow_pos (by decide)
  have hlt := Int.emod_lt_of_pos value hpos
  have hnonneg := Int.emod_nonneg value hpos.ne'
  have hcast : ((2 ^ w : Nat) : Int) = 2 ^ w := by push_cast; rfl
  unfold pattern
  omega

theorem natCast_pattern (w : Nat) (value : Int) : (pattern w value : Int) = value % 2 ^ w :=
  Int.toNat_of_nonneg (Int.emod_nonneg value (Int.pow_pos (by decide)).ne')

theorem toNat_mask {w : Nat} (hw : w = 32 ∨ w = 64) :
    (BitVec.allOnes 64 >>> (64 - w)).toNat = 2 ^ w - 1 := by
  rcases hw with rfl | rfl <;> decide

/-- The bits of a value under the mask of a width. -/
theorem toNat_bits {w : Nat} (hw : w = 32 ∨ w = 64) (value : Int) :
    (BitVec.ofInt 64 value &&& BitVec.allOnes 64 >>> (64 - w)).toNat = pattern w value := by
  have hof : ((BitVec.ofInt 64 value).toNat : Int) = value % 2 ^ 64 := by
    rw [BitVec.toNat_ofInt]
    exact Int.toNat_of_nonneg (Int.emod_nonneg value (by decide))
  have hdvd : (2 ^ w : Int) ∣ 2 ^ 64 := by
    rcases hw with rfl | rfl <;> decide
  have hcast : ((2 ^ w : Nat) : Int) = 2 ^ w := by push_cast; rfl
  rw [BitVec.toNat_and, toNat_mask hw, Nat.and_two_pow_sub_one_eq_mod]
  apply Int.ofNat_inj.mp
  rw [natCast_pattern, Int.natCast_emod, hcast, hof, Int.emod_emod_of_dvd value hdvd]

/-- The complement of a pattern under the mask of a width. -/
theorem toNat_complement {w : Nat} (hw : w = 32 ∨ w = 64) (hp : p.toNat < 2 ^ w) :
    (~~~p &&& BitVec.allOnes 64 >>> (64 - w)).toNat = 2 ^ w - 1 - p.toNat := by
  rw [BitVec.toNat_and, toNat_mask hw, Nat.and_two_pow_sub_one_eq_mod, BitVec.toNat_not]
  rcases hw with rfl | rfl <;> omega

theorem inLane_zero {p : Nat} (hp : p < 2 ^ 16) : InLane p 0 := by
  intro i hi
  by_contra hnot
  rw [Nat.testBit_lt_two_pow (hp.trans_le (Nat.pow_le_pow_right (by decide) (by omega)))] at hi
  cases hi

/-! ## Moves -/

/-- The word that puts a lane of a pattern into a register. -/
def laneWord (mnemonic : String) (rd : Reg) (p : BitVec 64) (lane : Nat) : Word :=
  wideMove mnemonic ||| sf rd ||| BitVec.ofNat 32 lane <<< 21 |||
    (p >>> (lane * 16)).setWidth 32 <<< 5 ||| rd.index

/-- The values that one wide move makes. -/
structure OneMove (w : Nat) (value : Int) : Prop where
  low : -2 ^ (w - 1) ≤ value
  high : value ≤ 2 ^ w - 1
  lane : ∃ lane < w / 16, InLane (pattern w value) lane ∨ InLane (2 ^ w - 1 - pattern w value) lane

/-- What is accepted is the word of a lane, of the pattern or of its complement. -/
structure LaneOf (rd : Reg) (value : Int) (word : Word) (lane : Nat) (p : BitVec 64) : Prop where
  lane_lt : lane < rd.width / 16
  inLane : InLane p.toNat lane
  move : (p.toNat = pattern rd.width value ∧ word = laneWord "movz" rd p lane) ∨
    (p.toNat = 2 ^ rd.width - 1 - pattern rd.width value ∧ word = laneWord "movn" rd p lane)

/-- The small negative values are complements in the lowest lane. -/
theorem laneOf_small (hrd : rd.Valid) {value : Int} (hlow : -65536 ≤ value) (hhigh : value < 0) :
    LaneOf rd value (wideMove "movn" ||| sf rd |||
      (BitVec.ofInt 32 (-value - 1) &&& 0xffff) <<< 5 ||| rd.index) 0
      (BitVec.ofInt 64 (-value - 1)) := by
  have hnat : (BitVec.ofInt 64 (-value - 1)).toNat = (-value - 1).toNat := by
    rw [BitVec.toNat_ofInt, Int.emod_eq_of_lt (by omega) (by omega)]
  have hlt : (-value - 1).toNat < 2 ^ 16 := by omega
  have hpattern : 2 ^ rd.width - 1 - pattern rd.width value = (-value - 1).toNat := by
    have hcast := natCast_pattern rd.width value
    rcases hrd.width with h | h <;> rw [h] at hcast ⊢ <;> omega
  refine ⟨by rcases hrd.width with h | h <;> rw [h] <;> decide, ?_, .inr ⟨?_, ?_⟩⟩
  · rw [hnat]
    exact inLane_zero hlt
  · rw [hnat, hpattern]
  · have himm : BitVec.ofInt 32 (-value - 1) &&& (0xffff : BitVec 32) =
        (BitVec.ofInt 64 (-value - 1) >>> (0 * 16)).setWidth 32 := by
      apply BitVec.eq_of_toNat_eq
      have hmask : (0xffff : BitVec 32).toNat = 2 ^ 16 - 1 := by decide
      rw [BitVec.toNat_and, hmask, Nat.and_two_pow_sub_one_eq_mod, BitVec.toNat_setWidth,
        Nat.zero_mul, BitVec.ushiftRight_zero, hnat, BitVec.toNat_ofInt,
        Int.emod_eq_of_lt (by omega) (by omega)]
      omega
    unfold laneWord
    rw [himm]
    simp

theorem movImmediate_ok (hrd : rd.Valid) {value : Int} {word : Word}
    (h : movImmediate rd value = .ok word) : -2 ^ (rd.width - 1) ≤ value ∧
      value ≤ 2 ^ rd.width - 1 ∧ ∃ lane p, LaneOf rd value word lane p := by
  unfold movImmediate at h
  obtain ⟨⟨hlow, hhigh⟩, h⟩ := require_then_ok_iff.mp h
  rw [toNat_mask hrd.width, Int.coe_nat_two_pow_pred] at hhigh
  refine ⟨hlow, hhigh, ?_⟩
  split at h
  case isTrue hsmall =>
    cases h
    exact ⟨0, _, laneOf_small hrd hsmall.1 hsmall.2⟩
  case isFalse =>
    have hbits := toNat_bits hrd.width value
    rcases Option.or_eq_some_iff.mp (orThrow_ok_iff.mp h) with hz | ⟨-, hn⟩
    · obtain ⟨lane, hlt, hlane, rfl⟩ := moveLane_eq_some hz
      exact ⟨lane, _, hlt, hlane, .inl ⟨hbits, rfl⟩⟩
    · obtain ⟨lane, hlt, hlane, rfl⟩ := moveLane_eq_some hn
      refine ⟨lane, _, hlt, hlane, .inr ⟨?_, rfl⟩⟩
      rw [toNat_complement hrd.width (hbits ▸ pattern_lt _ _), hbits]

theorem movImmediate_accepts (hrd : rd.Valid) {value : Int} (h : OneMove rd.width value) :
    ∃ word, movImmediate rd value = .ok word := by
  have hbits := toNat_bits hrd.width value
  have hcomplement := toNat_complement hrd.width (hbits ▸ pattern_lt rd.width value)
  have hrange : -2 ^ (rd.width - 1) ≤ value ∧
      value ≤ ((BitVec.allOnes 64 >>> (64 - rd.width)).toNat : Int) :=
    ⟨h.low, by rw [toNat_mask hrd.width, Int.coe_nat_two_pow_pred]; exact h.high⟩
  unfold movImmediate
  simp only
  rw [require_of hrange, ok_bind]
  split
  case isTrue => exact ⟨_, rfl⟩
  case isFalse =>
    simp only [orThrow_ok_iff, Option.or_eq_some_iff]
    rw [hbits] at hcomplement
    obtain ⟨lane, hlt, hlane⟩ := h.lane
    cases hz : moveLane "movz" rd (BitVec.ofInt 64 value &&& BitVec.allOnes 64 >>> (64 - rd.width)) with
    | some word => exact ⟨word, .inl rfl⟩
    | none =>
        rcases hlane with hlane | hlane
        · obtain ⟨word, hword⟩ := (moveLane_isSome_iff "movz").mpr ⟨lane, hlt, hbits ▸ hlane⟩
          rw [hz] at hword
          cases hword
        · obtain ⟨word, hword⟩ := (moveLane_isSome_iff "movn").mpr
            ⟨lane, hlt, hcomplement ▸ hlane⟩
          exact ⟨word, .inr ⟨rfl, hword⟩⟩

/-- The word of a lane leaves the pattern of the value in the register. -/
theorem LaneOf.leaves (hrd : rd.Valid) {value : Int} {word : Word} {lane : Nat}
    (h : LaneOf rd value word lane p) : ∃ i, MoveWide.decode word = some i ∧
      i.op ≠ .movk ∧ i.rd = rd.index.setWidth 5 ∧ i.datasize = rd.width ∧
      ∀ old, (((i.result old).setWidth i.datasize).setWidth 64).toNat = pattern rd.width value := by
  have hlt := pattern_lt rd.width value
  have hlane := h.lane_lt
  have hnat : (BitVec.ofNat 32 lane).toNat = lane := by
    rw [BitVec.toNat_ofNat]
    rcases hrd.width with hw | hw <;> rw [hw] at hlane <;> omega
  have hlane : (BitVec.ofNat 32 lane).toNat < if rd.width = 64 then 4 else 2 := by
    rw [hnat]
    rcases hrd.width with hw | hw <;> rw [hw] at hlane ⊢ <;> simpa using hlane
  have hdecode := fun mnemonic => decode_wideMove mnemonic hrd.index (fits_lane h.inLane) hlane
  have hplace : ((BitVec.ofNat 32 lane).setWidth 2).toNat = lane := by
    rw [BitVec.toNat_setWidth, hnat]
    rcases hrd.width with hw | hw <;> rw [hw] at hlane <;> omega
  have hsize : ∀ i : MoveWide, i.wide = decide (rd.width = 64) → i.datasize = rd.width := by
    intro i hwide
    unfold MoveWide.datasize
    rw [hwide]
    rcases hrd.width with hw | hw <;> rw [hw] <;> rfl
  rcases h.move with ⟨hp, rfl⟩ | ⟨hp, rfl⟩
  · refine ⟨_, hdecode "movz", nofun, rfl, hsize _ rfl, fun old => ?_⟩
    rw [hsize _ rfl]
    simp only [MoveWide.result, wideMoveOp, hplace, lane_shift h.inLane]
    rw [BitVec.toNat_setWidth, BitVec.toNat_setWidth, hp]
    rcases hrd.width with hw | hw <;> rw [hw] at hlt ⊢ <;> omega
  · refine ⟨_, hdecode "movn", nofun, rfl, hsize _ rfl, fun old => ?_⟩
    rw [hsize _ rfl]
    simp only [MoveWide.result, wideMoveOp, hplace, lane_shift h.inLane]
    rw [BitVec.toNat_setWidth, BitVec.toNat_setWidth, BitVec.toNat_not, hp]
    rcases hrd.width with hw | hw <;> rw [hw] at hlt ⊢ <;> omega

/-- `mov` takes the values that one wide move makes, and makes that move: the register is left
with the value, and the other registers are left alone. -/
theorem movImmediate_exact {text : Text} {rd : Reg} (hreg : reg text = .ok rd) (value : Int) :
    ((∃ word, movImmediate rd value = .ok word) ↔ OneMove rd.width value) ∧
      ∀ word, movImmediate rd value = .ok word → ∃ i, MoveWide.decode word = some i ∧
        i.op ≠ .movk ∧ i.rd = rd.index.setWidth 5 ∧ i.datasize = rd.width ∧
        ∀ m : Machine, (i.rd ≠ 31 →
            (((i.execute m).read i.rd).toNat : Int) = value % 2 ^ rd.width) ∧
          ∀ r ≠ i.rd, (i.execute m).read r = m.read r := by
  have hrd := reg_valid hreg
  refine ⟨⟨?_, movImmediate_accepts hrd⟩, fun word h => ?_⟩
  · rintro ⟨word, h⟩
    obtain ⟨hlow, hhigh, lane, p, hlane⟩ := movImmediate_ok hrd h
    exact ⟨hlow, hhigh, lane, hlane.lane_lt, hlane.move.elim (fun h => .inl (h.1 ▸ hlane.inLane))
      fun h => .inr (h.1 ▸ hlane.inLane)⟩
  · obtain ⟨-, -, lane, p, hlane⟩ := movImmediate_ok hrd h
    obtain ⟨i, hdecode, hop, hrd', hsize, hresult⟩ := hlane.leaves hrd
    refine ⟨i, hdecode, hop, hrd', hsize, fun m => ⟨fun hne => ?_, fun r hr => ?_⟩⟩
    · unfold MoveWide.execute
      rw [Machine.read_write_same hne, hresult, natCast_pattern]
    · exact Machine.read_write_other hr

theorem movImmediate_exact_minusTwo :
    (∃ word, movImmediate { index := 5, width := 32, sp := false, zero := false } (-2) = .ok word) ∧
      OneMove 32 (-2) := by
  have hreg : reg "w5".toList = .ok { index := 5, width := 32, sp := false, zero := false } := by
    rfl
  have hok := movImmediate_exact hreg (-2)
  have haccepted : ∃ word, movImmediate
      { index := 5, width := 32, sp := false, zero := false } (-2) = .ok word := ⟨_, rfl⟩
  exact ⟨haccepted, hok.1.mp haccepted⟩

end Whale.Assembler.AArch64
