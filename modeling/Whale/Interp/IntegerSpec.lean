import Whale.Interp.Integer
import Whale.Lib.TwosComplement

set_option autoImplicit false

/-! # Integer operations are arithmetic on integers

What the operations are for, on mathematical integers: read the operands as `w`-bit numbers,
signed or unsigned as the operation says, compute, and reduce the result modulo `2 ^ w`
(`constant`). The operations of the interpreter, which work on 128-bit patterns throughout,
do exactly this at every width. -/

namespace Whale

variable {v : ConstValue} {a : Nat}

namespace Integer

/-- The number a constant holds, whatever its type. -/
def number : ConstValue → Option Int
  | .i v => some v.toInt
  | .u v => some v.toNat
  | .bool b => some b.toNat
  | .f _ => none

/-- The canonical constant of a `w`-bit integer type for the number `z` modulo `2 ^ w`. -/
def constant (isSigned : Bool) (w : Nat) (z : Int) : ConstValue :=
  if isSigned then .i (BitVec.ofInt 128 (reading true w z))
  else .u (BitVec.ofInt 128 (reading false w z))

/-! ## Patterns and readings -/

theorem shape_bits {ty : Ty} {w : Nat} {s : Bool} (h : shape ty = some (w, s)) :
    0 < w ∧ w ≤ 128 := by
  cases ty <;> cases h <;> decide

theorem operandBits_bits (ty : Ty) : 0 < operandBits ty ∧ operandBits ty ≤ 128 := by
  unfold operandBits
  cases hshape : shape ty with
  | none => decide
  | some e => exact shape_bits hshape

/-- The pattern of an operand is the unsigned reading of its number. -/
theorem raw_number {x : Int} (h : number v = some x) {w : Nat} (hw : w ≤ 128) :
    ∃ a, raw v w = some a ∧ a < 2 ^ w ∧ (a : Int) = reading false w x := by
  have hpos : 0 < 2 ^ w := Nat.two_pow_pos w
  have hread : ∀ n : Nat, (n : Int) ≡ x [ZMOD (2 ^ w : Nat)] →
      ((n % 2 ^ w : Nat) : Int) = reading false w x := by
    intro n hn
    rw [← reading_congr false hn]
    simp only [reading, Bool.false_eq_true, if_false, Int.natCast_emod]
  cases v with
  | f bits => cases h
  | bool b =>
      cases h
      exact ⟨_, rfl, Nat.mod_lt _ hpos, hread _ (Int.ModEq.refl _)⟩
  | u n =>
      cases h
      exact ⟨_, rfl, Nat.mod_lt _ hpos, hread _ (Int.ModEq.refl _)⟩
  | i n =>
      cases h
      refine ⟨_, rfl, Nat.mod_lt _ hpos, hread _ (modEq_two_pow_of_le hw ?_)⟩
      rw [BitVec.toInt_eq_toNat_bmod]
      exact Int.bmod_emod.symm

theorem testBit_sign {a w : Nat} (h₀ : 0 < w) (ha : a < 2 ^ w) :
    a.testBit (w - 1) = decide (2 ^ (w - 1) ≤ a) := by
  have hlt : a < 2 ^ (w - 1 + 1) := by
    rw [Nat.sub_add_cancel h₀]
    exact ha
  by_cases hge : 2 ^ (w - 1) ≤ a
  · rw [Nat.testBit_of_two_pow_le_and_two_pow_add_one_gt hge hlt, decide_eq_true hge]
  · rw [Nat.testBit_lt_two_pow (by omega), decide_eq_false hge]

/-- A pattern with its first bit set stands for a negative number. -/
theorem reading_pattern {a w : Nat} (h₀ : 0 < w) (ha : a < 2 ^ w) :
    reading true w a = if 2 ^ (w - 1) ≤ a then (a : Int) - (2 ^ w : Nat) else a := by
  have hhalf := two_mul_two_pow_pred h₀
  simp only [reading, if_true]
  by_cases hge : 2 ^ (w - 1) ≤ a
  · rw [if_pos hge, ← Int.sub_bmod_right]
    exact Int.bmod_eq_of_le (by omega) (by omega)
  · rw [if_neg hge]
    exact Int.bmod_eq_of_le (by omega) (by omega)

/-- Sign extension reads a pattern as a signed number. -/
theorem toInt_signed {a w : Nat} (h₀ : 0 < w) (hw : w ≤ 128) (ha : a < 2 ^ w) :
    (signed a w).toInt = reading true w a := by
  have hhalf := two_mul_two_pow_pred h₀
  have hle : 2 ^ w ≤ 2 ^ 128 := Nat.pow_le_pow_right (by omega) hw
  rw [reading_pattern h₀ ha, signed, testBit_sign h₀ ha]
  by_cases hneg : w < 128 ∧ 2 ^ (w - 1) ≤ a
  · obtain ⟨hlt, hge⟩ := hneg
    have hle' : 2 ^ (w + 1) ≤ 2 ^ 128 := Nat.pow_le_pow_right (by omega) hlt
    rw [pow_succ] at hle'
    rw [if_pos ⟨hlt, decide_eq_true hge⟩, if_pos hge, BitVec.toInt_ofNat', ← Int.sub_bmod_right]
    rw [Int.bmod_eq_of_le (by omega) (by omega)]
    omega
  · by_cases hge : 2 ^ (w - 1) ≤ a
    · have hw128 : w = 128 := by
        by_contra hne
        exact hneg ⟨by omega, hge⟩
      subst hw128
      rw [if_neg (by simp), if_pos hge, BitVec.toInt_ofNat', ← Int.sub_bmod_right]
      exact Int.bmod_eq_of_le (by omega) (by omega)
    · rw [if_neg (by simp [hge]), if_neg hge, BitVec.toInt_ofNat']
      exact Int.bmod_eq_of_le (by omega) (by omega)

theorem constant_congr (isSigned : Bool) {w : Nat} {z z' : Int}
    (h : z ≡ z' [ZMOD (2 ^ w : Nat)]) : constant isSigned w z = constant isSigned w z' := by
  unfold constant
  rw [reading_congr true h, reading_congr false h]

/-- The constant holds the number of the range it stands for. -/
theorem number_constant (isSigned : Bool) {w : Nat} (h₀ : 0 < w) (hw : w ≤ 128) (z : Int) :
    number (constant isSigned w z) = some (reading isSigned w z) := by
  have hrange := (reading_inRange isSigned h₀ z).mono hw
  have hread := reading_of_inRange (by decide) hrange
  cases isSigned
  · have hpos := (inRange_unsigned.mp hrange).1
    simp only [constant, Bool.false_eq_true, if_false, number, BitVec.toNat_ofInt]
    rw [Int.toNat_of_nonneg (Int.emod_nonneg _ (by decide))]
    exact congrArg some hread
  · simp only [constant, if_true, number, BitVec.toInt_ofInt]
    exact congrArg some hread

theorem pack_eq {ty : Ty} {w : Nat} {s : Bool} (h : shape ty = some (w, s)) (n : Nat) :
    pack ty n = some (constant s w n) := by
  obtain ⟨h₀, hw⟩ := shape_bits h
  have hlt : n % 2 ^ w < 2 ^ w := Nat.mod_lt _ (Nat.two_pow_pos w)
  have hmod : ((n % 2 ^ w : Nat) : Int) ≡ n [ZMOD (2 ^ w : Nat)] := by
    rw [Int.natCast_emod]
    exact Int.mod_modEq _ _
  simp only [pack, h]
  cases s
  · simp only [Bool.false_eq_true, if_false, constant]
    have hread : reading false w n = ((n % 2 ^ w : Nat) : Int) := by
      simp only [reading, Bool.false_eq_true, if_false, Int.natCast_emod]
    rw [hread, BitVec.ofInt_natCast]
  · simp only [if_true, constant]
    have hsigned : signed (n % 2 ^ w) w = BitVec.ofInt 128 (reading true w n) := by
      apply BitVec.eq_of_toInt_eq
      rw [toInt_signed h₀ hw hlt, BitVec.toInt_ofInt, reading_congr true hmod]
      have hrange := (reading_inRange true h₀ (n : Int)).mono hw
      exact (reading_of_inRange (by decide) hrange).symm
    rw [hsigned]

/-- A result is determined by its residue modulo `2 ^ w`. -/
theorem result_eq {ty : Ty} {w : Nat} {s : Bool} (h : shape ty = some (w, s)) {n : Nat} {z : Int}
    (hz : (n : Int) ≡ z [ZMOD (2 ^ w : Nat)]) : result ty n = .ok (constant s w z) := by
  rw [result, pack_eq h, orThrow_some, constant_congr s hz]

/-! ## Arithmetic -/

theorem word_modEq {w : Nat} (hw : w ≤ 128) (n : Nat) :
    ((n % 2 ^ 128 : Nat) : Int) ≡ n [ZMOD (2 ^ w : Nat)] := by
  refine modEq_two_pow_of_le hw ?_
  rw [Int.natCast_emod]
  exact Int.mod_modEq _ _

theorem toNat_modEq {w : Nat} (hw : w ≤ 128) (v : BitVec 128) :
    (v.toNat : Int) ≡ v.toInt [ZMOD (2 ^ w : Nat)] := by
  refine modEq_two_pow_of_le hw ?_
  rw [BitVec.toInt_eq_toNat_bmod]
  exact Int.bmod_emod.symm

theorem sub_modEq {w : Nat} (hw : w ≤ 128) {a b : Nat} (hb : b < 2 ^ w) :
    (((a + 2 ^ 128 - b) % 2 ^ 128 : Nat) : Int) ≡ (a : Int) - b [ZMOD (2 ^ w : Nat)] := by
  have hle : 2 ^ w ≤ 2 ^ 128 := Nat.pow_le_pow_right (by omega) hw
  refine (word_modEq hw _).trans (modEq_two_pow_of_le hw ?_)
  have hcast : ((a + 2 ^ 128 - b : Nat) : Int) = (a - b) + (2 ^ 128 : Nat) := by omega
  rw [hcast]
  exact Int.add_modEq_right

end Integer

/-- The result of a binary operation on the integers `x` and `y`, read as `w`-bit numbers;
`isSigned` is the signedness of the type. Not every operation is one on integers. -/
def BinOp.exact (op : BinOp) (isSigned : Bool) (w : Nat) (x y : Int) :
    Option (Except TrapReason Int) :=
  let v := reading isSigned w
  let u := reading false w
  let s := reading true w
  -- The count of a shift is unsigned, also in a signed type.
  let count := (u y % w).toNat
  match op with
  | .add => some (.ok (v x + v y))
  | .sub => some (.ok (v x - v y))
  | .mul => some (.ok (v x * v y))
  | .uDiv => some (if u y = 0 then .error .divisionByZero else .ok (u x / u y))
  | .sDiv => some (if s y = 0 then .error .divisionByZero else .ok ((s x).tdiv (s y)))
  | .uRem => some (if u y = 0 then .error .remainderByZero else .ok (u x % u y))
  | .sRem => some (if s y = 0 then .error .remainderByZero else .ok ((s x).tmod (s y)))
  | .and => some (.ok ((u x).toNat &&& (u y).toNat : Nat))
  | .or => some (.ok ((u x).toNat ||| (u y).toNat : Nat))
  | .xor => some (.ok ((u x).toNat ^^^ (u y).toNat : Nat))
  | .shl => some (.ok (u x * 2 ^ count))
  | .lShr => some (.ok (u x / 2 ^ count))
  | .aShr => some (.ok (s x / 2 ^ count))
  | .fAdd | .fSub | .fMul | .fDiv | .fRem => none

def CheckedOp.isSigned : CheckedOp → Bool
  | .sAdd | .sSub | .sMul => true
  | .uAdd | .uSub | .uMul => false

/-- The exact result of a checked operation. -/
def CheckedOp.exact (op : CheckedOp) (w : Nat) (x y : Int) : Int :=
  let v := reading op.isSigned w
  match op with
  | .uAdd | .sAdd => v x + v y
  | .uSub | .sSub => v x - v y
  | .uMul | .sMul => v x * v y

/-- A comparison of `w`-bit numbers. -/
def ICmpPred.holds (pred : ICmpPred) (w : Nat) (x y : Int) : Bool :=
  let u := reading false w
  let s := reading true w
  match pred with
  | .eq => u x = u y
  | .ne => u x ≠ u y
  | .ult => u x < u y
  | .ule => u x ≤ u y
  | .ugt => u x > u y
  | .uge => u x ≥ u y
  | .slt => s x < s y
  | .sle => s x ≤ s y
  | .sgt => s x > s y
  | .sge => s x ≥ s y

namespace Integer

variable {ty : Ty} {w : Nat} {s : Bool} {lhs rhs : ConstValue} {x y : Int}

/-- The readings of an operand with pattern `a`, as `bin` and its kin see them. -/
structure Operand (w : Nat) (v : ConstValue) (x : Int) (a : Nat) : Prop where
  raw : operand v w = .ok a
  lt : a < 2 ^ w
  unsigned : (a : Int) = reading false w x
  signed : (signed a w).toInt = reading true w x
  modEq : ∀ s, (a : Int) ≡ reading s w x [ZMOD (2 ^ w : Nat)]

theorem exists_operand (h : number v = some x) (h₀ : 0 < w) (hw : w ≤ 128) :
    ∃ a, Operand w v x a := by
  obtain ⟨a, hraw, hlt, hread⟩ := raw_number h hw
  refine ⟨a, by rw [operand, hraw, orThrow_some], hlt, hread, ?_, fun s => ?_⟩
  · rw [toInt_signed h₀ hw hlt, hread, reading_reading]
  · rw [hread]
    exact (reading_modEq false w x).trans (reading_modEq s w x).symm

theorem Operand.toNat (h : Operand w v x a) : (reading false w x).toNat = a := by
  rw [← h.unsigned, Int.toNat_natCast]

/-- A pattern is zero exactly when its readings are. -/
theorem Operand.eq_zero_iff (h : Operand w v x a) (h₀ : 0 < w) (s : Bool) :
    a = 0 ↔ reading s w x = 0 := by
  have hzero : ∀ s, reading s w 0 = 0 := fun s =>
    reading_of_inRange h₀ (inRange_zero s w)
  constructor
  · intro ha
    have hread : reading false w x = 0 := by rw [← h.unsigned, ha, Nat.cast_zero]
    rw [← reading_reading s false, hread, hzero]
  · intro hs
    have hread : reading false w x = 0 := by rw [← reading_reading false s, hs, hzero]
    rw [← h.unsigned] at hread
    exact_mod_cast hread

/-- The bit pattern of a binary operation has the residue of the exact result. -/
theorem binBits_eq (op : BinOp) (h₀ : 0 < w) (hw : w ≤ 128) {a b : Nat}
    (ha : Operand w lhs x a) (hb : Operand w rhs y b) :
    match op.exact s w x y with
    | none => binBits op w a b = .error .panic
    | some (.error t) => binBits op w a b = .error (.trap t)
    | some (.ok z) => ∃ n, binBits op w a b = .ok n ∧ (n : Int) ≡ z [ZMOD (2 ^ w : Nat)] := by
  have hcount : (reading false w y % (w : Int)).toNat = b % w := by
    rw [← hb.unsigned, ← Int.natCast_emod, Int.toNat_natCast]
  cases op with
  | add =>
      refine ⟨_, rfl, (word_modEq hw _).trans ?_⟩
      push_cast
      exact (ha.modEq s).add (hb.modEq s)
  | sub => exact ⟨_, rfl, (sub_modEq hw hb.lt).trans ((ha.modEq s).sub (hb.modEq s))⟩
  | mul =>
      refine ⟨_, rfl, (word_modEq hw _).trans ?_⟩
      push_cast
      exact (ha.modEq s).mul (hb.modEq s)
  | uDiv =>
      simp only [BinOp.exact, binBits, ← hb.eq_zero_iff h₀ false]
      by_cases hzero : b = 0
      · rw [if_pos hzero, if_pos hzero]
      · rw [if_neg hzero, if_neg hzero]
        refine ⟨_, rfl, ?_⟩
        rw [Int.natCast_ediv, ha.unsigned, hb.unsigned]
  | uRem =>
      simp only [BinOp.exact, binBits, ← hb.eq_zero_iff h₀ false]
      by_cases hzero : b = 0
      · rw [if_pos hzero, if_pos hzero]
      · rw [if_neg hzero, if_neg hzero]
        refine ⟨_, rfl, ?_⟩
        rw [Int.natCast_emod, ha.unsigned, hb.unsigned]
  | sDiv =>
      simp only [BinOp.exact, binBits, ← hb.eq_zero_iff h₀ true]
      by_cases hzero : b = 0
      · rw [if_pos hzero, if_pos hzero]
      · rw [if_neg hzero, if_neg hzero]
        refine ⟨_, rfl, (toNat_modEq hw _).trans ?_⟩
        rw [BitVec.toInt_sdiv, ha.signed, hb.signed]
        exact modEq_two_pow_of_le hw Int.bmod_emod
  | sRem =>
      simp only [BinOp.exact, binBits, ← hb.eq_zero_iff h₀ true]
      by_cases hzero : b = 0
      · rw [if_pos hzero, if_pos hzero]
      · rw [if_neg hzero, if_neg hzero]
        refine ⟨_, rfl, (toNat_modEq hw _).trans ?_⟩
        rw [BitVec.toInt_srem, ha.signed, hb.signed]
  | and =>
      simp only [BinOp.exact, ha.toNat, hb.toNat]
      exact ⟨_, rfl, Int.ModEq.refl _⟩
  | or =>
      simp only [BinOp.exact, ha.toNat, hb.toNat]
      exact ⟨_, rfl, Int.ModEq.refl _⟩
  | xor =>
      simp only [BinOp.exact, ha.toNat, hb.toNat]
      exact ⟨_, rfl, Int.ModEq.refl _⟩
  | shl =>
      simp only [BinOp.exact, hcount, ← ha.unsigned]
      refine ⟨_, rfl, (word_modEq hw _).trans ?_⟩
      rw [Nat.shiftLeft_eq]
      push_cast
      exact Int.ModEq.refl _
  | lShr =>
      simp only [BinOp.exact, hcount, ← ha.unsigned]
      refine ⟨_, rfl, ?_⟩
      rw [Nat.shiftRight_eq_div_pow]
      push_cast
      exact Int.ModEq.refl _
  | aShr =>
      simp only [BinOp.exact, hcount, ← ha.signed]
      refine ⟨_, rfl, (toNat_modEq hw _).trans ?_⟩
      rw [BitVec.toInt_sshiftRight, Int.shiftRight_eq_div_pow]
      push_cast
      exact Int.ModEq.refl _
  | fAdd => rfl
  | fSub => rfl
  | fMul => rfl
  | fDiv => rfl
  | fRem => rfl

theorem bin_eq (op : BinOp) (hty : shape ty = some (w, s)) (hl : number lhs = some x)
    (hr : number rhs = some y) :
    bin op ty lhs rhs = match op.exact s w x y with
      | none => .error .panic
      | some (.error t) => .error (.trap t)
      | some (.ok z) => .ok (constant s w z) := by
  obtain ⟨h₀, hw⟩ := shape_bits hty
  obtain ⟨a, ha⟩ := exists_operand hl h₀ hw
  obtain ⟨b, hb⟩ := exists_operand hr h₀ hw
  have hbits := binBits_eq (s := s) op h₀ hw ha hb
  simp only [bin, hty, orThrow_some, ok_bind, ha.raw, hb.raw]
  cases hexact : op.exact s w x y with
  | none =>
      rw [hexact] at hbits
      rw [hbits]
      rfl
  | some r =>
      rw [hexact] at hbits
      cases r with
      | error t =>
          dsimp only at hbits ⊢
          rw [hbits]
          rfl
      | ok z =>
          obtain ⟨n, hn, hmod⟩ := hbits
          dsimp only
          rw [hn, ok_bind, result_eq hty hmod]

/-! ## Checked operations -/

/-- The overflow of a signed operation: at the width of the type or of the carrier. -/
theorem signedOverflow_eq (hw : w ≤ 128) (z : Int) :
    signedOverflow w z = !decide (InRange true w z) := by
  have hle : 2 ^ (w - 1) ≤ 2 ^ 127 := Nat.pow_le_pow_right (by omega) (by omega)
  have hle : (2 : Int) ^ (w - 1) ≤ 2 ^ 127 := by exact_mod_cast hle
  have hiff : (z < -2 ^ 127 ∨ 2 ^ 127 ≤ z) ∨ (w < 128 ∧ (z < -2 ^ (w - 1) ∨ z ≥ 2 ^ (w - 1))) ↔
      ¬ InRange true w z := by
    rw [inRange_signed]
    rcases Nat.lt_or_ge w 128 with hlt | hge
    · omega
    · have hw128 : w = 128 := by omega
      subst hw128
      omega
  unfold signedOverflow
  rw [← Bool.decide_and, ← Bool.decide_or, ← decide_not, decide_eq_decide]
  exact hiff

theorem checkedBits_eq (op : CheckedOp) (hw : w ≤ 128) {a b : Nat}
    (ha : Operand w lhs x a) (hb : Operand w rhs y b) :
    ((checkedBits op w a b).1 : Int) ≡ op.exact w x y [ZMOD (2 ^ w : Nat)] ∧
      (checkedBits op w a b).2 = !decide (InRange op.isSigned w (op.exact w x y)) := by
  have hpow : 2 ^ w ≤ 2 ^ 128 := Nat.pow_le_pow_right (by omega) hw
  have hpos : 0 < 2 ^ w := Nat.two_pow_pos w
  have hcast : ((2 ^ w : Nat) : Int) = 2 ^ w := by push_cast; rfl
  have hlta := ha.lt
  have hltb := hb.lt
  cases op with
  | uAdd =>
      simp only [CheckedOp.exact, CheckedOp.isSigned, checkedBits, ← ha.unsigned, ← hb.unsigned]
      refine ⟨by simpa using word_modEq hw (a + b), ?_⟩
      rw [← Bool.decide_or, ← decide_not, decide_eq_decide, inRange_unsigned, ← hcast, mask]
      -- Below the width of the carrier a sum never carries.
      rcases Nat.lt_or_ge (a + b) (2 ^ 128) with hlt | hge
      · rw [Nat.mod_eq_of_lt hlt]
        omega
      · omega
  | uSub =>
      simp only [CheckedOp.exact, CheckedOp.isSigned, checkedBits, ← ha.unsigned, ← hb.unsigned]
      refine ⟨sub_modEq hw hltb, ?_⟩
      rw [← decide_not, decide_eq_decide, inRange_unsigned, ← hcast]
      omega
  | uMul =>
      simp only [CheckedOp.exact, CheckedOp.isSigned, checkedBits, ← ha.unsigned, ← hb.unsigned]
      refine ⟨by simpa using word_modEq hw (a * b), ?_⟩
      rw [← Bool.decide_or, ← decide_not, decide_eq_decide, inRange_unsigned, ← hcast, mask]
      have hprod : ((a * b : Nat) : Int) = (a : Int) * b := by push_cast; rfl
      rw [← hprod]
      omega
  | sAdd =>
      simp only [CheckedOp.exact, CheckedOp.isSigned, checkedBits, ha.signed, hb.signed]
      refine ⟨?_, signedOverflow_eq hw _⟩
      refine (word_modEq hw _).trans ?_
      push_cast
      exact (ha.modEq true).add (hb.modEq true)
  | sSub =>
      simp only [CheckedOp.exact, CheckedOp.isSigned, checkedBits, ha.signed, hb.signed]
      exact ⟨(sub_modEq hw hltb).trans ((ha.modEq true).sub (hb.modEq true)),
        signedOverflow_eq hw _⟩
  | sMul =>
      simp only [CheckedOp.exact, CheckedOp.isSigned, checkedBits, ha.signed, hb.signed]
      refine ⟨?_, signedOverflow_eq hw _⟩
      refine (word_modEq hw _).trans ?_
      push_cast
      exact (ha.modEq true).mul (hb.modEq true)

theorem checked_eq (op : CheckedOp) (hty : shape ty = some (w, s)) (hl : number lhs = some x)
    (hr : number rhs = some y) :
    checked op ty lhs rhs = .ok (constant s w (op.exact w x y),
      !decide (InRange op.isSigned w (op.exact w x y))) := by
  obtain ⟨h₀, hw⟩ := shape_bits hty
  obtain ⟨a, ha⟩ := exists_operand hl h₀ hw
  obtain ⟨b, hb⟩ := exists_operand hr h₀ hw
  obtain ⟨hmod, hflag⟩ := checkedBits_eq op hw ha hb
  simp only [checked, hty, orThrow_some, ok_bind, ha.raw, hb.raw, result_eq hty hmod, hflag,
    pure_eq_ok]

/-! ## Casts and comparisons -/

theorem cast_eq (op : CastOp) (src : Ty) (hty : shape ty = some (w, s)) (hv : number v = some x) :
    cast op src ty v =
      .ok (constant s w (reading (decide (op = .sExt)) (operandBits src) x)) := by
  obtain ⟨h₀, hw⟩ := operandBits_bits src
  obtain ⟨-, hw'⟩ := shape_bits hty
  obtain ⟨a, ha⟩ := exists_operand hv h₀ hw
  simp only [cast, ha.raw, ok_bind]
  by_cases hop : op = .sExt
  · rw [if_pos hop, decide_eq_true hop, ← ha.signed]
    exact result_eq hty (toNat_modEq hw' _)
  · rw [if_neg hop, decide_eq_false hop, ← ha.unsigned]
    exact result_eq hty (Int.ModEq.refl _)

theorem compare_eq (pred : ICmpPred) (ty : Ty) (hl : number lhs = some x)
    (hr : number rhs = some y) :
    compare pred ty lhs rhs = .ok (pred.holds (operandBits ty) x y) := by
  obtain ⟨h₀, hw⟩ := operandBits_bits ty
  obtain ⟨a, ha⟩ := exists_operand hl h₀ hw
  obtain ⟨b, hb⟩ := exists_operand hr h₀ hw
  simp only [compare, ha.raw, hb.raw, ok_bind, pure_eq_ok]
  cases pred <;> simp only [compareBits, ICmpPred.holds, ← ha.unsigned, ← hb.unsigned, ha.signed,
    hb.signed, Nat.cast_inj, Int.ofNat_lt, Int.ofNat_le, ne_eq, ge_iff_le, gt_iff_lt]

/-- Sign and magnitude of an operand, as `checked_cast` takes them. -/
theorem Operand.magnitude (h : Operand w v x a) (h₀ : 0 < w) (s : Bool) :
    (s && decide ((Integer.signed a w).toInt < 0)) = decide (reading s w x < 0) ∧
      (if s && decide ((Integer.signed a w).toInt < 0) then (Integer.signed a w).toInt.natAbs
        else a) = (reading s w x).natAbs := by
  rw [h.signed]
  cases s with
  | false =>
      have hpos : ¬ reading false w x < 0 := by
        rw [← h.unsigned]
        omega
      simp only [Bool.false_and, decide_eq_false hpos, Bool.false_eq_true, if_false, true_and]
      rw [← h.unsigned, Int.natAbs_natCast]
  | true =>
      simp only [Bool.true_and, true_and]
      by_cases hneg : reading true w x < 0
      · rw [if_pos (decide_eq_true hneg)]
      · -- A pattern that is not negative reads the same way with and without a sign.
        have hle : (2 : Int) ^ (w - 1) ≤ 2 ^ w := by
          exact_mod_cast Nat.pow_le_pow_right (show 0 < 2 by omega) (Nat.sub_le w 1)
        have hrange := inRange_signed.mp (reading_inRange true h₀ x)
        have hunsigned : InRange false w (reading true w x) :=
          inRange_unsigned.mpr ⟨by omega, by omega⟩
        have hsame : reading false w x = reading true w x := by
          rw [← reading_reading false true, reading_of_inRange h₀ hunsigned]
        rw [if_neg (by simpa using hneg), ← hsame, ← h.unsigned, Int.natAbs_natCast]

theorem inRange_iff_magnitude (db : Nat) (ds : Bool) (z : Int) :
    InRange ds db z ↔ ¬ ((decide (z < 0) && !ds) || decide (z.natAbs >
      if ds then 2 ^ (db - 1) - (!decide (z < 0)).toNat else mask db)) = true := by
  have hhalf : 0 < 2 ^ (db - 1) := Nat.two_pow_pos _
  have hpow : 0 < 2 ^ db := Nat.two_pow_pos _
  have hcast : ((2 ^ (db - 1) : Nat) : Int) = 2 ^ (db - 1) := by push_cast; rfl
  have hcast' : ((2 ^ db : Nat) : Int) = 2 ^ db := by push_cast; rfl
  cases ds with
  | false =>
      rw [inRange_unsigned, ← hcast', mask]
      by_cases hneg : z < 0
      · simp [hneg]
      · simp only [hneg, decide_false, Bool.false_and, Bool.false_or, Bool.false_eq_true, if_false,
          decide_eq_true_eq]
        omega
  | true =>
      rw [inRange_signed, ← hcast]
      by_cases hneg : z < 0
      · simp only [hneg, decide_true, Bool.not_true, Bool.and_false, Bool.false_or, if_true,
          Bool.toNat_false, decide_eq_true_eq]
        omega
      · simp only [hneg, decide_false, Bool.not_true, Bool.and_false, Bool.false_or, if_true,
          Bool.not_false, Bool.toNat_true, decide_eq_true_eq]
        omega

theorem checkedCast_eq {src dst : Ty} {sb db : Nat} {ss ds : Bool}
    (hsrc : shape src = some (sb, ss)) (hdst : shape dst = some (db, ds)) (hv : number v = some x) :
    checkedCast src dst v =
      if InRange ds db (reading ss sb x) then .ok (constant ds db (reading ss sb x))
      else .error (.trap .invalidConversion) := by
  obtain ⟨h₀, hw⟩ := shape_bits hsrc
  obtain ⟨h₀', hw'⟩ := shape_bits hdst
  obtain ⟨a, ha⟩ := exists_operand hv h₀ hw
  obtain ⟨hneg, hmag⟩ := ha.magnitude h₀ ss
  rw [hneg] at hmag
  simp only [checkedCast, hsrc, hdst, orThrow_some, ok_bind, ha.raw, hmag, hneg]
  by_cases hrange : InRange ds db (reading ss sb x)
  · rw [if_neg ((inRange_iff_magnitude db ds _).mp hrange), if_pos hrange]
    refine result_eq hdst ?_
    by_cases hz : reading ss sb x < 0
    · rw [if_pos (decide_eq_true hz)]
      have hsub := sub_modEq hw' (a := 0) (b := (reading ss sb x).natAbs) ?_
      · rw [Nat.zero_add] at hsub
        refine hsub.trans ?_
        have hval : ((0 : Nat) : Int) - (reading ss sb x).natAbs = reading ss sb x := by omega
        rw [hval]
      · -- A negative number of the range has a magnitude of at most half of it.
        cases ds with
        | false => exact absurd (inRange_unsigned.mp hrange).1 (by omega)
        | true =>
            have hlow := (inRange_signed.mp hrange).1
            have hhalf := two_mul_two_pow_pred h₀'
            have hcast : ((2 ^ (db - 1) : Nat) : Int) = 2 ^ (db - 1) := by push_cast; rfl
            omega
    · rw [if_neg (by simpa using hz)]
      have hval : ((reading ss sb x).natAbs : Int) = reading ss sb x := by omega
      rw [hval]
  · rw [if_pos (not_not.mp fun h => hrange ((inRange_iff_magnitude db ds _).mpr h)), if_neg hrange]

/-! ## All operations -/

/-- Bit `j` of the `w`-bit pattern of a constant. -/
def bit (w : Nat) (v : ConstValue) (j : Nat) : Bool := ((raw v w).getD 0).testBit j

theorem bit_eq (h : number v = some x) (hw : w ≤ 128) (j : Nat) :
    bit w v j = (reading false w x).toNat.testBit j := by
  obtain ⟨a, hraw, -, hread⟩ := raw_number h hw
  rw [bit, hraw, ← hread, Int.toNat_natCast, Option.getD_some]

theorem bit_constant (h₀ : 0 < w) (hw : w ≤ 128) (z : Int) (j : Nat) :
    bit w (constant s w z) j = (reading false w z).toNat.testBit j := by
  rw [bit_eq (number_constant s h₀ hw z) hw, reading_reading]

/-- What the integer operations of the interpreter are, for the type `ty` of `w` bits and
operands that hold `x` and `y`. -/
structure Arithmetic (ty : Ty) (w : Nat) (s : Bool) (lhs rhs : ConstValue) (x y : Int) :
    Prop where
  /-- Results are canonical: the number of the range with the right residue. -/
  canonical : ∀ z, number (constant s w z) = some (reading s w z)
  pack : ∀ n, pack ty n = some (constant s w n)
  bin : ∀ op, bin op ty lhs rhs = match op.exact s w x y with
    | none => .error .panic
    | some (.error t) => .error (.trap t)
    | some (.ok z) => .ok (constant s w z)
  checked : ∀ op, checked op ty lhs rhs = .ok (constant s w (op.exact w x y),
    !decide (InRange op.isSigned w (op.exact w x y)))
  compare : ∀ pred, compare pred ty lhs rhs = .ok (pred.holds w x y)
  compareBool : ∀ pred, Integer.compare pred .bool lhs rhs = .ok (pred.holds 1 x y)
  cast : ∀ op src, cast op src ty lhs =
    .ok (constant s w (reading (decide (op = .sExt)) (operandBits src) x))
  checkedCast : ∀ dst db ds, shape dst = some (db, ds) → checkedCast ty dst lhs =
    if InRange ds db (reading s w x) then .ok (constant ds db (reading s w x))
    else .error (.trap .invalidConversion)
  /-- The least signed number divided by `-1`. -/
  minByNegOne : reading true w x = -2 ^ (w - 1) → reading true w y = -1 →
    Integer.bin .sDiv ty lhs rhs = .ok (constant s w (-2 ^ (w - 1))) ∧
      Integer.bin .sRem ty lhs rhs = .ok (constant s w 0)
  /-- Shifts to the right move the bits down by the count modulo the width, and fill with
  zeros or with the sign bit. -/
  lShr : ∃ v, Integer.bin .lShr ty lhs rhs = .ok v ∧
    ∀ j < w, bit w v j = bit w lhs ((reading false w y % w).toNat + j)
  aShr : ∃ v, Integer.bin .aShr ty lhs rhs = .ok v ∧
    ∀ j < w, bit w v j = bit w lhs
      (if (reading false w y % w).toNat + j < w then (reading false w y % w).toNat + j else w - 1)

/-- **Integer operations are exact at every width**: for all integer types, operations and
operands. -/
theorem arithmetic (hty : shape ty = some (w, s)) (hl : number lhs = some x)
    (hr : number rhs = some y) : Arithmetic ty w s lhs rhs x y where
  canonical := by
    obtain ⟨h₀, hw⟩ := shape_bits hty
    exact number_constant s h₀ hw
  pack := pack_eq hty
  bin op := bin_eq op hty hl hr
  checked op := checked_eq op hty hl hr
  compare pred := by
    have hbits : operandBits ty = w := by rw [operandBits, hty]
    rw [compare_eq pred ty hl hr, hbits]
  compareBool pred := compare_eq pred .bool hl hr
  cast op src := cast_eq op src hty hl
  checkedCast dst db ds hdst := checkedCast_eq hty hdst hl
  minByNegOne := by
    intro hx hy
    obtain ⟨h₀, hw⟩ := shape_bits hty
    have hne : ¬ ((-1 : Int) = 0) := by decide
    rw [bin_eq .sDiv hty hl hr, bin_eq .sRem hty hl hr]
    simp only [BinOp.exact, hx, hy, if_neg hne]
    have hquot : (-2 ^ (w - 1) : Int).tdiv (-1) = 2 ^ (w - 1) := by
      rw [Int.tdiv_neg, Int.tdiv_one, Int.neg_neg]
    have hrem : (-2 ^ (w - 1) : Int).tmod (-1) = 0 := by
      rw [Int.tmod_neg, Int.tmod_one]
    rw [hquot, hrem]
    refine ⟨congrArg Except.ok (constant_congr s ?_), rfl⟩
    -- The quotient is one more than the largest number, and wraps to the least.
    have hwrap : (2 : Int) ^ (w - 1) = -2 ^ (w - 1) + (2 ^ w : Nat) := by
      have htwo := two_mul_two_pow_pred h₀
      have hcast : ((2 ^ (w - 1) : Nat) : Int) = 2 ^ (w - 1) := by push_cast; rfl
      rw [← hcast]
      omega
    calc (2 : Int) ^ (w - 1) = -2 ^ (w - 1) + (2 ^ w : Nat) := hwrap
      _ ≡ -2 ^ (w - 1) [ZMOD (2 ^ w : Nat)] := Int.add_modEq_right
  lShr := by
    obtain ⟨h₀, hw⟩ := shape_bits hty
    refine ⟨_, bin_eq .lShr hty hl hr, fun j hj => ?_⟩
    rw [bit_constant h₀ hw, bit_eq hl hw]
    exact testBit_shiftRight_unsigned w _ j x
  aShr := by
    obtain ⟨h₀, hw⟩ := shape_bits hty
    refine ⟨_, bin_eq .aShr hty hl hr, fun j hj => ?_⟩
    rw [bit_constant h₀ hw, bit_eq hl hw]
    exact testBit_shiftRight_signed hj _ x

/-- The least number of eight bits divided by `-1`. -/
theorem arithmetic_i8 :
    shape .i8 = some (8, true) ∧ Arithmetic .i8 8 true (.i (-128)) (.i (-1)) (-128) (-1) :=
  ⟨rfl, arithmetic rfl (by decide) (by decide)⟩

end Integer

end Whale
