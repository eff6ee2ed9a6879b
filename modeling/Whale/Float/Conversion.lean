import Whale.Float.Remainder
import Whale.Interp.IntegerSpec
import Whale.Interp.Run
import Whale.Verifier.Operands

set_option autoImplicit false

/-! # Conversions round once and trap out of range

A conversion to a floating type rounds the exact value of its operand once. A conversion to an
integer type drops what is after the point, and traps exactly if the rest does not fit. -/

namespace Whale

open Integer (number constant shape)

/-- The interchange format of a floating type. -/
def Ty.interchange : Ty → Option Interchange
  | .f16 => some (FloatBits.f16 0).interchange
  | .f32 => some (FloatBits.f32 0).interchange
  | .f64 => some (FloatBits.f64 0).interchange
  | _ => none

/-- The exact result of a conversion that may keep everything. -/
def Datum.exact : Datum → Exact
  | .nan => .nan
  | .infinity s => .infinity s
  | .finite s m e => .number s (signed s (dyadic m e))

/-- What is left of a datum before the point. -/
def Datum.whole : Datum → Option Int
  | .finite s m e => some (truncate (signed s (dyadic m e)))
  | _ => none

/-- What a cast the verifier accepts has to give. -/
def CastOp.Converts (op : CastOp) (src dst : Ty) : Prop :=
  match op with
  | .fExt =>
      ∀ v : FloatBits, src.interchange = some v.interchange →
        ∃ b r, dst.interchange = some b ∧ evalCast .fExt src dst (.f v) = .ok (.f r) ∧
          r.Rounded b v.datum.exact ∧
          (v.datum ≠ .nan → evalCast .fTrunc dst src (.f r) = .ok (.f v))
  | .fTrunc =>
      ∀ v : FloatBits, src.interchange = some v.interchange →
        ∃ b r, dst.interchange = some b ∧ evalCast .fTrunc src dst (.f v) = .ok (.f r) ∧
          r.Rounded b v.datum.exact
  | .iToFS | .iToFU =>
      ∀ value x, number value = some x →
        ∃ w s b r, shape src = some (w, s) ∧ dst.interchange = some b ∧
          evalCast op src dst value = .ok (.f r) ∧ r.Rounded b (.number false (reading s w x))
  | .fToIS | .fToIU =>
      ∀ v : FloatBits, src.interchange = some v.interchange →
        ∃ w s, shape dst = some (w, s) ∧ evalCast op src dst (.f v) = match v.datum.whole with
          | some z =>
              if InRange s w z then .ok (constant s w z)
              else .error (.trap .invalidConversion)
          | none => .error (.trap .invalidConversion)
  | _ => True

/-! ## Formats of types -/

theorem ofTy_of_interchange {ty : Ty} {b : Interchange} (h : ty.interchange = some b) :
    ∃ f, FloatFormat.ofTy ty = some f ∧ f.Of b := by
  cases ty <;> cases h <;> exact ⟨_, rfl, FloatFormat.of_ofBits _⟩

section

variable {f f' : FloatFormat} {b b' : Interchange} {v : FloatBits}

/-! ## Floats to floats -/

/-- The conversion of a float to the format `f`. -/
def floatToFloat (f : FloatFormat) (v : FloatBits) : FloatBits :=
  let parts := (FloatFormat.ofBits v).unpack v
  if parts.nan then f.nan
  else if parts.infinity then f.special parts.negative true
  else f.pack parts.negative parts.sig parts.exp

theorem convert_float {op : CastOp} (hop : op = .fExt ∨ op = .fTrunc) {src dst : Ty}
    (hf : FloatFormat.ofTy dst = some f) (v : FloatBits) :
    evalCast op src dst (.f v) = .ok (.f (floatToFloat f v)) := by
  rcases hop with rfl | rfl
  · simp only [evalCast, FloatBits.convert, hf]
    rfl
  · simp only [evalCast, FloatBits.convert, hf]
    rfl

/-- What a word stands for, by its parts. -/
theorem parts_cases (v : FloatBits) {p : FloatParts}
    (hp : (FloatFormat.ofBits v).unpack v = p) :
    (p.nan = true ∧ v.datum = .nan) ∨
      (p.nan = false ∧ p.infinity = true ∧ v.datum = .infinity p.negative) ∨
      (p.nan = false ∧ p.infinity = false ∧ v.datum = .finite p.negative p.sig p.exp ∧
        Canonical v.interchange.t v.interchange.low p.sig p.exp ∧
        p.exp ≤ v.interchange.high) := by
  have hdatum := FloatFormat.unpack_datum (FloatFormat.of_ofBits v) rfl
  rw [hp] at hdatum
  cases hnan : p.nan with
  | true =>
    rw [hnan, if_pos rfl] at hdatum
    exact Or.inl ⟨rfl, hdatum⟩
  | false =>
    rw [hnan, if_neg Bool.false_ne_true] at hdatum
    cases hinf : p.infinity with
    | true =>
      rw [hinf, if_pos rfl] at hdatum
      exact Or.inr (Or.inl ⟨rfl, rfl, hdatum⟩)
    | false =>
      rw [hinf, if_neg Bool.false_ne_true] at hdatum
      obtain ⟨hcanonical, hhigh⟩ := Interchange.decode_finite hdatum
      exact Or.inr (Or.inr ⟨rfl, rfl, hdatum, hcanonical, hhigh⟩)

theorem datum_cases (v : FloatBits) :
    (v.datum = .nan ∧ floatToFloat f v = f.nan) ∨
      (∃ s, v.datum = .infinity s ∧ floatToFloat f v = f.special s true) ∨
      ∃ s m e, v.datum = .finite s m e ∧ Canonical v.interchange.t v.interchange.low m e ∧
        e ≤ v.interchange.high ∧ floatToFloat f v = f.pack s m e := by
  unfold floatToFloat
  dsimp only
  rcases parts_cases v rfl with ⟨hnan, hdatum⟩ | ⟨hnan, hinf, hdatum⟩ |
    ⟨hnan, hinf, hdatum, hcanonical, hhigh⟩
  · rw [hnan]
    exact Or.inl ⟨hdatum, rfl⟩
  · rw [hnan, hinf]
    exact Or.inr (Or.inl ⟨_, hdatum, rfl⟩)
  · rw [hnan, hinf]
    exact Or.inr (Or.inr ⟨_, _, _, hdatum, hcanonical, hhigh, rfl⟩)

theorem small_sig {m : ℕ} {e : ℤ} (hv : Canonical v.interchange.t v.interchange.low m e) :
    m < 2 ^ 128 := by
  have hsmall := (FloatFormat.of_ofBits v).small
  exact hv.sig.trans_le (Nat.pow_le_pow_right (by omega) (by omega))

theorem rounded_floatToFloat (hf : f.Of b) (v : FloatBits) :
    (floatToFloat f v).Rounded b v.datum.exact := by
  rcases datum_cases (f := f) v with ⟨hdatum, hto⟩ | ⟨s, hdatum, hto⟩ |
    ⟨s, m, e, hdatum, hcanonical, _, hto⟩
  · rw [hdatum, hto]
    exact FloatFormat.rounded_nan hf
  · rw [hdatum, hto]
    exact FloatFormat.rounded_infinity hf s
  · rw [hdatum, hto]
    exact rounded_exact hf s e (small_sig hcanonical)

/-- Every number of the format `b` is one of `b'`. -/
structure Interchange.Widens (b b' : Interchange) : Prop where
  t : b.t ≤ b'.t
  low : b'.low ≤ b.low
  high : b.high ≤ b'.high

/-- Converting to a wider format and back changes nothing. -/
theorem floatToFloat_floatToFloat (hf : f.Of v.interchange) (hf' : f'.Of b')
    (hwide : v.interchange.Widens b') (hnan : v.datum ≠ .nan) :
    floatToFloat f (floatToFloat f' v) = v := by
  have hformat : (floatToFloat f' v).interchange = b' := (rounded_floatToFloat hf' v).format
  have hback := (rounded_floatToFloat hf (floatToFloat f' v)).format
  refine (FloatBits.eq_of_datum hback.symm hnan ?_).symm
  rcases datum_cases (f := f') v with ⟨hdatum, _⟩ | ⟨s, hdatum, hto⟩ |
    ⟨s, m, e, hdatum, hcanonical, hhigh, hto⟩
  · exact absurd hdatum hnan
  · have hinf : (floatToFloat f' v).datum = .infinity s := by
      rw [hto]
      exact (FloatFormat.rounded_infinity hf' s).rounds
    have hround := (rounded_floatToFloat hf (floatToFloat f' v)).rounds
    rw [hinf] at hround
    exact hdatum.trans hround.symm
  · -- The wider format has the number itself.
    have hgrid : OnGrid b'.t b'.low m e :=
      ⟨hcanonical.sig.trans_le (Nat.pow_le_pow_right (by omega) (by have := hwide.t; omega)),
        hwide.low.trans hcanonical.exp⟩
    obtain ⟨m', e', hdatum', hcanonical', hvalue'⟩ := FloatFormat.pack_onGrid hf' s
      (small_sig hcanonical) hgrid (hhigh.trans hwide.high) rfl
    rw [← hto] at hdatum'
    rcases datum_cases (f := f) (floatToFloat f' v) with ⟨hother, _⟩ | ⟨_, hother, _⟩ |
      ⟨s₂, m₂, e₂, hsame, hcanonical₂, _, hto₂⟩
    · rw [hdatum'] at hother
      cases hother
    · rw [hdatum'] at hother
      cases hother
    · rw [hdatum'] at hsame
      cases hsame
      obtain ⟨m₃, e₃, hdatum₃, hcanonical₃, hvalue₃⟩ := FloatFormat.pack_onGrid hf s
        (small_sig hcanonical₂) hcanonical.toOnGrid hhigh hvalue'
      obtain ⟨rfl, rfl⟩ := hcanonical₃.unique hcanonical (hvalue₃.trans hvalue')
      rw [hdatum, hto₂, hdatum₃]

/-! ## Integers to floats -/

/-- The magnitude of an integer, as it is packed. -/
def intMagnitude (s : Bool) (w raw : Nat) : Nat :=
  (if s && raw.testBit (w - 1) then (2 ^ 128 - raw) % 2 ^ 128 else raw) % 2 ^ w

theorem intMagnitude_eq {s : Bool} {w a : Nat} {x : Int} (h₀ : 0 < w) (hw : w ≤ 128)
    (ha : a < 2 ^ w) (hread : (a : Int) = reading false w x) :
    (s && a.testBit (w - 1)) = decide (reading s w x < 0) ∧
      intMagnitude s w a = (reading s w x).natAbs := by
  have hhalf := two_mul_two_pow_pred h₀
  have hpow : 2 ^ 128 = 2 ^ w * 2 ^ (128 - w) := by rw [← pow_add, Nat.add_sub_cancel' hw]
  unfold intMagnitude
  cases s with
  | false =>
    rw [Bool.false_and, if_neg Bool.false_ne_true, Nat.mod_eq_of_lt ha, ← hread]
    exact ⟨(decide_eq_false (by omega)).symm, (Int.natAbs_natCast a).symm⟩
  | true =>
    have hsigned : reading true w x = reading true w a := by rw [hread, reading_reading]
    rw [hsigned, Integer.reading_pattern h₀ ha, Integer.testBit_sign h₀ ha, Bool.true_and]
    by_cases hneg : 2 ^ (w - 1) ≤ a
    · have hmod : (2 ^ 128 - a) % 2 ^ 128 % 2 ^ w = 2 ^ w - a := by
        have hsplit : 2 ^ 128 - a = 2 ^ w * (2 ^ (128 - w) - 1) + (2 ^ w - a) := by
          have hpos := Nat.two_pow_pos (128 - w)
          rw [Nat.mul_sub_one, ← hpow]
          have hle : 2 ^ w ≤ 2 ^ 128 := Nat.pow_le_pow_right (by omega) hw
          omega
        have hpos : 0 < a := (Nat.two_pow_pos _).trans_le hneg
        have hlt : 2 ^ 128 - a < 2 ^ 128 := by omega
        rw [Nat.mod_eq_of_lt hlt, hsplit, Nat.mul_add_mod, Nat.mod_eq_of_lt (by omega)]
      rw [if_pos (decide_eq_true hneg), if_pos hneg, hmod]
      exact ⟨by rw [decide_eq_true hneg, decide_eq_true (by omega)], by omega⟩
    · rw [decide_eq_false hneg, if_neg Bool.false_ne_true, if_neg hneg, Nat.mod_eq_of_lt ha]
      exact ⟨(decide_eq_false (by omega)).symm, by omega⟩

theorem convert_int {op : CastOp} (hop : op = .iToFS ∨ op = .iToFU) {src dst : Ty} {w : Nat}
    {s : Bool} (hsrc : shape src = some (w, s)) (hdst : FloatFormat.ofTy dst = some f)
    (hf : f.Of b) {value : ConstValue} {x : Int} (hx : number value = some x) :
    ∃ r, evalCast op src dst value = .ok (.f r) ∧ r.Rounded b (.number false (reading s w x)) := by
  obtain ⟨h₀, hw⟩ := Integer.shape_bits hsrc
  obtain ⟨a, hraw, ha, hread⟩ := Integer.raw_number hx hw
  obtain ⟨hneg, hmag⟩ := intMagnitude_eq (s := s) h₀ hw ha hread
  refine ⟨f.pack (s && a.testBit (w - 1)) (intMagnitude s w a) 0, ?_, ?_⟩
  · rcases hop with rfl | rfl
    · simp only [evalCast, FloatBits.convert, hsrc, Option.bind_eq_bind, Option.bind_some, hraw,
        hdst]
      rfl
    · simp only [evalCast, FloatBits.convert, hsrc, Option.bind_eq_bind, Option.bind_some, hraw,
        hdst]
      rfl
  · have hsmall : (reading s w x).natAbs < 2 ^ 128 := by
      rw [← hmag]
      exact (Nat.mod_lt _ (Nat.two_pow_pos w)).trans_le (Nat.pow_le_pow_right (by omega) hw)
    have hround := rounded_exact hf (decide (reading s w x < 0)) 0 hsmall
    rw [hneg, hmag]
    generalize reading s w x = z at *
    have hvalue : signed (decide (z < 0)) (dyadic z.natAbs 0) = z := by
      rw [dyadic, zpow_zero, mul_one]
      by_cases hz : z < 0
      · have hcast : ((z.natAbs : ℤ) : ℚ) = -z := by
          exact_mod_cast (by omega : (z.natAbs : ℤ) = -z)
        rw [decide_eq_true hz, signed_true, ← Int.cast_natCast, hcast, neg_neg]
      · have hcast : ((z.natAbs : ℤ) : ℚ) = z := by
          exact_mod_cast (by omega : (z.natAbs : ℤ) = z)
        rw [decide_eq_false hz, signed_false, ← Int.cast_natCast, hcast]
    rw [hvalue] at hround
    by_cases hz : z = 0
    · rw [hz] at hround ⊢
      exact hround
    · have hne : (z : ℚ) ≠ 0 := Int.cast_ne_zero.mpr hz
      rw [Exact.number_of_ne hne] at hround ⊢
      exact hround

/-! ## Floats to integers -/

/-- The whole part of a significand and an exponent; `none` from `2 ^ 128` on. -/
def wholeMagnitude (sig : Nat) (exp : Int) : Option Nat :=
  if sig = 0 then some 0
  else if exp ≥ 0 then
    let shift := exp.toNat
    if shift ≥ 128 ∨ sig > (2 ^ 128 - 1) >>> shift then none
    else some (sig <<< shift)
  else if (-exp).toNat < 128 then some (sig >>> (-exp).toNat)
  else some 0

theorem wholeMagnitude_eq {sig : Nat} (exp : Int) (hsig : sig < 2 ^ 128) :
    match wholeMagnitude sig exp with
    | some m => ⌊dyadic sig exp⌋ = (m : ℤ)
    | none => (2 : ℤ) ^ 128 ≤ ⌊dyadic sig exp⌋ := by
  unfold wholeMagnitude
  by_cases hzero : sig = 0
  · rw [if_pos hzero, hzero, dyadic_eq_zero_iff.mpr rfl]
    exact Int.floor_zero
  · rw [if_neg hzero]
    by_cases hexp : exp ≥ 0
    · obtain ⟨n, rfl⟩ := Int.eq_ofNat_of_zero_le hexp
      have hvalue : ⌊dyadic sig n⌋ = ((sig * 2 ^ n : ℕ) : ℤ) := by
        rw [dyadic, zpow_natCast, ← Int.floor_natCast (R := ℚ)]
        push_cast
        rfl
      rw [if_pos hexp, Int.toNat_natCast, hvalue]
      by_cases hbig : n ≥ 128 ∨ sig > (2 ^ 128 - 1) >>> n
      · have hge : 2 ^ 128 ≤ sig * 2 ^ n := by
          rcases hbig with hn | hover
          · calc 2 ^ 128 ≤ 2 ^ n := Nat.pow_le_pow_right (by omega) hn
              _ ≤ sig * 2 ^ n := Nat.le_mul_of_pos_left _ (Nat.pos_of_ne_zero hzero)
          · rw [Nat.shiftRight_eq_div_pow, gt_iff_lt,
              Nat.div_lt_iff_lt_mul (Nat.two_pow_pos n)] at hover
            omega
        simp only [if_pos hbig]
        exact_mod_cast hge
      · simp only [if_neg hbig, Nat.shiftLeft_eq]
    · obtain ⟨n, hn⟩ := Int.eq_ofNat_of_zero_le (show 0 ≤ -exp by omega)
      have hvalue : ⌊dyadic sig exp⌋ = ((sig / 2 ^ n : ℕ) : ℤ) := by
        have hexp' : exp = -(n : ℤ) := by omega
        rw [dyadic, hexp', zpow_neg, zpow_natCast, ← div_eq_mul_inv]
        exact_mod_cast Rat.floor_natCast_div_natCast sig (2 ^ n)
      rw [if_neg hexp, hn, Int.toNat_natCast, hvalue]
      by_cases hsmall : n < 128
      · simp only [if_pos hsmall, Nat.shiftRight_eq_div_pow]
      · have hlt : sig < 2 ^ n := hsig.trans_le (Nat.pow_le_pow_right (by omega) (by omega))
        simp only [if_neg hsmall, Nat.div_eq_of_lt hlt]

/-- The integer constant of a finite value, if its type holds it. -/
def floatToInt (dst : Ty) (p : FloatParts) : Option (Option ConstValue) :=
  match wholeMagnitude p.sig p.exp with
  | none => some none
  | some magnitude => do
      let (bits, signed) ← shape dst
      let maximum := if signed then 2 ^ (bits - 1) - (!p.negative).toNat else 2 ^ bits - 1
      if (p.negative && !signed && decide (magnitude ≠ 0)) || decide (magnitude > maximum) then
        some none
      else
        let v ← Integer.pack dst (if p.negative then (2 ^ 128 - magnitude) % 2 ^ 128 else magnitude)
        some (some v)

theorem truncate_signed (s : Bool) {v : ℚ} (hv : 0 ≤ v) :
    truncate (signed s v) = if s then -⌊v⌋ else ⌊v⌋ := by
  cases s with
  | false => exact truncate_of_nonneg hv
  | true =>
    rw [signed_true, truncate_neg, truncate_of_nonneg hv]
    rfl

theorem floatToInt_eq {dst : Ty} {w : Nat} {s : Bool} (hdst : shape dst = some (w, s))
    {p : FloatParts} (hsig : p.sig < 2 ^ 128) :
    floatToInt dst p =
      some (if InRange s w (truncate (signed p.negative (dyadic p.sig p.exp))) then
        some (constant s w (truncate (signed p.negative (dyadic p.sig p.exp)))) else none) := by
  obtain ⟨h₀, hw⟩ := Integer.shape_bits hdst
  have hwhole := wholeMagnitude_eq p.exp hsig
  rw [truncate_signed p.negative (dyadic_nonneg p.sig p.exp)]
  generalize ⌊dyadic p.sig p.exp⌋ = F at *
  unfold floatToInt
  cases hmag : wholeMagnitude p.sig p.exp with
  | none =>
    rw [hmag] at hwhole
    -- Nothing of `2 ^ 128` or more fits in any of the types.
    have hout : ¬ InRange s w (if p.negative then -F else F) := by
      intro hin
      have hbound := (hin.mono hw).natAbs_lt (by omega)
      split at hbound <;> omega
    rw [if_neg hout]
  | some m =>
    rw [hmag] at hwhole
    have habs : (if p.negative then -F else F).natAbs = m := by
      rw [hwhole]
      cases p.negative <;> simp
    have hcheck : ((p.negative && !s && decide (m ≠ 0)) || decide (m >
        if s then 2 ^ (w - 1) - (!p.negative).toNat else 2 ^ w - 1)) =
        !decide (InRange s w (if p.negative then -F else F)) := by
      have hrange := Integer.inRange_iff_magnitude w s (if p.negative then -F else F)
      rw [habs] at hrange
      by_cases hm : m = 0
      · have hz : (if p.negative then -F else F) = 0 := by
          rw [← Int.natAbs_eq_zero, habs, hm]
        rw [hz, decide_eq_true (inRange_zero s w), hm]
        simp
      · have hneg : decide ((if p.negative then -F else F) < 0) = p.negative := by
          cases hp : p.negative <;> simp only [Bool.false_eq_true, if_false, if_true]
          · exact decide_eq_false (by omega)
          · exact decide_eq_true (by omega)
        rw [hneg, Integer.mask] at hrange
        rw [decide_eq_true hm, Bool.and_true]
        by_cases hin : InRange s w (if p.negative then -F else F)
        · rw [decide_eq_true hin]
          exact (Bool.not_eq_true _).mp (hrange.mp hin)
        · rw [decide_eq_false hin]
          exact not_not.mp fun h => hin (hrange.mpr h)
    simp only [hdst, Option.bind_eq_bind, Option.bind_some, hcheck]
    by_cases hin : InRange s w (if p.negative then -F else F)
    · have hlt := hin.natAbs_lt h₀
      rw [habs] at hlt
      rw [if_pos hin, if_neg (by simpa using hin), Integer.pack_eq hdst, Option.bind_some]
      refine congrArg (some <| some ·) (Integer.constant_congr s ?_)
      by_cases hneg : p.negative = true
      · have hsub := Integer.sub_modEq hw (a := 0) hlt
        rw [Nat.zero_add, Nat.cast_zero, zero_sub] at hsub
        rw [if_pos hneg, if_pos hneg, hwhole]
        exact hsub
      · rw [if_neg hneg, if_neg hneg, hwhole]
    · rw [if_neg hin, if_pos (by simpa using hin)]

theorem convert_float_int {op : CastOp} (hop : op = .fToIS ∨ op = .fToIU) {src dst : Ty} {w : Nat}
    {s : Bool} (hdst : shape dst = some (w, s)) (v : FloatBits) :
    evalCast op src dst (.f v) = match v.datum.whole with
      | some z => if InRange s w z then .ok (constant s w z) else .error (.trap .invalidConversion)
      | none => .error (.trap .invalidConversion) := by
  have hconvert : FloatBits.convert op src dst (.f v) =
      let p := (FloatFormat.ofBits v).unpack v
      if p.nan || p.infinity then some none else floatToInt dst p := by
    rcases hop with rfl | rfl
    · rfl
    · rfl
  have heval : evalCast op src dst (.f v) = (do
      let r ← orThrow (FloatBits.convert op src dst (.f v)) InstructionFault.panic
      orThrow r (InstructionFault.trap .invalidConversion)) := by
    rcases hop with rfl | rfl
    · rfl
    · rfl
  rw [heval, hconvert]
  dsimp only
  rcases parts_cases v rfl with ⟨hnan, hdatum⟩ | ⟨hnan, hinf, hdatum⟩ |
    ⟨hnan, hinf, hdatum, hcanonical, _⟩
  · rw [hnan, hdatum]
    rfl
  · rw [hnan, hinf, hdatum]
    rfl
  · rw [hnan, hinf, hdatum, Bool.or_self, if_neg Bool.false_ne_true,
      floatToInt_eq hdst (small_sig hcanonical)]
    simp only [Datum.whole, orThrow_some, ok_bind]
    split <;> rfl

end

/-! ## Casts -/

theorem exists_interchange {ty : Ty} (h : ty.isFloat = true) : ∃ b, ty.interchange = some b := by
  cases ty <;> first | exact ⟨_, rfl⟩ | cases h

theorem exists_interchange_of_widths {width : Option Nat} {ty : Ty} {p : Nat → Nat → Bool}
    (h : widths width ty.floatWidth p = true) : ∃ b, ty.interchange = some b := by
  cases ty <;> first | exact ⟨_, rfl⟩ | (cases width <;> cases h)

theorem exists_shape {ty : Ty} (h : ty.isSigned = true ∨ ty.isUnsigned = true) :
    ∃ w s, shape ty = some (w, s) := by
  cases ty <;> first | exact ⟨_, _, rfl⟩ | (rcases h with h | h <;> cases h)

theorem widens_of_lt {src dst : Ty} {b : Interchange}
    (h : widths src.floatWidth dst.floatWidth (fun s d => s < d) = true)
    (hsrc : src.interchange = some b) : ∃ b', dst.interchange = some b' ∧ b.Widens b' := by
  cases src <;> cases hsrc <;> cases dst <;>
    first
      | exact ⟨_, rfl, ⟨by decide, by decide, by decide⟩⟩
      | cases h

/-- Conversions that the verifier accepts round once, or trap exactly out of range. -/
theorem validCast_converts {op : CastOp} {src dst : Ty} (h : validCast op src dst = true) :
    op.Converts src dst := by
  unfold CastOp.Converts
  cases op with
  | fExt =>
    intro v hsrc
    obtain ⟨b, hdst, hwide⟩ := widens_of_lt h hsrc
    obtain ⟨f, hofTy, hf⟩ := ofTy_of_interchange hsrc
    obtain ⟨f', hofTy', hf'⟩ := ofTy_of_interchange hdst
    refine ⟨b, floatToFloat f' v, hdst, convert_float (Or.inl rfl) hofTy' v,
      rounded_floatToFloat hf' v, fun hnan => ?_⟩
    rw [convert_float (Or.inr rfl) hofTy, floatToFloat_floatToFloat hf hf' hwide hnan]
  | fTrunc =>
    intro v _
    obtain ⟨b, hdst⟩ := exists_interchange_of_widths h
    obtain ⟨f, hofTy, hf⟩ := ofTy_of_interchange hdst
    exact ⟨b, floatToFloat f v, hdst, convert_float (Or.inr rfl) hofTy v,
      rounded_floatToFloat hf v⟩
  | iToFS =>
    intro value x hx
    obtain ⟨hinteger, hfloat⟩ := (Bool.and_eq_true _ _).mp h
    obtain ⟨w, s, hsrc⟩ := exists_shape (Or.inl hinteger)
    obtain ⟨b, hdst⟩ := exists_interchange hfloat
    obtain ⟨f, hofTy, hf⟩ := ofTy_of_interchange hdst
    obtain ⟨r, heval, hround⟩ := convert_int (Or.inl rfl) hsrc hofTy hf hx
    exact ⟨w, s, b, r, hsrc, hdst, heval, hround⟩
  | iToFU =>
    intro value x hx
    obtain ⟨hinteger, hfloat⟩ := (Bool.and_eq_true _ _).mp h
    obtain ⟨w, s, hsrc⟩ := exists_shape (Or.inr hinteger)
    obtain ⟨b, hdst⟩ := exists_interchange hfloat
    obtain ⟨f, hofTy, hf⟩ := ofTy_of_interchange hdst
    obtain ⟨r, heval, hround⟩ := convert_int (Or.inr rfl) hsrc hofTy hf hx
    exact ⟨w, s, b, r, hsrc, hdst, heval, hround⟩
  | fToIS =>
    intro v _
    obtain ⟨w, s, hdst⟩ := exists_shape (Or.inl ((Bool.and_eq_true _ _).mp h).2)
    exact ⟨w, s, hdst, convert_float_int (Or.inl rfl) hdst v⟩
  | fToIU =>
    intro v _
    obtain ⟨w, s, hdst⟩ := exists_shape (Or.inr ((Bool.and_eq_true _ _).mp h).2)
    exact ⟨w, s, hdst, convert_float_int (Or.inr rfl) hdst v⟩
  | _ => trivial

/-- A widening the verifier accepts. -/
theorem validCast_converts_half : validCast .fExt .f16 .f64 = true ∧
    CastOp.fExt.Converts .f16 .f64 :=
  ⟨rfl, validCast_converts rfl⟩

/-- The least integer fits, the one below it does not. -/
example : evalCast .fToIS .f64 .i32 (.f (.f64 0xc1e00000001fffff)) = .ok (.i (-2147483648)) ∧
    evalCast .fToIS .f64 .i32 (.f (.f64 0xc1e0000000200000)) =
      .error (.trap .invalidConversion) := by
  decide +kernel

end Whale
