import Whale.Float.Format
import Whale.Lib.InterchangeOrder

set_option autoImplicit false

/-! # Comparisons

The integer comparison of two words answers every predicate as the comparison of the extended
real numbers they stand for, and with its unordered flag when there is none. -/

namespace Whale

/-! ## Predicates -/

namespace FCmpPred

/-- The relation of two numbers. -/
def relation : FCmpPred → EReal → EReal → Prop
  | .oeq, x, y | .ueq, x, y => x = y
  | .one, x, y | .une, x, y => x ≠ y
  | .olt, x, y | .ult, x, y => x < y
  | .ole, x, y | .ule, x, y => x ≤ y
  | .ogt, x, y | .ugt, x, y => x > y
  | .oge, x, y | .uge, x, y => x ≥ y
  | .ord, _, _ => True
  | .uno, _, _ => False

/-- Whether the predicate is true of what is not a number. -/
def unordered : FCmpPred → Bool
  | .oeq | .one | .olt | .ole | .ogt | .oge | .ord => false
  | .uno | .ueq | .une | .ult | .ule | .ugt | .uge => true

/-- The predicate of two values, `none` for what is not a number. -/
def Holds (predicate : FCmpPred) : Option EReal → Option EReal → Prop
  | some x, some y => predicate.relation x y
  | _, _ => predicate.unordered = true

def complement : FCmpPred → FCmpPred
  | .oeq => .une
  | .one => .ueq
  | .olt => .uge
  | .ole => .ugt
  | .ogt => .ule
  | .oge => .ult
  | .ord => .uno
  | .uno => .ord
  | .ueq => .one
  | .une => .oeq
  | .ult => .oge
  | .ule => .ogt
  | .ugt => .ole
  | .uge => .olt

/-- The predicate of the operands in the other order. -/
def mirror : FCmpPred → FCmpPred
  | .olt => .ogt
  | .ole => .oge
  | .ogt => .olt
  | .oge => .ole
  | .ult => .ugt
  | .ule => .uge
  | .ugt => .ult
  | .uge => .ule
  | predicate => predicate

theorem unordered_complement (predicate : FCmpPred) :
    predicate.complement.unordered = !predicate.unordered := by
  cases predicate <;> rfl

theorem holds_complement (predicate : FCmpPred) (x y : Option EReal) :
    predicate.complement.Holds x y ↔ ¬ predicate.Holds x y := by
  rcases x with _ | x
  · simp [Holds, unordered_complement]
  rcases y with _ | y
  · simp [Holds, unordered_complement]
  cases predicate <;> simp [Holds, relation, complement]

theorem holds_mirror (predicate : FCmpPred) (x y : Option EReal) :
    predicate.mirror.Holds y x ↔ predicate.Holds x y := by
  rcases x with _ | x <;> rcases y with _ | y <;> cases predicate <;>
    simp [Holds, relation, mirror, unordered, eq_comm]

/-- The answer from the order of two words and whether they are both numbers. -/
def answer (predicate : FCmpPred) (ordered : Bool) (order : Ordering) : Bool :=
  match predicate with
  | .oeq => ordered && order.isEq
  | .one => ordered && !order.isEq
  | .olt => ordered && order.isLT
  | .ole => ordered && !order.isGT
  | .ogt => ordered && order.isGT
  | .oge => ordered && !order.isLT
  | .ord => ordered
  | .uno => !ordered
  | .ueq => !ordered || order.isEq
  | .une => !ordered || !order.isEq
  | .ult => !ordered || order.isLT
  | .ule => !ordered || !order.isGT
  | .ugt => !ordered || order.isGT
  | .uge => !ordered || !order.isLT

theorem answer_unordered (predicate : FCmpPred) (order : Ordering) :
    predicate.answer false order = predicate.unordered := by
  cases predicate <;> rfl

theorem answer_cmp (predicate : FCmpPred) (x y : EReal) :
    predicate.answer true (cmp x y) = true ↔ predicate.relation x y := by
  rcases lt_trichotomy x y with h | rfl | h
  · rw [(cmp_eq_lt_iff x y).mpr h]
    cases predicate <;> simp [answer, relation, h, h.le, h.ne, h.not_gt, h.not_ge]
  · rw [cmp_self_eq_eq]
    cases predicate <;> simp [answer, relation]
  · rw [(cmp_eq_gt_iff x y).mpr h]
    cases predicate <;> simp [answer, relation, h, h.le, h.ne', h.not_gt, h.not_ge]

end FCmpPred

/-! ## Words -/

namespace Interchange

variable {b : Interchange}

theorem and_shiftLeft (n m i : ℕ) : n &&& m <<< i = (n >>> i &&& m) <<< i := by
  apply Nat.eq_of_testBit_eq
  intro j
  simp only [Nat.testBit_and, Nat.testBit_shiftLeft, Nat.testBit_shiftRight]
  by_cases h : i ≤ j
  · rw [Nat.add_sub_cancel' h, ← Bool.and_assoc, ← Bool.and_assoc, Bool.and_comm (n.testBit j)]
  · simp [h]

/-- All ones in the exponent and something in the fraction is a word beyond infinity. -/
theorem nan_iff (n : ℕ) : n &&& b.top = b.top ∧ n &&& (2 ^ b.t - 1) ≠ 0 ↔
    b.top < n % 2 ^ (b.t + b.k) := by
  have hsplit : n % 2 ^ (b.t + b.k) = 2 ^ b.t * (n / 2 ^ b.t % 2 ^ b.k) + n % 2 ^ b.t := by
    rw [pow_add, Nat.mod_mul, Nat.add_comm]
  have hElt : n / 2 ^ b.t % 2 ^ b.k < 2 ^ b.k := Nat.mod_lt _ (Nat.two_pow_pos _)
  have hFlt : n % 2 ^ b.t < 2 ^ b.t := Nat.mod_lt _ (Nat.two_pow_pos _)
  have htop : b.top = (2 ^ b.k - 1) <<< b.t := (Nat.shiftLeft_eq _ _).symm
  rw [Nat.and_two_pow_sub_one_eq_mod, hsplit]
  rw [htop, and_shiftLeft, Nat.and_two_pow_sub_one_eq_mod, Nat.shiftRight_eq_div_pow,
    Nat.shiftLeft_eq, Nat.shiftLeft_eq, Nat.mul_left_inj (Nat.two_pow_pos _).ne']
  generalize n / 2 ^ b.t % 2 ^ b.k = E at *
  generalize n % 2 ^ b.t = F at *
  constructor
  · rintro ⟨rfl, hne⟩
    rw [mul_comm]
    omega
  · intro hlt
    by_contra hnot
    rcases Nat.lt_or_ge E (2 ^ b.k - 1) with h | h
    · have hmul := Nat.mul_le_mul_left (2 ^ b.t) h
      rw [Nat.mul_succ, mul_comm _ (2 ^ b.k - 1)] at hmul
      omega
    · obtain rfl : E = 2 ^ b.k - 1 := by omega
      rw [mul_comm] at hlt
      exact hnot ⟨rfl, by omega⟩

theorem isSome_value (n : ℕ) :
    (b.decode n).value.isSome = !decide (n &&& b.top = b.top ∧ n &&& (2 ^ b.t - 1) ≠ 0) := by
  rw [decode_value, decide_eq_decide.mpr (nan_iff n)]
  by_cases hnan : b.top < n % 2 ^ (b.t + b.k)
  · rw [if_pos hnan, decide_eq_true hnan]
    rfl
  · rw [if_neg hnan, decide_eq_false hnan]
    split <;> rfl

/-- The order of words by bit operations. -/
theorem order_eq_bits {v w sign : ℕ} (hsign : sign = 2 ^ (b.t + b.k))
    (hv : v < 2 ^ (b.t + b.k + 1)) (hw : w < 2 ^ (b.t + b.k + 1)) :
    (if v &&& (sign - 1) = 0 ∧ w &&& (sign - 1) = 0 then Ordering.eq
      else if (v ^^^ w) &&& sign ≠ 0 then if v &&& sign ≠ 0 then .lt else .gt
      else if v &&& sign ≠ 0 then compare w v else compare v w) = b.order v w := by
  have hbit : ∀ n : ℕ, n &&& sign ≠ 0 ↔ n / 2 ^ (b.t + b.k) % 2 = 1 := by
    intro n
    rw [hsign, FloatFormat.and_two_pow_ne_zero_iff, ← Bool.toNat_eq_one, Nat.toNat_testBit]
  have hxor : (v ^^^ w) &&& sign ≠ 0 ↔
      v / 2 ^ (b.t + b.k) % 2 ≠ w / 2 ^ (b.t + b.k) % 2 := by
    rw [hsign, FloatFormat.and_two_pow_ne_zero_iff, Nat.testBit_xor, ← Nat.toNat_testBit,
      ← Nat.toNat_testBit]
    cases v.testBit (b.t + b.k) <;> cases w.testBit (b.t + b.k) <;> simp
  rw [pow_succ] at hv hw
  have hvdiv : v / 2 ^ (b.t + b.k) < 2 := Nat.div_lt_of_lt_mul (by omega)
  have hwdiv : w / 2 ^ (b.t + b.k) < 2 := Nat.div_lt_of_lt_mul (by omega)
  have hcmp : ∀ {m n : ℕ}, m / 2 ^ (b.t + b.k) = n / 2 ^ (b.t + b.k) →
      compare m n = cmp (m % 2 ^ (b.t + b.k)) (n % 2 ^ (b.t + b.k)) := by
    intro m n h
    have hmono : StrictMono fun i => 2 ^ (b.t + b.k) * (n / 2 ^ (b.t + b.k)) + i :=
      fun _ _ hij => Nat.add_lt_add_left hij _
    have hm := Nat.div_add_mod m (2 ^ (b.t + b.k))
    have hn := Nat.div_add_mod n (2 ^ (b.t + b.k))
    rw [h] at hm
    calc compare m n = cmp m n := (cmp_eq_compare m n).symm
      _ = cmp (2 ^ (b.t + b.k) * (n / 2 ^ (b.t + b.k)) + m % 2 ^ (b.t + b.k))
          (2 ^ (b.t + b.k) * (n / 2 ^ (b.t + b.k)) + n % 2 ^ (b.t + b.k)) := by rw [hm, hn]
      _ = cmp (m % 2 ^ (b.t + b.k)) (n % 2 ^ (b.t + b.k)) := hmono.cmp_map_eq _ _
  simp only [if_congr hxor rfl rfl, if_congr (hbit _) rfl rfl]
  simp only [hsign, Nat.and_two_pow_sub_one_eq_mod]
  unfold order
  dsimp only
  by_cases hsame : v / 2 ^ (b.t + b.k) % 2 ≠ w / 2 ^ (b.t + b.k) % 2
  · rw [if_pos hsame, if_pos hsame]
  · have hquot : v / 2 ^ (b.t + b.k) = w / 2 ^ (b.t + b.k) := by
      rw [Nat.mod_eq_of_lt hvdiv, Nat.mod_eq_of_lt hwdiv] at hsame
      exact not_not.mp hsame
    rw [if_neg hsame, if_neg hsame, hcmp hquot, hcmp hquot.symm]

end Interchange

/-! ## Comparing -/

namespace FloatBits

/-- The exponent and fraction of a width. -/
def masks : FloatBits → ℕ × ℕ
  | .f16 _ => (0x7c00, 0x03ff)
  | .f32 _ => (0x7f800000, 0x007fffff)
  | .f64 _ => (0x7ff0000000000000, 0x000fffffffffffff)

theorem masks_eq (v : FloatBits) :
    v.masks = (v.interchange.top, 2 ^ v.interchange.t - 1) := by
  cases v <;> norm_num [masks, interchange, Interchange.top]

theorem compare_eq_answer {v w : FloatBits} (h : v.width = w.width) (predicate : FCmpPred) :
    v.compare w predicate = some (predicate.answer
      (!decide (v.bits &&& v.masks.1 = v.masks.1 ∧ v.bits &&& v.masks.2 ≠ 0) &&
        !decide (w.bits &&& v.masks.1 = v.masks.1 ∧ w.bits &&& v.masks.2 ≠ 0))
      (if v.bits &&& (2 ^ (v.width - 1) - 1) = 0 ∧ w.bits &&& (2 ^ (v.width - 1) - 1) = 0 then .eq
        else if (v.bits ^^^ w.bits) &&& 2 ^ (v.width - 1) ≠ 0 then
          if v.bits &&& 2 ^ (v.width - 1) ≠ 0 then .lt else .gt
        else if v.bits &&& 2 ^ (v.width - 1) ≠ 0 then Ord.compare w.bits v.bits
        else Ord.compare v.bits w.bits)) := by
  unfold compare
  rw [if_neg (not_not.mpr h)]
  cases v <;> cases predicate <;> rfl

theorem compare_eq {v w : FloatBits} (h : v.width = w.width) (predicate : FCmpPred) :
    v.compare w predicate = some (predicate.answer
      (v.datum.value.isSome && w.datum.value.isSome) (v.interchange.order v.bits w.bits)) := by
  have hformat := interchange_eq_iff.mpr h
  have hw := w.bits_lt
  rw [← hformat] at hw
  have hsign : 2 ^ (v.width - 1) = 2 ^ (v.interchange.t + v.interchange.k) := by
    cases v <;> rfl
  rw [compare_eq_answer h, masks_eq, Interchange.order_eq_bits hsign v.bits_lt hw, datum, datum,
    ← hformat, Interchange.isSome_value, Interchange.isSome_value]

/-- A predicate of two words is the predicate of the numbers they stand for. -/
theorem compare_eq_some_iff {v w : FloatBits} {predicate : FCmpPred} {r : Bool} :
    v.compare w predicate = some r ↔
      v.width = w.width ∧ (r = true ↔ predicate.Holds v.datum.value w.datum.value) := by
  by_cases h : v.width = w.width
  · have hanswer : predicate.answer (v.datum.value.isSome && w.datum.value.isSome)
        (v.interchange.order v.bits w.bits) = true ↔
        predicate.Holds v.datum.value w.datum.value := by
      rcases hx : v.datum.value with _ | x
      · rw [Option.isSome_none, Bool.false_and, FCmpPred.answer_unordered]
        rfl
      rcases hy : w.datum.value with _ | y
      · rw [Option.isSome_none, Bool.and_false, FCmpPred.answer_unordered]
        rfl
      unfold datum at hx hy
      rw [← interchange_eq_iff.mpr h] at hy
      rw [Interchange.order_eq_cmp hx hy]
      exact predicate.answer_cmp x y
    rw [compare_eq h, Option.some.injEq, ← hanswer]
    simp only [h, true_and]
    exact ⟨fun heq => heq ▸ Iff.rfl, fun hiff => Bool.eq_iff_iff.mpr hiff.symm⟩
  · unfold compare
    rw [if_pos h]
    exact ⟨nofun, fun hboth => absurd hboth.1 h⟩

/-- The comparison of words is the comparison of extended real numbers; words of one width
always have an answer, the complementary predicate the opposite one, and the mirrored
predicate the same one for the operands in the other order. -/
theorem compare_exact (v w : FloatBits) (predicate : FCmpPred) :
    (∀ r, v.compare w predicate = some r ↔
        v.width = w.width ∧ (r = true ↔ predicate.Holds v.datum.value w.datum.value)) ∧
      ((v.compare w predicate).isSome = true ↔ v.width = w.width) ∧
      v.compare w predicate.complement = (v.compare w predicate).map not ∧
      w.compare v predicate.mirror = v.compare w predicate := by
  refine ⟨fun r => compare_eq_some_iff, ?_, ?_, ?_⟩
  · rw [Option.isSome_iff_exists]
    simp only [compare_eq_some_iff]
    refine ⟨fun ⟨_, h, _⟩ => h, fun h => ?_⟩
    by_cases hholds : predicate.Holds v.datum.value w.datum.value
    · exact ⟨true, h, by simp [hholds]⟩
    · exact ⟨false, h, by simp [hholds]⟩
  · ext r
    rw [compare_eq_some_iff, FCmpPred.holds_complement, Option.map_eq_some_iff]
    simp only [compare_eq_some_iff]
    constructor
    · rintro ⟨h, hiff⟩
      exact ⟨!r, ⟨h, by cases r <;> simp_all⟩, Bool.not_not r⟩
    · rintro ⟨a, ⟨h, hiff⟩, rfl⟩
      exact ⟨h, by cases a <;> simp_all⟩
  · ext r
    rw [compare_eq_some_iff, compare_eq_some_iff, FCmpPred.holds_mirror, eq_comm (a := w.width)]

end FloatBits

end Whale
