import Whale.IR.Instr
import Whale.Interp.Scalar

set_option autoImplicit false

/-! # Floating arithmetic on integers

Finite values are sign * significand * 2 ^ exponent. Addition and division retain guard,
round and sticky bits; only `pack` performs the nearest-even rounding. Significands are the
source's `u128` as natural numbers, exponents its `i32` as integers. -/

namespace Whale

/-! ## Comparison -/

/-- Compare equal-width values; `none` for mismatched widths. Integer bit ordering treats
both zeros as equal, and any NaN makes the operands unordered. -/
def FloatBits.compare (lhs rhs : FloatBits) (predicate : FCmpPred) : Option Bool :=
  if lhs.width ≠ rhs.width then none
  else
    let (exponent, fraction) := match lhs with
      | .f16 _ => (0x7c00, 0x03ff)
      | .f32 _ => (0x7f800000, 0x007fffff)
      | .f64 _ => (0x7ff0000000000000, 0x000fffffffffffff)
    let a := lhs.bits
    let b := rhs.bits
    let nan := fun bits : Nat => decide (bits &&& exponent = exponent ∧ bits &&& fraction ≠ 0)
    let ordered := !nan a && !nan b
    let sign := 2 ^ (lhs.width - 1)
    let magnitude := sign - 1
    let order : Ordering :=
      if a &&& magnitude = 0 ∧ b &&& magnitude = 0 then .eq
      else if (a ^^^ b) &&& sign ≠ 0 then
        if a &&& sign ≠ 0 then .lt else .gt
      else if a &&& sign ≠ 0 then Ord.compare b a
      else Ord.compare a b
    let equal := order.isEq
    let less := order.isLT
    let greater := order.isGT
    some (match predicate with
      | .oeq => ordered && equal
      | .one => ordered && !equal
      | .olt => ordered && less
      | .ole => ordered && !greater
      | .ogt => ordered && greater
      | .oge => ordered && !less
      | .ord => ordered
      | .uno => !ordered
      | .ueq => !ordered || equal
      | .une => !ordered || !equal
      | .ult => !ordered || less
      | .ule => !ordered || !greater
      | .ugt => !ordered || greater
      | .uge => !ordered || !less)

/-! ## Formats -/

structure FloatFormat where
  width : Nat
  fraction : Nat
  bias : Int
  deriving DecidableEq

/-- The parts of a value; the significand of a normal number has its leading one. -/
structure FloatParts where
  negative : Bool
  sig : Nat
  exp : Int
  nan : Bool
  infinity : Bool
  deriving DecidableEq

/-- Round off `shift` bits, to nearest, ties to even. -/
def roundBits (value shift : Nat) : Nat :=
  if shift > 128 then 0
  else if shift = 128 then (decide (value > 2 ^ 127)).toNat
  else
    let q := value >>> shift
    let remainder := value % 2 ^ shift
    let halfway := 2 ^ (shift - 1)
    q + (decide (remainder > halfway ∨ (remainder = halfway ∧ q % 2 ≠ 0))).toNat

/-- Shift right; a one among the bits shifted out stays as the last bit. -/
def jam (value shift : Nat) : Nat :=
  if shift = 0 then value
  else if shift ≥ 128 then (decide (value ≠ 0)).toNat
  else (value >>> shift) ||| (decide (value % 2 ^ shift ≠ 0)).toNat

namespace FloatFormat

def ofBits : FloatBits → FloatFormat
  | .f16 _ => ⟨16, 10, 15⟩
  | .f32 _ => ⟨32, 23, 127⟩
  | .f64 _ => ⟨64, 52, 1023⟩

/-- The format of a floating type. -/
def ofTy : Ty → Option FloatFormat
  | .f16 => some (ofBits (.f16 0))
  | .f32 => some (ofBits (.f32 0))
  | .f64 => some (ofBits (.f64 0))
  | _ => none

def sign (f : FloatFormat) : Nat := 2 ^ (f.width - 1)

def infinity (f : FloatFormat) : Nat := (f.bias.toNat * 2 + 1) <<< f.fraction

def bits (f : FloatFormat) (raw : Nat) : FloatBits :=
  match f.width with
  | 16 => .f16 (UInt16.ofNat raw)
  | 32 => .f32 (UInt32.ofNat raw)
  | _ => .f64 (UInt64.ofNat raw)

def nan (f : FloatFormat) : FloatBits := f.bits (f.infinity ||| 2 ^ (f.fraction - 1))

def special (f : FloatFormat) (negative infinite : Bool) : FloatBits :=
  f.bits ((if negative then f.sign else 0) ||| (if infinite then f.infinity else 0))

def unpack (f : FloatFormat) (value : FloatBits) : FloatParts :=
  let bits := value.bits
  let exp : Int := ((bits % f.sign) >>> f.fraction : Nat)
  let fraction := bits % 2 ^ f.fraction
  let special := exp = 2 * f.bias + 1
  { negative := decide (bits &&& f.sign ≠ 0)
    sig := if exp = 0 ∨ special then fraction else fraction ||| 2 ^ f.fraction
    exp := max exp 1 - f.bias - f.fraction
    nan := decide (special ∧ fraction ≠ 0)
    infinity := decide (special ∧ fraction = 0) }

/-- The value nearest to `sig * 2 ^ exp`. -/
def pack (f : FloatFormat) (negative : Bool) (sig : Nat) (exp : Int) : FloatBits :=
  if sig = 0 then f.special negative false
  else
    let highest : Int := Nat.log2 sig
    let target := max (exp + highest - f.fraction) (1 - f.bias - f.fraction)
    let shift := target - exp
    let rounded :=
      if shift > 0 then roundBits sig shift.toNat else (sig <<< (-shift).toNat) % 2 ^ 128
    let carry := rounded ≥ 2 ^ (f.fraction + 1)
    let target := if carry then target + 1 else target
    let rounded := if carry then rounded >>> 1 else rounded
    if rounded = 0 then f.special negative false
    else
      let exponent : Int :=
        if rounded < 2 ^ f.fraction then 0 else target + f.fraction + f.bias
      if exponent > 2 * f.bias then f.special negative true
      else
        f.bits ((if negative then f.sign else 0) ||| (exponent.toNat <<< f.fraction) |||
          (rounded % 2 ^ f.fraction))

end FloatFormat

/-- Shift the significand up to the width of a normal number. -/
def FloatParts.normalize (p : FloatParts) (f : FloatFormat) : FloatParts :=
  if p.sig = 0 then p
  else
    let shift := f.fraction - Nat.log2 p.sig
    { p with sig := p.sig <<< shift, exp := p.exp - shift }

/-! ## Arithmetic -/

namespace FloatBits

/-- Sign-bit negation preserves zeros and NaN payloads without rounding. -/
def negate (value : FloatBits) : FloatBits :=
  let f := FloatFormat.ofBits value
  f.bits (value.bits ^^^ f.sign)

def addParts (f : FloatFormat) (a b : FloatParts) : FloatBits :=
  if a.infinity || b.infinity then
    if a.infinity && b.infinity && (a.negative ^^ b.negative) then f.nan
    else f.special (if a.infinity then a.negative else b.negative) true
  else if a.sig = 0 ∧ b.sig = 0 then f.special (a.negative && b.negative) false
  else if a.sig = 0 then f.pack b.negative b.sig b.exp
  else if b.sig = 0 then f.pack a.negative a.sig a.exp
  else
    let swap := a.exp < b.exp ∨ (a.exp = b.exp ∧ a.sig < b.sig)
    let (a, b) := if swap then (b, a) else (a, b)
    -- Three low bits retain ties and inexact aligned tails.
    let av := a.sig <<< 3
    let bv := jam (b.sig <<< 3) (a.exp - b.exp).toNat
    if a.negative = b.negative then f.pack a.negative (av + bv) (a.exp - 3)
    else f.pack (a.negative && decide (av ≠ bv)) (av - bv) (a.exp - 3)

def mulParts (f : FloatFormat) (a b : FloatParts) : FloatBits :=
  let negative := a.negative ^^ b.negative
  if (a.infinity && decide (b.sig = 0) && !b.infinity) ||
      (b.infinity && decide (a.sig = 0) && !a.infinity) then f.nan
  else if a.infinity || b.infinity then f.special negative true
  else f.pack negative (a.sig * b.sig) (a.exp + b.exp)

def divParts (f : FloatFormat) (a b : FloatParts) : FloatBits :=
  let negative := a.negative ^^ b.negative
  if (a.infinity && b.infinity) ||
      (!a.infinity && !b.infinity && decide (a.sig = 0) && decide (b.sig = 0)) then f.nan
  else if a.infinity || (decide (b.sig = 0) && !b.infinity) then f.special negative true
  else if b.infinity || decide (a.sig = 0) then f.special negative false
  else
    let shift := f.fraction + 4
    let numerator := a.sig <<< shift
    let q := (numerator / b.sig) ||| (decide (numerator % b.sig ≠ 0)).toNat
    f.pack negative q (a.exp - b.exp - shift)

/-- The loop of the remainder, `r * power ^ shift` modulo `m` by repeated squaring. A shift
is a `u32`, so that 32 rounds end it. -/
def powerMod (m : Nat) : Nat → Nat → Nat → Nat → Nat
  | 0, r, _, _ => r
  | n + 1, r, power, shift =>
      if shift = 0 then r
      else powerMod m n (if shift % 2 ≠ 0 then r * power % m else r) (power * power % m) (shift / 2)

def remParts (f : FloatFormat) (lhs : FloatBits) (a b : FloatParts) : FloatBits :=
  if a.infinity || (decide (b.sig = 0) && !b.infinity) then f.nan
  else if b.infinity || decide (a.sig = 0) || decide (a.exp < b.exp) then lhs
  else
    let r := powerMod b.sig 32 (a.sig % b.sig) (2 % b.sig) (a.exp - b.exp).toNat
    f.pack a.negative r b.exp

/-- `none` for mismatched widths and for operators on integers. -/
def arithmetic (op : BinOp) (lhs rhs : FloatBits) : Option FloatBits :=
  if lhs.width ≠ rhs.width then none
  else
    let f := FloatFormat.ofBits lhs
    let a := f.unpack lhs
    let b := f.unpack rhs
    if a.nan || b.nan then some f.nan
    else
      let b := if op = .fSub then { b with negative := !b.negative } else b
      let a := a.normalize f
      let b := b.normalize f
      match op with
      | .fAdd | .fSub => some (addParts f a b)
      | .fMul => some (mulParts f a b)
      | .fDiv => some (divParts f a b)
      | .fRem => some (remParts f lhs a b)
      | _ => none

/-! ## Conversions -/

/-- Numeric conversion. The inner `none` is a defined invalid conversion; the outer `none` an
operand that is not of the source type, which the verifier excludes. -/
def convert (op : CastOp) (src dst : Ty) (value : ConstValue) : Option (Option ConstValue) :=
  match op, value with
  | .fExt, .f value | .fTrunc, .f value => do
      let parts := (FloatFormat.ofBits value).unpack value
      let f ← FloatFormat.ofTy dst
      some (some (.f (
        if parts.nan then f.nan
        else if parts.infinity then f.special parts.negative true
        else f.pack parts.negative parts.sig parts.exp)))
  | .iToFS, value | .iToFU, value => do
      let (bits, signed) ← Integer.shape src
      let raw ← Integer.raw value bits
      let f ← FloatFormat.ofTy dst
      let negative := signed && raw.testBit (bits - 1)
      let magnitude := if negative then (2 ^ 128 - raw) % 2 ^ 128 else raw
      some (some (.f (f.pack negative (magnitude % 2 ^ bits) 0)))
  | .fToIS, .f value | .fToIU, .f value => do
      let p := (FloatFormat.ofBits value).unpack value
      if p.nan || p.infinity then some none
      else
        let magnitude : Option Nat :=
          if p.sig = 0 then some 0
          else if p.exp ≥ 0 then
            let shift := p.exp.toNat
            if shift ≥ 128 ∨ p.sig > (2 ^ 128 - 1) >>> shift then none
            else some (p.sig <<< shift)
          else if (-p.exp).toNat < 128 then some (p.sig >>> (-p.exp).toNat)
          else some 0
        match magnitude with
        | none => some none
        | some magnitude => do
            let (bits, signed) ← Integer.shape dst
            let maximum :=
              if signed then 2 ^ (bits - 1) - (!p.negative).toNat else 2 ^ bits - 1
            if (p.negative && !signed && decide (magnitude ≠ 0)) ||
                decide (magnitude > maximum) then
              some none
            else
              let v ← Integer.pack dst
                (if p.negative then (2 ^ 128 - magnitude) % 2 ^ 128 else magnitude)
              some (some v)
  | .fExt, _ | .fTrunc, _ | .fToIS, _ | .fToIU, _ => none
  | _, _ => some none

end FloatBits

end Whale
