import Whale.IR.Types

set_option autoImplicit false

/-! # Identities and constant values

The numeric identities of functions, globals, values and blocks, and the constant values of
the IR. A 128-bit integer payload is a bit vector, a floating payload the bits of its
format. -/

namespace Whale

structure FunctionId where
  num : UInt32
  deriving DecidableEq, Repr

/-- Stable identity of a global inside one module, independent of its name and order. -/
structure GlobalId where
  num : UInt32
  deriving DecidableEq, Repr

structure ValueId where
  num : UInt32
  deriving DecidableEq, Repr

structure BlockId where
  num : UInt32
  deriving DecidableEq, Repr

inductive FloatBits where
  | f16 (bits : UInt16)
  | f32 (bits : UInt32)
  | f64 (bits : UInt64)
  deriving DecidableEq, Repr

namespace FloatBits

def width : FloatBits → Nat
  | f16 _ => 16
  | f32 _ => 32
  | f64 _ => 64

def bits : FloatBits → Nat
  | f16 x => x.toNat
  | f32 x => x.toNat
  | f64 x => x.toNat

end FloatBits

/-- A constant: `i` holds an `i128`, `u` a `u128`. -/
inductive ConstValue where
  | bool (value : Bool)
  | i (value : BitVec 128)
  | u (value : BitVec 128)
  | f (value : FloatBits)
  deriving DecidableEq, Repr

/-! ## Floating literals

A literal is a 64-bit float; a constant holds its bits in the format of its type. -/

/-- The value of a 64-bit float, rounded to the nearest half; ties go to even. -/
def f64ToF16 (value : UInt64) : UInt16 :=
  let bits := value.toNat
  let sign := (bits >>> 48) &&& 0x8000
  let exp := (bits >>> 52) &&& 0x7ff
  let fraction := bits &&& (2 ^ 52 - 1)
  if exp = 0x7ff then UInt16.ofNat (sign ||| (if fraction = 0 then 0x7c00 else 0x7e00))
  else if exp = 0 then UInt16.ofNat sign
  else
    let unbiased : Int := exp - 1023
    if unbiased > 15 then UInt16.ofNat (sign ||| 0x7c00)
    else if unbiased < -25 then UInt16.ofNat sign
    else
      let mantissa := fraction ||| 2 ^ 52
      let shift := if unbiased < -14 then (28 - unbiased).toNat else 42
      let base := mantissa >>> shift
      let remainder := mantissa &&& (2 ^ shift - 1)
      let halfway := 2 ^ (shift - 1)
      let up := remainder > halfway ∨ (remainder = halfway ∧ base &&& 1 ≠ 0)
      let rounded := base + (if up then 1 else 0)
      if unbiased < -14 then UInt16.ofNat (sign ||| rounded)
      else UInt16.ofNat (sign ||| (((unbiased + 14).toNat <<< 10) + rounded))

/-- `FloatBits::from_f64`; `single` is the value as the host converts it to 32 bits. -/
def FloatBits.fromF64 (width : Nat) (value : UInt64) (single : UInt32) : Option FloatBits :=
  match width with
  | 16 => some (.f16 (f64ToF16 value))
  | 32 => some (.f32 single)
  | 64 => some (.f64 value)
  | _ => none

end Whale
