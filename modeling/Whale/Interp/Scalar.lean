import Whale.IR.Const

set_option autoImplicit false

/-! # Scalars as bit patterns

The width and signedness of integer types, and the passage between a constant and the bits
it is stored as. -/

namespace Whale

namespace Integer

/-- Width and signedness of an integer type. -/
def shape : Ty → Option (Nat × Bool)
  | .i1 => some (1, true)
  | .u1 => some (1, false)
  | .i8 => some (8, true)
  | .u8 => some (8, false)
  | .i16 => some (16, true)
  | .u16 => some (16, false)
  | .i32 => some (32, true)
  | .u32 => some (32, false)
  | .i64 => some (64, true)
  | .u64 => some (64, false)
  | .i128 => some (128, true)
  | .u128 => some (128, false)
  | _ => none

/-- The low `bits` bits of an integer or boolean constant; `none` for a float. -/
def raw (value : ConstValue) (bits : Nat) : Option Nat :=
  match value with
  | .i v => some (v.toNat % 2 ^ bits)
  | .u v => some (v.toNat % 2 ^ bits)
  | .bool v => some (v.toNat % 2 ^ bits)
  | .f _ => none

/-- The `i128` whose low `bits` bits are `value`, sign-extended. -/
def signed (value bits : Nat) : BitVec 128 :=
  if bits < 128 ∧ value.testBit (bits - 1) then
    BitVec.ofNat 128 (value + (2 ^ 128 - 2 ^ bits))
  else BitVec.ofNat 128 value

/-- The constant of an integer type with the low bits of `value`; `none` for other types. -/
def pack (ty : Ty) (value : Nat) : Option ConstValue :=
  match shape ty with
  | none => none
  | some (bits, isSigned) =>
      let value := value % 2 ^ bits
      if isSigned then some (.i (signed value bits)) else some (.u (BitVec.ofNat 128 value))

end Integer

namespace Scalar

def floatType (ty : Ty) : Bool := ty = .f16 || ty = .f32 || ty = .f64

/-- The stored bits of a scalar. -/
def raw (ty : Ty) (value : ConstValue) : Option Nat :=
  match value with
  | .f bits => some bits.bits
  | _ => Integer.raw value (match Integer.shape ty with
    | some (bits, _) => bits
    | none => 1)

/-- The scalar with the given stored bits. -/
def pack (ty : Ty) (bits : Nat) : Option ConstValue :=
  match ty with
  | .f16 => some (.f (.f16 (UInt16.ofNat bits)))
  | .f32 => some (.f (.f32 (UInt32.ofNat bits)))
  | .f64 => some (.f (.f64 (UInt64.ofNat bits)))
  | _ => Integer.pack ty bits

end Scalar

def scalarType (ty : Ty) : Bool :=
  ty = .bool || (Integer.shape ty).isSome || Scalar.floatType ty

/-- The types of the values a run computes with. -/
def valueType (ty : Ty) : Bool :=
  scalarType ty ||
    match ty with
    | .ptr _ | .fnPtr _ => true
    | .tuple [t, .bool] => (Integer.shape t).isSome
    | _ => false

end Whale
