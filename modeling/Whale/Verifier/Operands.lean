import Whale.IR.Instr

set_option autoImplicit false

/-! # Types of operands

The categories of types the verifier knows, and the casts it accepts. -/

namespace Whale

namespace Ty

def isSigned (ty : Ty) : Bool :=
  ty = .i1 || ty = .i8 || ty = .i16 || ty = .i32 || ty = .i64 || ty = .i128

def isUnsigned (ty : Ty) : Bool :=
  ty = .u1 || ty = .u8 || ty = .u16 || ty = .u32 || ty = .u64 || ty = .u128

def isInteger (ty : Ty) : Bool := ty.isSigned || ty.isUnsigned

def isFloat (ty : Ty) : Bool := ty = .f16 || ty = .f32 || ty = .f64

def isPointer : Ty → Bool
  | .ptr _ => true
  | _ => false

def integerWidth : Ty → Option Nat
  | .i1 | .u1 => some 1
  | .i8 | .u8 => some 8
  | .i16 | .u16 => some 16
  | .i32 | .u32 => some 32
  | .i64 | .u64 => some 64
  | .i128 | .u128 => some 128
  | _ => none

def floatWidth : Ty → Option Nat
  | .f16 => some 16
  | .f32 => some 32
  | .f64 => some 64
  | _ => none

mutual

/-- A pointer to void may describe an opaque address, but void itself has no stored value. -/
def isStorable : Ty → Bool
  | .void => false
  | .array element _ => element.isStorable
  | .struct fields | .tuple fields => allStorable fields
  | _ => true

def allStorable : List Ty → Bool
  | [] => true
  | field :: fields => field.isStorable && allStorable fields

end

end Ty

/-- `is_some_and` on two widths. -/
def widths (source destination : Option Nat) (p : Nat → Nat → Bool) : Bool :=
  match source, destination with
  | some s, some d => p s d
  | _, _ => false

def validCast (op : CastOp) (source destination : Ty) : Bool :=
  let integers := widths source.integerWidth destination.integerWidth
  let floats := widths source.floatWidth destination.floatWidth
  match op with
  -- Bool has a numerical 0/1 conversion, not signed i1's sign bit.
  | .zExt =>
      if source = .bool then destination.isInteger && decide (destination ≠ .i1)
      else integers fun s d => s < d
  | .sExt => integers fun s d => s < d
  | .checkedInt => integers fun _ _ => true
  | .trunc => integers fun s d => s > d
  | .fExt => floats fun s d => s < d
  | .fTrunc => floats fun s d => s > d
  | .iToFS => source.isSigned && destination.isFloat
  | .iToFU => source.isUnsigned && destination.isFloat
  | .fToIS => source.isFloat && destination.isSigned
  | .fToIU => source.isFloat && destination.isUnsigned
  | .bitcast =>
      widths (source.integerWidth.or source.floatWidth)
          (destination.integerWidth.or destination.floatWidth) (fun s d => s = d) ||
        (source.isPointer && destination.isPointer)
  | .ptrToInt => source.isPointer && destination.isInteger
  | .intToPtr => source.isInteger && destination.isPointer

end Whale
