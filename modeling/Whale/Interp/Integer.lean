import Whale.IR.Instr
import Whale.Memory.Basic

set_option autoImplicit false

/-! # Integer operations of the interpreter

The reasons an instruction traps, and the operations on integer constants. A constant is
reduced to its low bits, the `u128` of the source as a natural number, and packed again. -/

namespace Whale

inductive TrapReason where
  | divisionByZero
  | remainderByZero
  | invalidConversion
  | explicit (reason : String)
  | memory (trap : MemoryTrap)
  | nullFunction
  | invalidFunctionPointer
  | functionSignatureMismatch
  deriving DecidableEq

/-- Why one instruction has no result. `panic` stands for `unreachable!`, `expect`, `unwrap`
and missing keys, which no verified program reaches. -/
inductive InstructionFault where
  | trap (reason : TrapReason)
  | memoryLimit (resource : MemoryResource) (limit : Nat)
  | panic
  deriving DecidableEq

/-- A fault of the memory is a fault of the instruction. -/
def Fault.toInstructionFault : Fault → InstructionFault
  | .trap t => .trap (.memory t)
  | .limit resource n => .memoryLimit resource n
  | .panic => .panic

namespace Integer

/-- The value of the low `bits` bits of an operand that must not be a float. -/
def operand (value : ConstValue) (bits : Nat) : Except InstructionFault Nat :=
  orThrow (raw value bits) InstructionFault.panic

/-- The constant of an integer type that must have a shape. -/
def result (ty : Ty) (value : Nat) : Except InstructionFault ConstValue :=
  orThrow (pack ty value) InstructionFault.panic

/-- The operation of `bin` on bit patterns. -/
def binBits (op : BinOp) (bits a b : Nat) : Except InstructionFault Nat :=
  -- Reduce the complete unsigned bit pattern before narrowing to a shift count.
  let count := b % bits
  match op with
  | .add => .ok ((a + b) % 2 ^ 128)
  | .sub => .ok ((a + 2 ^ 128 - b) % 2 ^ 128)
  | .mul => .ok (a * b % 2 ^ 128)
  | .uDiv => if b = 0 then .error (.trap .divisionByZero) else .ok (a / b)
  | .sDiv =>
      if b = 0 then .error (.trap .divisionByZero)
      else .ok ((signed a bits).sdiv (signed b bits)).toNat
  | .uRem => if b = 0 then .error (.trap .remainderByZero) else .ok (a % b)
  | .sRem =>
      if b = 0 then .error (.trap .remainderByZero)
      else .ok ((signed a bits).srem (signed b bits)).toNat
  | .and => .ok (a &&& b)
  | .or => .ok (a ||| b)
  | .xor => .ok (a ^^^ b)
  | .shl => .ok ((a <<< count) % 2 ^ 128)
  | .lShr => .ok (a >>> count)
  | .aShr => .ok ((signed a bits).sshiftRight count).toNat
  | .fAdd | .fSub | .fMul | .fDiv | .fRem => .error InstructionFault.panic

def bin (op : BinOp) (ty : Ty) (lhs rhs : ConstValue) : Except InstructionFault ConstValue := do
  let (bits, _) ← orThrow (shape ty) InstructionFault.panic
  let a ← operand lhs bits
  let b ← operand rhs bits
  let value ← binBits op bits a b
  result ty value

/-- Two's-complement negation of a constant of type `ty`. -/
def negate (ty : Ty) (value : ConstValue) : Except InstructionFault ConstValue := do
  let (bits, _) ← orThrow (shape ty) InstructionFault.panic
  let a ← operand value bits
  result ty ((2 ^ 128 - a) % 2 ^ 128)

/-- `!value` of a constant of type `ty`. -/
def complement (ty : Ty) (value : ConstValue) : Except InstructionFault ConstValue := do
  let (bits, _) ← orThrow (shape ty) InstructionFault.panic
  let a ← operand value bits
  result ty (2 ^ 128 - 1 - a)

/-- `u128::MAX`, or the mask of fewer bits. -/
def mask (bits : Nat) : Nat := 2 ^ bits - 1

/-- The overflow of a signed operation with the exact result `v`: it does not fit an `i128`,
or it does not fit `bits` bits. -/
def signedOverflow (bits : Nat) (v : Int) : Bool :=
  decide (v < -2 ^ 127 ∨ 2 ^ 127 ≤ v) ||
    (decide (bits < 128) && decide (v < -2 ^ (bits - 1) ∨ v ≥ 2 ^ (bits - 1)))

/-- The wrapped result and the range overflow of a checked operation. -/
def checkedBits (op : CheckedOp) (bits a b : Nat) : Nat × Bool :=
  let sa := (signed a bits).toInt
  let sb := (signed b bits).toInt
  match op with
  | .uAdd =>
      let sum := (a + b) % 2 ^ 128
      let carry := decide (2 ^ 128 ≤ a + b)
      (sum, carry || decide (sum > mask bits))
  | .uSub => ((a + 2 ^ 128 - b) % 2 ^ 128, decide (a < b))
  | .uMul =>
      (a * b % 2 ^ 128, decide (2 ^ 128 ≤ a * b) || decide (a * b > mask bits))
  | .sAdd => ((a + b) % 2 ^ 128, signedOverflow bits (sa + sb))
  | .sSub => ((a + 2 ^ 128 - b) % 2 ^ 128, signedOverflow bits (sa - sb))
  | .sMul => (a * b % 2 ^ 128, signedOverflow bits (sa * sb))

def checked (op : CheckedOp) (ty : Ty) (lhs rhs : ConstValue) :
    Except InstructionFault (ConstValue × Bool) := do
  let (bits, _) ← orThrow (shape ty) InstructionFault.panic
  let a ← operand lhs bits
  let b ← operand rhs bits
  let v ← result ty (checkedBits op bits a b).1
  return (v, (checkedBits op bits a b).2)

/-- The width of a cast's or comparison's operand; a boolean has one bit. -/
def operandBits (ty : Ty) : Nat :=
  match shape ty with
  | some (bits, _) => bits
  | none => 1

def cast (op : CastOp) (srcTy dstTy : Ty) (value : ConstValue) :
    Except InstructionFault ConstValue := do
  let bits := operandBits srcTy
  let value ← operand value bits
  result dstTy (if op = .sExt then (signed value bits).toNat else value)

def compareBits (pred : ICmpPred) (bits a b : Nat) : Bool :=
  let sa := (signed a bits).toInt
  let sb := (signed b bits).toInt
  match pred with
  | .eq => a = b
  | .ne => a ≠ b
  | .ult => a < b
  | .ule => a ≤ b
  | .ugt => a > b
  | .uge => a ≥ b
  | .slt => sa < sb
  | .sle => sa ≤ sb
  | .sgt => sa > sb
  | .sge => sa ≥ sb

def compare (pred : ICmpPred) (ty : Ty) (lhs rhs : ConstValue) : Except InstructionFault Bool := do
  let bits := operandBits ty
  let a ← operand lhs bits
  let b ← operand rhs bits
  return compareBits pred bits a b

/-- Range checks use sign and magnitude. -/
def checkedCast (src dst : Ty) (value : ConstValue) : Except InstructionFault ConstValue := do
  let (sb, ss) ← orThrow (shape src) InstructionFault.panic
  let (db, ds) ← orThrow (shape dst) InstructionFault.panic
  let raw ← operand value sb
  let negative := ss && decide ((signed raw sb).toInt < 0)
  let magnitude := if negative then (signed raw sb).toInt.natAbs else raw
  let maximum := if ds then 2 ^ (db - 1) - (!negative).toNat else mask db
  if (negative && !ds) || decide (magnitude > maximum) then
    .error (.trap .invalidConversion)
  else
    result dst (if negative then (2 ^ 128 - magnitude) % 2 ^ 128 else magnitude)

end Integer

/-- The integer predicate of a generic comparison. -/
def cmpPred : CmpOp → Option ICmpPred
  | .eq => some .eq
  | .ne => some .ne
  | .sLt => some .slt
  | .sLe => some .sle
  | .sGt => some .sgt
  | .sGe => some .sge
  | .uLt => some .ult
  | .uLe => some .ule
  | .uGt => some .ugt
  | .uGe => some .uge
  | .fEq | .fNe | .fLt | .fLe | .fGt | .fGe => none

end Whale
