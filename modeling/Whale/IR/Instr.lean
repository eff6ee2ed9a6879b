import Whale.IR.Const

set_option autoImplicit false

/-! # Instructions and terminators

The three-address code of the IR, in static single assignment form: an instruction that
produces a value names it (`dst`), every other operand names a value produced elsewhere. -/

namespace Whale

/-! ## Constant expressions -/

/-- Resolved constant identity. Local identities belong to the containing function. -/
inductive ConstRef where
  | global (id : GlobalId)
  | local (id : ValueId)
  deriving DecidableEq

inductive ConstBinaryOp where
  | add | sub | mul | bitAnd | bitOr | bitXor | div | rem | shiftLeft | shiftRight
  | logicalAnd | logicalOr
  deriving DecidableEq

inductive ConstCompareOp where
  | eq | ne | lt | le | gt | ge
  deriving DecidableEq

mutual

/-- A typed compile-time expression, preserved independently of its evaluated result. -/
inductive ConstExpr where
  | mk (ty : Ty) (kind : ConstExprKind)
  deriving DecidableEq

inductive ConstExprKind where
  | not (value : ConstExpr)
  | neg (value : ConstExpr)
  | literal (value : ConstValue)
  | reference (reference : ConstRef)
  | binary (op : ConstBinaryOp) (left right : ConstExpr)
  | compare (op : ConstCompareOp) (left right : ConstExpr)
  deriving DecidableEq

end

namespace ConstExpr

def ty : ConstExpr → Ty
  | mk ty _ => ty

def kind : ConstExpr → ConstExprKind
  | mk _ kind => kind

end ConstExpr

/-! ## Operators -/

inductive ICmpPred where
  | eq | ne | ult | ule | ugt | uge | slt | sle | sgt | sge
  deriving DecidableEq

/-- Ordered predicates need ordered operands; unordered ones also accept a NaN. -/
inductive FCmpPred where
  | oeq | one | olt | ole | ogt | oge | ord | uno | ueq | une | ult | ule | ugt | uge
  deriving DecidableEq

inductive CastOp where
  /-- Preserve the mathematical integer value or trap. -/
  | checkedInt
  | zExt | sExt | trunc | fExt | fTrunc | iToFS | iToFU | fToIS | fToIU
  | bitcast | ptrToInt | intToPtr
  deriving DecidableEq

inductive BinOp where
  | add | sub | mul | uDiv | sDiv | uRem | sRem
  | fAdd | fSub | fMul | fDiv | fRem
  | and | or | xor | shl | lShr | aShr
  deriving DecidableEq

inductive CheckedOp where
  | uAdd | uSub | uMul | sAdd | sSub | sMul
  deriving DecidableEq

inductive CmpOp where
  | eq | ne
  | sLt | sLe | sGt | sGe
  | uLt | uLe | uGt | uGe
  | fEq | fNe | fLt | fLe | fGt | fGe
  deriving DecidableEq

/-- The generic scalar floating contract; integer and pointer operators have no floating
predicate. -/
def CmpOp.floatPredicate : CmpOp → Option FCmpPred
  | fEq => some .oeq
  | fNe => some .une
  | fLt => some .olt
  | fLe => some .ole
  | fGt => some .ogt
  | fGe => some .oge
  | _ => none

inductive Callee where
  | direct (function : FunctionId)
  | indirect (value : ValueId)
  deriving DecidableEq

/-! ## Instructions -/

inductive Instruction where
  | globalAddr (dst : ValueId) (global : GlobalId) (ty : Ty)
  | lifetimeEnd (ptr : ValueId)
  | ptrDiff (dst lhs rhs : ValueId)
  | constDecl (dst : ValueId) (name : String) (expression : ConstExpr) (value : ConstValue)
  | const (dst : ValueId) (ty : Ty) (value : ConstValue)
  | undef (dst : ValueId) (ty : Ty)
  | mov (dst : ValueId) (ty : Ty) (src : ValueId)
  | bin (dst : ValueId) (op : BinOp) (ty : Ty) (lhs rhs : ValueId)
  | neg (dst : ValueId) (ty : Ty) (src : ValueId)
  | not (dst : ValueId) (ty : Ty) (src : ValueId)
  | cmp (dst : ValueId) (op : CmpOp) (ty : Ty) (lhs rhs : ValueId)
  | iCmp (dst : ValueId) (pred : ICmpPred) (ty : Ty) (lhs rhs : ValueId)
  | fCmp (dst : ValueId) (pred : FCmpPred) (ty : Ty) (lhs rhs : ValueId)
  | select (dst : ValueId) (ty : Ty) (cond onTrue onFalse : ValueId)
  | cast (dst : ValueId) (op : CastOp) (dstTy srcTy : Ty) (src : ValueId)
  /-- One input for each distinct predecessor block. -/
  | phi (dst : ValueId) (ty : Ty) (incomings : List (ValueId × BlockId))
  | extract (dst : ValueId) (dstTy : Ty) (tuple : ValueId) (index : UInt32)
  | checked (dst : ValueId) (op : CheckedOp) (ty : Ty) (lhs rhs : ValueId)
  | alloca (dst : ValueId) (ty : Ty) (align : UInt32)
  | volatileLoad (dst : ValueId) (ty : Ty) (ptr : ValueId) (align : UInt32)
  | volatileStore (ty : Ty) (value ptr : ValueId) (align : UInt32)
  | load (dst : ValueId) (ty : Ty) (ptr : ValueId) (align : UInt32)
  | uninit (ty : Ty) (ptr : ValueId) (align : UInt32)
  | store (ty : Ty) (value ptr : ValueId) (align : UInt32)
  | gep (dst : ValueId) (dstTy : Ty) (basePtr : ValueId) (indices : List ValueId)
  | memcpy (dst src n : ValueId) (align : UInt32)
  | memset (dst val n : ValueId) (align : UInt32)
  | nullFunction (dst : ValueId) (signature : FunctionSignature)
  | functionAddr (dst : ValueId) (function : FunctionId) (signature : FunctionSignature)
  | call (convention : CallingConvention) (dst : Option ValueId) (retTy : Ty) (callee : Callee)
      (args : List ValueId)
  | trapIf (cond : ValueId) (reason : String)
  deriving DecidableEq

inductive Terminator where
  | br (target : BlockId)
  | cBr (cond : ValueId) (thenBb elseBb : BlockId)
  | switch (ty : Ty) (value : ValueId) (defaultBb : BlockId) (cases : List (ConstValue × BlockId))
  | ret (ty : Ty) (value : Option ValueId)
  | trap (reason : String)
  deriving DecidableEq

/-- The value an instruction produces. -/
def Instruction.destination : Instruction → Option ValueId
  | constDecl dst .. | const dst .. | undef dst .. | mov dst .. | bin dst .. | neg dst ..
  | not dst .. | cmp dst .. | iCmp dst .. | fCmp dst .. | select dst .. | cast dst ..
  | phi dst .. | extract dst .. | checked dst .. | alloca dst .. | volatileLoad dst ..
  | load dst .. | gep dst .. | nullFunction dst .. | functionAddr dst .. | globalAddr dst ..
  | ptrDiff dst .. => some dst
  | call _ dst .. => dst
  | lifetimeEnd _ | uninit .. | volatileStore .. | store .. | memcpy .. | memset ..
  | trapIf .. => none

/-! ## Literals -/

/-- Check a literal's category and range without rounding or wrapping its value. Floating
payload widths must match the declared type. -/
def validConstant (ty : Ty) (value : ConstValue) : Bool :=
  match ty, value with
  | .bool, .bool _ => true
  | .f16, .f (.f16 _) | .f32, .f (.f32 _) | .f64, .f (.f64 _) => true
  | .i128, .i _ | .u128, .u _ => true
  | .i1, .i v => decide (-2 ^ 0 ≤ v.toInt ∧ v.toInt < 2 ^ 0)
  | .i8, .i v => decide (-2 ^ 7 ≤ v.toInt ∧ v.toInt < 2 ^ 7)
  | .i16, .i v => decide (-2 ^ 15 ≤ v.toInt ∧ v.toInt < 2 ^ 15)
  | .i32, .i v => decide (-2 ^ 31 ≤ v.toInt ∧ v.toInt < 2 ^ 31)
  | .i64, .i v => decide (-2 ^ 63 ≤ v.toInt ∧ v.toInt < 2 ^ 63)
  | .u1, .u v => decide (v.toNat < 2 ^ 1)
  | .u8, .u v => decide (v.toNat < 2 ^ 8)
  | .u16, .u v => decide (v.toNat < 2 ^ 16)
  | .u32, .u v => decide (v.toNat < 2 ^ 32)
  | .u64, .u v => decide (v.toNat < 2 ^ 64)
  | _, _ => false

end Whale
