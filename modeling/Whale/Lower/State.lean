import Whale.Builder.Sources
import Whale.Lower.Support

set_option autoImplicit false

/-! # Lowering: constant expressions

A constant's initializer is kept as a typed expression and evaluated at once. Which original node
an evaluation error belongs to is not part of the model. -/

namespace Whale.Lower

open Frontend (BinOpRef CmpOpRef Expr)

structure ConstEvalCtx where
  localConsts : Option LocalEnv
  globalConsts : ConstMap

def ConstEvalCtx.binding (ctx : ConstEvalCtx) (name : String) : Option Binding :=
  ctx.localConsts.bind fun env => env.get name

/-- The value of a constant by its identity. -/
def ConstEvalCtx.resolve (ctx : ConstEvalCtx) : ConstExpr.Resolver
  | .global id =>
      (ctx.globalConsts.find? fun e => e.2.1 = id).map fun e => (e.2.2.1, e.2.2.2)
  | .local id =>
      ctx.localConsts.bind fun env => env.findSome? fun e =>
        match e.2 with
        | .const other ty value => if other = id then some (ty, value) else none
        | .addr .. => none

def constBinaryOp : BinOpRef → ConstBinaryOp
  | .add => .add
  | .sub => .sub
  | .mul => .mul
  | .bitAnd => .bitAnd
  | .bitOr => .bitOr
  | .bitXor => .bitXor
  | .div => .div
  | .rem => .rem
  | .shiftLeft => .shiftLeft
  | .shiftRight => .shiftRight
  | .logicalAnd => .logicalAnd
  | .logicalOr => .logicalOr

def constCompareOp : CmpOpRef → ConstCompareOp
  | .eq => .eq
  | .ne => .ne
  | .lt => .lt
  | .le => .le
  | .gt => .gt
  | .ge => .ge

/-- The operand types of a binary operation. -/
def checkBinary (op : BinOpRef) (left right : Ty) : Except LowerError Unit := do
  require (left = right) (LowerError.typeMismatch left right)
  match op with
  | .logicalAnd | .logicalOr => require (left = .bool) (LowerError.typeMismatch .bool left)
  | op => do
      let _ ← mapBinop op left
      return ()

def preserveVar (ctx : ConstEvalCtx) (name : String) : Except LowerError ConstExpr :=
  match ctx.binding name with
  | some (.const id ty _) => .ok (.mk ty (.reference (.local id)))
  | some (.addr ..) => .error .nonConstExpr
  | none => do
      let (id, ty, _) ← orThrow (ctx.globalConsts.get name) (LowerError.unknownVariable name)
      return .mk ty (.reference (.global id))

def preserveConstExpr (ctx : ConstEvalCtx) : Expr → Except LowerError ConstExpr
  | .located note expression => (preserveConstExpr ctx expression).mapError (·.at note)
  | .lit literal => do
      let (ty, value) ← litToConst literal
      return .mk ty (.literal value)
  | .var name => preserveVar ctx name
  | .neg value => do
      let value ← preserveConstExpr ctx value
      return .mk value.ty (.neg value)
  | .bitNot value => do
      let value ← preserveConstExpr ctx value
      require (isIntLike value.ty = true) LowerError.unsupportedExpr
      return .mk value.ty (.not value)
  | .binary left op right => do
      let left ← preserveConstExpr ctx left
      let right ← preserveConstExpr ctx right
      checkBinary op left.ty right.ty
      return .mk left.ty (.binary (constBinaryOp op) left right)
  | .cmp left op right => do
      let left ← preserveConstExpr ctx left
      let right ← preserveConstExpr ctx right
      require (left.ty = right.ty) (LowerError.typeMismatch left.ty right.ty)
      return .mk .bool (.compare (constCompareOp op) left right)
  | _ => .error .nonConstExpr

def evalConstExpr (expr : Expr) (ctx : ConstEvalCtx) :
    Except LowerError (ConstExpr × ConstValue) := do
  let expression ← preserveConstExpr ctx expr
  let value ← (expression.evaluateWithErrorSite ctx.resolve .default).mapError fun failed =>
    LowerError.constantEvaluation failed.1
  return (expression, value)

end Whale.Lower

/-! # Lowering: the state and the storage of values

Lowering drives a function builder. Aggregate values are addresses, scalar values stay values;
reading and writing storage goes by this rule. -/

namespace Whale.Lower

open Frontend (AstLimitError Expr StructField TypeRef)

/-! ## The state -/

/-- How lowering ends: with an error, or with the panic of a builder operation. -/
inductive LowerFailure where
  | error (e : LowerError)
  | panic
  deriving DecidableEq

/-- A function under construction, and the budget for storage types that all functions share. -/
structure LowerState where
  builder : SourceBuilder
  storage : Budget
  deriving DecidableEq

abbrev LowerM := EStateM LowerFailure LowerState

variable {α : Type}

def fail (e : LowerError) : LowerM α := throw (.error e)

def ofExcept (x : Except LowerError α) : LowerM α := orRaise x LowerFailure.error

def ofLayout (x : Except LayoutError α) : LowerM α := ofExcept (x.mapError LowerError.layout)

/-- The failure of a builder operation in a lowering. -/
def ofFailure : BuildFailure → LowerFailure
  | .builder e => .error (.call (.builder e))
  | .call e => .error (.call e)
  | .globalStorage _ | .panic => .panic

/-- Run an operation on the function under construction, within the counters. -/
def build (op : BuildM α) : LowerM α := fun s =>
  match op s.builder.fb with
  | .ok a fb =>
      if fb.Counts then .ok a { s with builder := { s.builder with fb := fb } }
      else .error .panic { s with builder := { s.builder with fb := fb } }
  | .error e fb => .error (ofFailure e) { s with builder := { s.builder with fb := fb } }

/-- Change the source mappings. -/
def mapping (x : SourceBuilder → Except AstLimitError (α × SourceBuilder)) : LowerM α := do
  let s ← get
  let (a, builder) ← ofExcept ((x s.builder).mapError LowerError.resourceLimit)
  set { s with builder := builder }
  return a

/-- Count a type `n` times. -/
def chargeTimes (ty : Ty) : Nat → Budget → Except LimitError Budget
  | 0, b => .ok b
  | n + 1, b => do
      let b ← b.ty ty
      chargeTimes ty n b

/-- Bound repeated cloning of aggregate types and the storage annotations that are emitted. -/
def chargeLowerType (ty : Ty) : LowerM Unit := do
  let s ← get
  let storage ← ofExcept ((chargeTimes ty 16 s.storage).mapError fun _ =>
    LowerError.resourceLimit .expansion)
  set { s with storage := storage }

/-! ## Source locations -/

/-- Errors of `x` are located at the node. -/
def locate (note : SourceAnnotation) (x : LowerM α) : LowerM α := fun s =>
  match x s with
  | .error (.error e) s => .error (.error (e.at note)) s
  | result => result

def sourceCheckpoint : LowerM SourceCheckpoint := mapping SourceBuilder.sourceCheckpoint

def annotateSource (note : SourceAnnotation) (before : SourceCheckpoint) : LowerM Unit :=
  mapping fun s => do
    let s ← s.annotateSource note before
    return ((), s)

def finishSourceMapping : LowerM Unit :=
  mapping fun s => do
    let s ← s.finishSourceMapping
    return ((), s)

/-- Lower a wrapped node: what it emits is annotated. -/
def located (note : SourceAnnotation) (x : LowerM α) : LowerM α := do
  let checkpoint ← sourceCheckpoint
  let result ← locate note x
  annotateSource note checkpoint
  return result

/-- Keep the originals of a constant expression, whose nodes are no instructions. -/
def retainConstSources : Expr → SourceModule → Except AstLimitError SourceModule
  | .located note expression, s => do
      let s ← s.chargeSourceWork 1
      let s ← s.retainSource note
      retainConstSources expression s
  | .binary left _ right, s | .cmp left _ right, s => do
      let s ← s.chargeSourceWork 1
      let s ← retainConstSources left s
      retainConstSources right s
  | .neg value, s | .bitNot value, s | .cast value _ _, s => do
      let s ← s.chargeSourceWork 1
      retainConstSources value s
  | _, s => s.chargeSourceWork 1

def retainSources (expr : Expr) : LowerM Unit :=
  mapping fun s => do
    let m ← retainConstSources expr s.module
    return ((), s.withModule m)

/-! ## Storage -/

def read (ptr : ValueId) (ty : Ty) : LowerM (ValueId × Ty) := do
  if aggregate ty then return (ptr, ty)
  else do
    let align ← ofLayout (allocationAlign ty)
    let value ← build (load ty ptr (UInt32.ofNat align))
    return (value, ty)

def write (ptr value : ValueId) (ty : Ty) : LowerM Unit := do
  chargeLowerType ty
  let layout ← ofLayout (layoutOf ty)
  if aggregate ty then do
    let dst ← build (cast' .bitcast (.ptr ty) (.ptr .u8) ptr)
    let src ← build (cast' .bitcast (.ptr ty) (.ptr .u8) value)
    let size ← build (constUint .u64 (BitVec.ofNat 128 layout.size))
    build (memcpy dst src size (UInt32.ofNat layout.align))
  else build (store ty value ptr (UInt32.ofNat layout.align))

def fieldPtr (base : ValueId) (index : Nat) (ty : Ty) : LowerM ValueId := do
  let zero ← build (constUint .u64 0)
  let index ← build (constUint .u64 (BitVec.ofNat 128 index))
  build (gep base [zero, index] (.ptr ty))

/-- The allocation is hoisted; initialization is repeated at the expression site. -/
def literalStorage (sourceTy : TypeRef) : LowerM (ValueId × Ty) := do
  let ty ← ofExcept (socketTypeToWhale sourceTy)
  chargeLowerType ty
  let layout ← ofLayout (layoutOf ty)
  let ptr ← build (allocaInEntry ty (UInt32.ofNat layout.align))
  build (uninit ty ptr (UInt32.ofNat layout.align))
  return (ptr, ty)

def chargeEnv (env : LocalEnv) : LowerM Unit := env.forM fun e => chargeLowerType e.2.ty

/-! ## Places

Each of these gets the lowering of the parts of a place. -/

def varPlace (env : LocalEnv) (name : String) : LowerM (ValueId × Ty) :=
  match env.get name with
  | some (.addr ptr ty) => do
      chargeLowerType ty
      return (ptr, ty)
  | some (.const ..) => fail (.assignToConst name)
  | none => fail (.unknownVariable name)

def derefPlace (value : LowerM (ValueId × Ty)) : LowerM (ValueId × Ty) := do
  let (ptr, ty) ← value
  match ty with
  | .ptr ty => do
      require (ty ≠ .void) (LowerFailure.error .unsupportedExpr)
      return (ptr, ty)
  | _ => fail .unsupportedExpr

def fieldPlace (base : LowerM (ValueId × Ty)) (layout : TypeRef) (name : String) :
    LowerM (ValueId × Ty) := do
  let expected ← ofExcept (socketTypeToWhale layout)
  match layout, expected with
  | .struct fields, .struct types => do
      let ordinal ← orThrow (fields.findIdx? fun f => f.name = name)
        (LowerFailure.error (.aggregate (.unknownField name)))
      let ty ← orThrow types[ordinal]? LowerFailure.panic
      let (ptr, actual) ← base
      require (actual = expected) (LowerFailure.error (.typeMismatch expected actual))
      let dst ← fieldPtr ptr ordinal ty
      return (dst, ty)
  | _, _ => fail .unsupportedExpr

/-- The text of the trap. -/
def outOfBounds : String := "array index out of bounds"

/-- Compare an index of any integer type with the length, and step to the element. -/
def checkedElement (ptr : ValueId) (element : Ty) (len : UInt64) (index : ValueId) (ity : Ty)
    (signed : Bool) : BuildM ValueId := do
  if signed then do
    let zero ← constInt ity 0
    let negative ← icmp .slt ity index zero
    trapIf negative outOfBounds
  let index ← cast' .checkedInt ity .u128 index
  let limit ← constUint .u128 (BitVec.ofNat 128 len.toNat)
  let bad ← icmp .uge .u128 index limit
  trapIf bad outOfBounds
  let zero ← constUint .u64 0
  gep ptr [zero, index] (.ptr element)

def indexPlace (base index : LowerM (ValueId × Ty)) : LowerM (ValueId × Ty) := do
  let (ptr, ty) ← base
  match ty with
  | .array element len => do
      let (index, ity) ← index
      let (_, signed) ← orThrow (Integer.shape ity) (LowerFailure.error .unsupportedExpr)
      let dst ← build (checkedElement ptr element len index ity signed)
      return (dst, element)
  | _ => fail .unsupportedExpr

end Whale.Lower
