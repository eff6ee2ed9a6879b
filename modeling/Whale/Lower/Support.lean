import Whale.Builder.Ops
import Whale.Frontend.Limits
import Whale.Interp.Integer
import Whale.IR.ConstEval

set_option autoImplicit false

/-! # Lowering: types, literals and operators

What lowering knows of the frontend's types, literals and operators before it emits anything. -/

namespace Whale.Lower

open Frontend (AstLimitError BinOpRef CmpOpRef Lit SignatureRef StructField TypeRef)

/-! ## Errors -/

inductive TargetNameError where
  | unsupportedTarget (name : String)
  | layoutMismatch (actual : DataLayout)
  deriving DecidableEq

/-- What lowering does not support of aggregates. -/
inductive AggregateError where
  | byValueSignature
  | structField
  | nonScalarField
  | unknownField (name : String)
  | fieldCount
  | duplicateInitializer
  | unknownInitializer (name : String)
  | nonScalarElements
  | arrayLength
  deriving DecidableEq

inductive LowerError where
  | located (note : SourceAnnotation) (error : LowerError)
  | resourceLimit (e : AstLimitError)
  | call (e : CallError)
  | voidCallUsedAsValue
  | numericLiteral (text : String)
  | constantEvaluation (e : ConstEvalError)
  | target (e : TargetNameError)
  | layout (e : LayoutError)
  | unsupportedType (text : String)
  | unknownVariable (name : String)
  | typeMismatch (expected got : Ty)
  | aggregate (e : AggregateError)
  | unsupportedStmt
  | unsupportedExpr
  | breakOutsideLoop
  | continueOutsideLoop
  | duplicateGlobal (name : String)
  | duplicateFunction (name : String)
  | duplicateParameter (func param : String)
  | valueReturnedFromVoid
  | invalidLiteral (ty : Ty) (value : ConstValue)
  | assignToConst (name : String)
  | nonConstExpr
  deriving DecidableEq

/-- The innermost location stays. -/
def LowerError.at (e : LowerError) (note : SourceAnnotation) : LowerError :=
  match e with
  | .located .. => e
  | e => .located note e

/-- Where a variable or a constant is. -/
inductive Binding where
  | addr (ptr : ValueId) (ty : Ty)
  | const (id : ValueId) (ty : Ty) (value : ConstValue)
  deriving DecidableEq

def Binding.ty : Binding → Ty
  | .addr _ ty | .const _ ty _ => ty

abbrev LocalEnv := AssocMap String Binding

abbrev ConstMap := AssocMap String (GlobalId × Ty × ConstValue)

/-! ## Types -/

def intType (bits : UInt16) (signed : Bool) : Except LowerError Ty :=
  match bits.toNat, signed with
  | 1, true => .ok .i1
  | 1, false => .ok .u1
  | 8, true => .ok .i8
  | 16, true => .ok .i16
  | 32, true => .ok .i32
  | 64, true => .ok .i64
  | 128, true => .ok .i128
  | 8, false => .ok .u8
  | 16, false => .ok .u16
  | 32, false => .ok .u32
  | 64, false => .ok .u64
  | 128, false => .ok .u128
  | bits, signed => .error (.unsupportedType
      ("int bits=" ++ toString bits ++ " signed=" ++ toString signed))

def floatType (bits : UInt16) : Except LowerError Ty :=
  match bits.toNat with
  | 16 => .ok .f16
  | 32 => .ok .f32
  | 64 => .ok .f64
  | bits => .error (.unsupportedType ("float bits=" ++ toString bits))

def isSigned : Ty → Bool
  | .i1 | .i8 | .i16 | .i32 | .i64 | .i128 => true
  | _ => false

def isFloat : Ty → Bool
  | .f16 | .f32 | .f64 => true
  | _ => false

def isIntLike : Ty → Bool
  | .i1 | .u1 | .i8 | .i16 | .i32 | .i64 | .i128 | .u8 | .u16 | .u32 | .u64 | .u128 => true
  | _ => false

def scalarStorage (ty : Ty) : Bool :=
  isIntLike ty ||
    match ty with
    | .bool | .f16 | .f32 | .f64 | .ptr _ | .fnPtr _ => true
    | _ => false

mutual

def socketTypeToWhale : TypeRef → Except LowerError Ty
  | .void => .ok .void
  | .bool => .ok .bool
  | .int bits signed => intType bits signed
  | .float bits => floatType bits
  | .fnPtr sig => do
      let signature ← signatureToWhale sig
      return .fnPtr signature
  | .ptr inner => do
      let inner ← socketTypeToWhale inner
      return .ptr inner
  | .array elem len => do
      let elem ← socketTypeToWhale elem
      return .array elem len
  | .struct fields => do
      let types ← fieldTypes [] fields
      return .struct types
  | .opaqueType name => .error (.unsupportedType ("opaque " ++ name))

/-- The types of the fields, with the names before them. -/
def fieldTypes (names : List String) : List StructField → Except LowerError (List Ty)
  | [] => .ok []
  | field :: fields => do
      let (name, ty) ← fieldType names field
      let types ← fieldTypes (name :: names) fields
      return ty :: types

def fieldType (names : List String) : StructField → Except LowerError (String × Ty)
  | .mk name ty => do
      require (¬ (name.isEmpty = true ∨ name ∈ names)) (LowerError.aggregate .structField)
      let ty ← socketTypeToWhale ty
      require (scalarStorage ty = true) (LowerError.aggregate .nonScalarField)
      return (name, ty)

def typesToWhale : List TypeRef → Except LowerError (List Ty)
  | [] => .ok []
  | ty :: tys => do
      let ty ← socketTypeToWhale ty
      let tys ← typesToWhale tys
      return ty :: tys

def signatureToWhale : SignatureRef → Except LowerError FunctionSignature
  | .mk params ret convention isVariadic => do
      let params ← typesToWhale params
      let ret ← socketTypeToWhale ret
      let sig : FunctionSignature := .mk params ret convention isVariadic
      (validateSignature sig).mapError LowerError.call
      return sig

end

/-- Arrays and structs are addresses in lowered code. -/
def aggregate : Ty → Bool
  | .array .. | .struct _ => true
  | _ => false

/-- Array parameters remain representable for layout-only clients. -/
def scalarSignature (sig : FunctionSignature) : Except LowerError Unit :=
  require (¬ (sig.params.any (fun | .struct _ | .tuple _ => true | _ => false) = true ∨
      aggregate sig.ret = true))
    (LowerError.aggregate .byValueSignature)

/-! ## Operators -/

def mapBinop (op : BinOpRef) (ty : Ty) : Except LowerError BinOp :=
  if isFloat ty then
    match op with
    | .add => .ok .fAdd
    | .sub => .ok .fSub
    | .mul => .ok .fMul
    | .div => .ok .fDiv
    | .rem => .ok .fRem
    | _ => .error .unsupportedExpr
  else if isIntLike ty then
    match op with
    | .add => .ok .add
    | .sub => .ok .sub
    | .mul => .ok .mul
    | .bitAnd => .ok .and
    | .bitOr => .ok .or
    | .bitXor => .ok .xor
    | .div => .ok (if isSigned ty then .sDiv else .uDiv)
    | .rem => .ok (if isSigned ty then .sRem else .uRem)
    | .shiftLeft => .ok .shl
    | .shiftRight => .ok (if isSigned ty then .aShr else .lShr)
    | .logicalAnd | .logicalOr => .error .unsupportedExpr
  else .error .unsupportedExpr

def mapCmp (op : CmpOpRef) (ty : Ty) : Except LowerError CmpOp :=
  if isFloat ty then
    match op with
    | .eq => .ok .fEq
    | .ne => .ok .fNe
    | .lt => .ok .fLt
    | .le => .ok .fLe
    | .gt => .ok .fGt
    | .ge => .ok .fGe
  else if ty = .bool then
    match op with
    | .eq => .ok .eq
    | .ne => .ok .ne
    | _ => .error .unsupportedExpr
  else if isIntLike ty then
    match op, isSigned ty with
    | .eq, _ => .ok .eq
    | .ne, _ => .ok .ne
    | .lt, true => .ok .sLt
    | .le, true => .ok .sLe
    | .gt, true => .ok .sGt
    | .ge, true => .ok .sGe
    | .lt, false => .ok .uLt
    | .le, false => .ok .uLe
    | .gt, false => .ok .uGt
    | .ge, false => .ok .uGe
  else .error .unsupportedExpr

/-! ## Literals -/

def isHexDigit (c : Char) : Bool :=
  c.isDigit || ('a' ≤ c && c ≤ 'f') || ('A' ≤ c && c ≤ 'F')

def hexDigit (c : Char) : Nat :=
  if c.isDigit then c.toNat - 48 else if 'a' ≤ c then c.toNat - 87 else c.toNat - 55

/-- Exact-width hexadecimal storage, not a decimal floating-point number. -/
def parseFloatBits (width : UInt16) (text : String) : Except String FloatBits := do
  let digits ← match width.toNat with
    | 16 => .ok 4
    | 32 => .ok 8
    | 64 => .ok 16
    | _ => .error "float width must be 16, 32 or 64"
  match text.toList with
  | '0' :: 'x' :: hex =>
      require (hex.length = digits ∧ hex.all isHexDigit = true)
        ("f" ++ toString width.toNat ++ " requires exactly " ++ toString digits ++
          " hexadecimal digits")
      let bits := hex.foldl (fun bits c => bits * 16 + hexDigit c) 0
      return match width.toNat with
        | 16 => .f16 (UInt16.ofNat bits)
        | 32 => .f32 (UInt32.ofNat bits)
        | _ => .f64 (UInt64.ofNat bits)
  | _ => .error "float value must start with 0x"

/-- A signed decimal integer. -/
def parseInteger (text : String) : Int :=
  let magnitude (digits : List Char) : Nat :=
    digits.foldl (fun n c => n * 10 + (c.toNat - 48)) 0
  match text.toList with
  | '-' :: digits => -(magnitude digits : Int)
  | digits => magnitude digits

def intLiteral (signed : Bool) (text : String) : Except LowerError ConstValue := do
  let digits := match text.toList with
    | '-' :: digits => digits
    | digits => digits
  require (digits ≠ [] ∧ digits.all Char.isDigit = true ∧
      ¬ (signed = false ∧ text.toList.head? = some '-'))
    (LowerError.numericLiteral "expected decimal digits with an optional signed minus")
  let value := parseInteger text
  if signed then do
    require (-2 ^ 127 ≤ value ∧ value < 2 ^ 127)
      (LowerError.numericLiteral "integer exceeds i128 range")
    return .i (BitVec.ofInt 128 value)
  else do
    require (value < 2 ^ 128) (LowerError.numericLiteral "integer exceeds u128 range")
    return .u (BitVec.ofInt 128 value)

def litToConst : Lit → Except LowerError (Ty × ConstValue)
  | .bool b => .ok (.bool, .bool b)
  | .int bits signed text => do
      let ty ← intType bits signed
      let payload ← intLiteral signed text
      require (validConstant ty payload = true) (LowerError.invalidLiteral ty payload)
      return (ty, payload)
  | .float bits text => do
      let ty ← floatType bits
      let value ← (parseFloatBits bits text).mapError LowerError.numericLiteral
      return (ty, .f value)

end Whale.Lower
