import Whale.Float.Arithmetic
import Whale.IR.Budget

set_option autoImplicit false

/-! # Constant expressions

The references of a typed compile-time expression, its evaluation and the errors of that. -/

namespace Whale

inductive ConstEvalError where
  | resourceLimit (e : LimitError)
  | invalidLiteral
  | typeMismatch
  | unsupportedOperation
  | divisionByZero
  | remainderByZero
  | unknownReference (reference : ConstRef)
  | duplicateDefinition (reference : ConstRef)
  | cyclicReference
  | resultMismatch
  deriving DecidableEq

mutual

/-- The references of an expression, from left to right. -/
def ConstExpr.references : ConstExpr → List ConstRef
  | .mk _ kind => kind.references

def ConstExprKind.references : ConstExprKind → List ConstRef
  | .literal _ => []
  | .neg value | .not value => value.references
  | .reference reference => [reference]
  | .binary _ left right | .compare _ left right => left.references ++ right.references

end

/-! ## Evaluation of constant expressions

Every node is validated first, also where evaluation would skip it; then the value is
computed from left to right, with lazy boolean operators. The source keeps explicit stacks of
what is pending, which visit the nodes in the order of the recursion here. An error comes
with the node it is about. -/

def Ty.intBits : Ty → Option Nat
  | .i1 | .u1 => some 1
  | .i8 | .u8 => some 8
  | .i16 | .u16 => some 16
  | .i32 | .u32 => some 32
  | .i64 | .u64 => some 64
  | .i128 | .u128 => some 128
  | _ => none

def Ty.isSignedInt (ty : Ty) : Bool :=
  ty = .i1 || ty = .i8 || ty = .i16 || ty = .i32 || ty = .i64 || ty = .i128

/-- Compare the stored payload, including signed zero and NaN bits. -/
def sameValue (left right : ConstValue) : Bool :=
  match left, right with
  | .f a, .f b => a = b
  | left, right => left = right

namespace ConstExpr

/-! ## Scalar rules -/

def wrapU (v : BitVec 128) (ty : Ty) : BitVec 128 :=
  let bits := ty.intBits.getD 128
  if bits ≥ 128 then v
  else v &&& BitVec.ofNat 128 (2 ^ bits - 1)

def wrapI (v : BitVec 128) (ty : Ty) : BitVec 128 :=
  let bits := ty.intBits.getD 128
  if bits ≥ 128 then v
  else
    let mask := BitVec.ofNat 128 (2 ^ bits - 1)
    let u := v &&& mask
    let sign := BitVec.ofNat 128 (2 ^ (bits - 1))
    -- Sign-extend.
    if u &&& sign ≠ 0 then u ||| ~~~mask else u

/-- The count of a shift; the type of a validated shift has a width. -/
def shiftCount (ty : Ty) (raw : BitVec 128) : Nat := (wrapU raw ty).toNat % ty.intBits.getD 128

def constNot (ty : Ty) (value : ConstValue) : Except ConstEvalError ConstValue :=
  match value with
  | .i v =>
      if ty.isSignedInt then .ok (.i (wrapI (~~~v) ty)) else .error .unsupportedOperation
  | .u v =>
      if ty.intBits.isSome then .ok (.u (wrapU (~~~v) ty)) else .error .unsupportedOperation
  | _ => .error .unsupportedOperation

/-- The floating operator of a constant operator. -/
def floatOp : ConstBinaryOp → Option BinOp
  | .add => some .fAdd
  | .sub => some .fSub
  | .mul => some .fMul
  | .div => some .fDiv
  | .rem => some .fRem
  | _ => none

def constBin (op : ConstBinaryOp) (ty : Ty) (l r : ConstValue) :
    Except ConstEvalError ConstValue :=
  if ty = .f16 ∨ ty = .f32 ∨ ty = .f64 then
    match l, r with
    | .f a, .f b => do
        let op ← orThrow (floatOp op) ConstEvalError.unsupportedOperation
        -- Valid operands of one type have one width.
        let value ← orThrow (FloatBits.arithmetic op a b) ConstEvalError.unsupportedOperation
        return .f value
    | _, _ => .error .unsupportedOperation
  else if ty.intBits.isSome then
    if ty.isSignedInt then
      match l, r with
      | .i a, .i b => do
          let raw ← match op with
            | .add => pure (a + b)
            | .sub => pure (a - b)
            | .mul => pure (a * b)
            | .bitAnd => pure (a &&& b)
            | .bitOr => pure (a ||| b)
            | .bitXor => pure (a ^^^ b)
            | .div => if b = 0 then throw .divisionByZero else pure (a.sdiv b)
            | .rem => if b = 0 then throw .remainderByZero else pure (a.srem b)
            | .shiftLeft => pure (a <<< shiftCount ty b)
            | .shiftRight => pure (a.sshiftRight (shiftCount ty b))
            | .logicalAnd | .logicalOr => throw ConstEvalError.unsupportedOperation
          return .i (wrapI raw ty)
      | _, _ => .error .unsupportedOperation
    else
      match l, r with
      | .u a, .u b => do
          let raw ← match op with
            | .add => pure (a + b)
            | .sub => pure (a - b)
            | .mul => pure (a * b)
            | .bitAnd => pure (a &&& b)
            | .bitOr => pure (a ||| b)
            | .bitXor => pure (a ^^^ b)
            | .div => if b = 0 then throw .divisionByZero else pure (a / b)
            | .rem => if b = 0 then throw .remainderByZero else pure (a % b)
            | .shiftLeft => pure (a <<< shiftCount ty b)
            | .shiftRight => pure (a >>> shiftCount ty b)
            | .logicalAnd | .logicalOr => throw ConstEvalError.unsupportedOperation
          return .u (wrapU raw ty)
      | _, _ => .error .unsupportedOperation
  else .error .unsupportedOperation

/-- The floating comparison of a constant comparison. -/
def floatCmp : ConstCompareOp → CmpOp
  | .eq => .fEq
  | .ne => .fNe
  | .lt => .fLt
  | .le => .fLe
  | .gt => .fGt
  | .ge => .fGe

def constCmp (op : ConstCompareOp) (ty : Ty) (l r : ConstValue) : Except ConstEvalError Bool :=
  if ty = .f16 ∨ ty = .f32 ∨ ty = .f64 then
    match l, r with
    | .f a, .f b => do
        let predicate ← orThrow (floatCmp op).floatPredicate ConstEvalError.unsupportedOperation
        orThrow (a.compare b predicate) ConstEvalError.typeMismatch
    | _, _ => .error .unsupportedOperation
  else if ty = .bool then
    match l, r with
    | .bool a, .bool b =>
        match op with
        | .eq => .ok (a = b)
        | .ne => .ok (a ≠ b)
        | _ => .error .unsupportedOperation
    | _, _ => .error .unsupportedOperation
  else if ty.intBits.isSome then
    if ty.isSignedInt then
      match l, r with
      | .i a, .i b => .ok (match op with
          | .eq => a = b
          | .ne => a ≠ b
          | .lt => a.toInt < b.toInt
          | .le => a.toInt ≤ b.toInt
          | .gt => a.toInt > b.toInt
          | .ge => a.toInt ≥ b.toInt)
      | _, _ => .error .unsupportedOperation
    else
      match l, r with
      | .u a, .u b => .ok (match op with
          | .eq => a = b
          | .ne => a ≠ b
          | .lt => a.toNat < b.toNat
          | .le => a.toNat ≤ b.toNat
          | .gt => a.toNat > b.toNat
          | .ge => a.toNat ≥ b.toNat)
      | _, _ => .error .unsupportedOperation
  else .error .unsupportedOperation

/-! ## Validation -/

/-- What a reference stands for. -/
abbrev Resolver := ConstRef → Option (Ty × ConstValue)

/-- An error and the node it is about. -/
abbrev SiteError := ConstEvalError × ConstExpr

def logical (op : ConstBinaryOp) : Bool := op = .logicalAnd || op = .logicalOr

/-- The binary operators of a type. -/
def supportedBinary (op : ConstBinaryOp) (ty : Ty) : Bool :=
  if logical op then ty = .bool
  else if ty = .f16 ∨ ty = .f32 ∨ ty = .f64 then
    op = .add || op = .sub || op = .mul || op = .div || op = .rem
  else ty.intBits.isSome

/-- The comparisons of a type. -/
def supportedCompare (op : ConstCompareOp) (ty : Ty) : Bool :=
  if ty = .bool then op = .eq || op = .ne
  else ty.intBits.isSome || ty = .f16 || ty = .f32 || ty = .f64

mutual

/-- Validate the nodes of an expression, outer nodes first and then from left to right. -/
def inspect (resolve : Resolver) (b : Budget) : ConstExpr → Except SiteError Budget
  | .mk ty kind => inspectKind resolve b ty kind

def inspectKind (resolve : Resolver) (b : Budget) (ty : Ty) :
    ConstExprKind → Except SiteError Budget
  | .literal v => do
      require (validConstant ty v = true) (ConstEvalError.invalidLiteral, mk ty (.literal v))
      return b
  | .reference reference => do
      let e := mk ty (.reference reference)
      let (t, value) ← orThrow (resolve reference) (ConstEvalError.unknownReference reference, e)
      let b ← (b.ty t).mapError fun error => (ConstEvalError.resourceLimit error, e)
      require (t = ty) (ConstEvalError.typeMismatch, e)
      require (validConstant t value = true) (ConstEvalError.invalidLiteral, e)
      return b
  | .neg value => do
      let e := mk ty (.neg value)
      require (ty = value.ty) (ConstEvalError.typeMismatch, e)
      require ((Integer.shape ty).isSome ∨ ty = .f16 ∨ ty = .f32 ∨ ty = .f64)
        (ConstEvalError.unsupportedOperation, e)
      inspect resolve b value
  | .not value => do
      let e := mk ty (.not value)
      require (ty = value.ty) (ConstEvalError.typeMismatch, e)
      require (ty.intBits.isSome = true) (ConstEvalError.unsupportedOperation, e)
      inspect resolve b value
  | .binary op left right => do
      let e := mk ty (.binary op left right)
      require (left.ty = right.ty ∧ ty = left.ty) (ConstEvalError.typeMismatch, e)
      require (supportedBinary op ty = true) (ConstEvalError.unsupportedOperation, e)
      let b ← inspect resolve b left
      inspect resolve b right
  | .compare op left right => do
      let e := mk ty (.compare op left right)
      require (left.ty = right.ty ∧ ty = .bool) (ConstEvalError.typeMismatch, e)
      require (supportedCompare op left.ty = true) (ConstEvalError.unsupportedOperation, e)
      let b ← inspect resolve b left
      inspect resolve b right

end

/-! ## Evaluation -/

mutual

/-- The value of a validated expression. -/
def value (resolve : Resolver) : ConstExpr → Except SiteError ConstValue
  | .mk ty kind => do
      let v ← valueKind resolve ty kind
      require (validConstant ty v = true) (ConstEvalError.invalidLiteral, mk ty kind)
      return v

def valueKind (resolve : Resolver) (ty : Ty) : ConstExprKind → Except SiteError ConstValue
  | .literal v => .ok v
  | .reference reference => do
      -- Every reference was resolved when its node was validated.
      let (_, v) ← orThrow (resolve reference)
        (ConstEvalError.unknownReference reference, mk ty (.reference reference))
      return v
  | .neg operand => do
      let v ← value resolve operand
      match v with
      | .f v => return .f v.negate
      | v =>
          -- An integer type has a shape, and its values are not floats.
          let e := (ConstEvalError.unsupportedOperation, mk ty (.neg operand))
          let (bits, _) ← orThrow (Integer.shape ty) e
          let raw ← orThrow (Integer.raw v bits) e
          orThrow (Integer.pack ty ((2 ^ 128 - raw) % 2 ^ 128)) e
  | .not operand => do
      let v ← value resolve operand
      (constNot ty v).mapError fun error => (error, mk ty (.not operand))
  | .binary op left right => do
      let e := mk ty (.binary op left right)
      let l ← value resolve left
      if logical op then
        match l with
        | .bool l =>
            if (op = .logicalAnd ∧ l = true) ∨ (op = .logicalOr ∧ l = false) then
              let r ← value resolve right
              match r with
              | .bool r => return .bool r
              | _ => .error (ConstEvalError.typeMismatch, e)
            else return .bool l
        | _ => .error (ConstEvalError.typeMismatch, e)
      else
        let r ← value resolve right
        (constBin op left.ty l r).mapError fun error => (error, e)
  | .compare op left right => do
      let e := mk ty (.compare op left right)
      let l ← value resolve left
      let r ← value resolve right
      let result ← (constCmp op left.ty l r).mapError fun error => (error, e)
      return .bool result

end

def evaluateWithErrorSite (e : ConstExpr) (resolve : Resolver) (limits : IrLimits) :
    Except SiteError ConstValue := do
  let b ← (Budget.new limits).mapError fun error => (ConstEvalError.resourceLimit error, e)
  let b ← (b.expression e).mapError fun error => (ConstEvalError.resourceLimit error, e)
  let _ ← inspect resolve b e
  value resolve e

def evaluateWithLimits (e : ConstExpr) (resolve : Resolver) (limits : IrLimits) :
    Except ConstEvalError ConstValue :=
  (e.evaluateWithErrorSite resolve limits).mapError Prod.fst

/-! ## What an evaluation reads -/

section

variable {resolve resolve' : Resolver}

mutual

theorem inspect_congr : ∀ (e : ConstExpr) (b : Budget),
    (∀ r ∈ e.references, resolve r = resolve' r) → inspect resolve b e = inspect resolve' b e
  | .mk ty kind, b, h => by
      rw [inspect, inspect]
      exact inspectKind_congr ty kind b h

theorem inspectKind_congr (ty : Ty) : ∀ (kind : ConstExprKind) (b : Budget),
    (∀ r ∈ kind.references, resolve r = resolve' r) →
      inspectKind resolve b ty kind = inspectKind resolve' b ty kind
  | .literal v, b, _ => by rw [inspectKind, inspectKind]
  | .reference reference, b, h => by
      rw [inspectKind, inspectKind, h reference (List.mem_singleton_self _)]
  | .neg value, b, h => by
      rw [inspectKind, inspectKind]
      simp only [inspect_congr value b h]
  | .not value, b, h => by
      rw [inspectKind, inspectKind]
      simp only [inspect_congr value b h]
  | .binary op left right, b, h => by
      rw [inspectKind, inspectKind]
      simp only [inspect_congr left _ fun r hr => h r (List.mem_append_left _ hr),
        inspect_congr right _ fun r hr => h r (List.mem_append_right _ hr)]
  | .compare op left right, b, h => by
      rw [inspectKind, inspectKind]
      simp only [inspect_congr left _ fun r hr => h r (List.mem_append_left _ hr),
        inspect_congr right _ fun r hr => h r (List.mem_append_right _ hr)]

end

mutual

theorem value_congr : ∀ e : ConstExpr,
    (∀ r ∈ e.references, resolve r = resolve' r) → value resolve e = value resolve' e
  | .mk ty kind, h => by rw [value, value, valueKind_congr ty kind h]

theorem valueKind_congr (ty : Ty) : ∀ kind : ConstExprKind,
    (∀ r ∈ kind.references, resolve r = resolve' r) →
      valueKind resolve ty kind = valueKind resolve' ty kind
  | .literal v, _ => by rw [valueKind, valueKind]
  | .reference reference, h => by
      rw [valueKind, valueKind, h reference (List.mem_singleton_self _)]
  | .neg operand, h => by rw [valueKind, valueKind, value_congr operand h]
  | .not operand, h => by rw [valueKind, valueKind, value_congr operand h]
  | .binary op left right, h => by
      rw [valueKind, valueKind, value_congr left fun r hr => h r (List.mem_append_left _ hr),
        value_congr right fun r hr => h r (List.mem_append_right _ hr)]
  | .compare op left right, h => by
      rw [valueKind, valueKind, value_congr left fun r hr => h r (List.mem_append_left _ hr),
        value_congr right fun r hr => h r (List.mem_append_right _ hr)]

end

/-- An expression evaluates alike wherever its references stand for the same. -/
theorem evaluateWithLimits_congr {e : ConstExpr} (limits : IrLimits)
    (h : ∀ r ∈ e.references, resolve r = resolve' r) :
    e.evaluateWithLimits resolve limits = e.evaluateWithLimits resolve' limits := by
  unfold evaluateWithLimits evaluateWithErrorSite
  simp only [inspect_congr e _ h, value_congr e h]

end

end ConstExpr

end Whale
