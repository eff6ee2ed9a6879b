import Whale.Lower.State

set_option autoImplicit false

/-! # Lowering at O0

Expressions, statements, functions and programs. The callee is lowered first and then the
arguments in their order; both operands of a logical operation are lowered, into blocks of their
own. -/

namespace Whale

def FunctionBuilder.isCurrentBlockTerminated (fb : FunctionBuilder) : Bool :=
  ((fb.findBlock fb.insertBlock).map fun b => b.terminator.isSome).getD false

namespace Lower

open Frontend (AstLimits BinOpRef CalleeRef Expr FieldInit IntegerCast Lit Stmt StructField
  TypeRef)

def currentBlockId : LowerM BlockId := do
  let s ← get
  return s.builder.fb.insertBlock

def isCurrentBlockTerminated : LowerM Bool := do
  let s ← get
  return s.builder.fb.isCurrentBlockTerminated

/-! ## Expressions -/

def lowerLit (lit : Lit) : LowerM (ValueId × Ty) := do
  let (ty, value) ← ofExcept (litToConst lit)
  match value with
  | .bool v => return (← build (constBool v), ty)
  | .i v => return (← build (constInt ty v), ty)
  | .u v => return (← build (constUint ty v), ty)
  | .f v => return (← build (constFloatBits ty v), ty)

def emitConstValue (ty : Ty) : ConstValue → LowerM ValueId
  | .bool b => build (constBool b)
  | .i i => build (constInt ty i)
  | .u u => build (constUint ty u)
  | .f x => build (constFloatBits ty x)

def lowerVar (env : LocalEnv) (globals : ConstMap) (name : String) : LowerM (ValueId × Ty) :=
  match env.get name with
  | some (.addr ptr ty) => do
      chargeLowerType ty
      read ptr ty
  | some (.const id ty _) => return (id, ty)
  | none =>
      match globals.get name with
      | some (_, ty, value) => return (← emitConstValue ty value, ty)
      | none => fail (.unknownVariable name)

/-- The cast for the widths and signs of source and destination. -/
def castOp (kind : IntegerCast) (sb db : Nat) (signed : Bool) : CastOp :=
  match kind with
  | .checked => .checkedInt
  | .numeric =>
      if sb > db then .trunc else if sb = db then .bitcast else if signed then .sExt else .zExt

def lowerCast (value : LowerM (ValueId × Ty)) (ty : TypeRef) (kind : IntegerCast) :
    LowerM (ValueId × Ty) := do
  let dstTy ← ofExcept (socketTypeToWhale ty)
  -- Validate categories before lowering the value or emitting its cast.
  require (isIntLike dstTy = true) (LowerFailure.error .unsupportedExpr)
  let (src, srcTy) ← value
  let (sb, signed) ← orThrow (Integer.shape srcTy) (LowerFailure.error .unsupportedExpr)
  let (db, _) ← orThrow (Integer.shape dstTy) LowerFailure.panic
  let dst ← build (cast' (castOp kind sb db signed) srcTy dstTy src)
  return (dst, dstTy)

def lowerPointerOffset (base index : LowerM (ValueId × Ty)) : LowerM (ValueId × Ty) := do
  let (ptr, ty) ← base
  match ty with
  | .ptr pointee => do
      let _ ← ofLayout (layoutOf pointee)
      let (index, ity) ← index
      require (isIntLike ity = true) (LowerFailure.error .unsupportedExpr)
      return (← build (gep ptr [index] ty), ty)
  | _ => fail .unsupportedExpr

def lowerVolatileLoad (pointer : LowerM (ValueId × Ty)) : LowerM (ValueId × Ty) := do
  let (ptr, pty) ← pointer
  match pty with
  | .ptr ty => do
      require (scalarStorage ty = true) (LowerFailure.error .unsupportedExpr)
      let align ← ofLayout (allocationAlign ty)
      return (← build (volatileLoad ty ptr (UInt32.ofNat align)), ty)
  | _ => fail .unsupportedExpr

/-- The right operand of a logical operation, in a block of its own, and the join. -/
def logicalRest (leftValue : ValueId) (leftExit rhsBlock contBlock : BlockId)
    (right : LowerM (ValueId × Ty)) : LowerM (ValueId × Ty) := do
  build (setInsertPoint rhsBlock)
  let (rightValue, rightTy) ← right
  require (rightTy = .bool) (LowerFailure.error (.typeMismatch .bool rightTy))
  let rightExit ← currentBlockId
  build (br contBlock)
  build (setInsertPoint contBlock)
  let result ← build (tryPhi .bool [(leftValue, leftExit), (rightValue, rightExit)])
  return (result, .bool)

/-- The right operand is skipped when the left one decides. -/
def lowerLogical (isAnd : Bool) (left right : LowerM (ValueId × Ty)) : LowerM (ValueId × Ty) := do
  let (leftValue, leftTy) ← left
  require (leftTy = .bool) (LowerFailure.error (.typeMismatch .bool leftTy))
  let leftExit ← currentBlockId
  let rhsBlock ← build (createBlock "logical.rhs")
  let contBlock ← build (createBlock "logical.cont")
  build (if isAnd then cbr leftValue rhsBlock contBlock else cbr leftValue contBlock rhsBlock)
  logicalRest leftValue leftExit rhsBlock contBlock right

def lowerOperands (left right : LowerM (ValueId × Ty)) : LowerM (ValueId × ValueId × Ty) := do
  let (lv, lty) ← left
  let (rv, rty) ← right
  require (lty = rty) (LowerFailure.error (.typeMismatch lty rty))
  return (lv, rv, lty)

def lowerBinary (op : BinOpRef) (left right : LowerM (ValueId × Ty)) : LowerM (ValueId × Ty) :=
  match op with
  | .logicalAnd => lowerLogical true left right
  | .logicalOr => lowerLogical false left right
  | op => do
      let (lv, rv, ty) ← lowerOperands left right
      let binop ← ofExcept (mapBinop op ty)
      return (← build (bin binop ty lv rv), ty)

def lowerFunctionRef (name : String) : LowerM (ValueId × Ty) := do
  let id ← build (testCall fun fb => fb.mb.functionId name)
  let signature ← build (testCall (·.calleeSignature (.direct id)))
  return (← build (functionAddr id), .fnPtr signature)

/-- The arguments are lowered behind the callee. -/
def lowerCall (callee : LowerM Callee) (args : LowerM (List ValueId)) :
    LowerM (Option ValueId × Ty) := do
  let callee ← callee
  let signature ← build (testCall (·.calleeSignature callee))
  let values ← args
  let value ← build (call callee values)
  return (value, signature.ret)

def lowerCallValue (callee : LowerM Callee) (args : LowerM (List ValueId)) :
    LowerM (ValueId × Ty) := do
  let (value, ty) ← lowerCall callee args
  let value ← orThrow value (LowerFailure.error .voidCallUsedAsValue)
  return (value, ty)

/-- Write the initializer of one field or element of a literal. -/
def lowerInit (ptr : ValueId) (ordinal : Nat) (expected : Ty) (value : LowerM (ValueId × Ty)) :
    LowerM Unit := do
  let (value, actual) ← value
  require (actual = expected) (LowerFailure.error (.typeMismatch expected actual))
  let dest ← fieldPtr ptr ordinal actual
  write dest value actual

/-- The field an initializer is for. -/
def initOrdinal (fields : List StructField) (used : List String) (name : String) :
    Except LowerError Nat := do
  require (name ∉ used) (LowerError.aggregate .duplicateInitializer)
  orThrow (fields.findIdx? fun f => f.name = name) (LowerError.aggregate (.unknownInitializer name))

/-- The struct whose fields are initialized. -/
def structLiteral (ty : TypeRef) (count : Nat)
    (inits : ValueId → List StructField → List Ty → LowerM Unit) : LowerM (ValueId × Ty) := do
  let (ptr, whaleTy) ← literalStorage ty
  match whaleTy, ty with
  | .struct types, .struct fields => do
      require (count = fields.length) (LowerFailure.error (.aggregate .fieldCount))
      inits ptr fields types
      return (ptr, whaleTy)
  | _, _ => fail .unsupportedExpr

def arrayLiteral (ty : TypeRef) (count : Nat) (inits : ValueId → Ty → LowerM Unit) :
    LowerM (ValueId × Ty) := do
  let (ptr, whaleTy) ← literalStorage ty
  match whaleTy with
  | .array element len => do
      require (scalarStorage element = true) (LowerFailure.error (.aggregate .nonScalarElements))
      require (count = len.toNat) (LowerFailure.error (.aggregate .arrayLength))
      inits ptr element
      return (ptr, whaleTy)
  | _ => fail .unsupportedExpr

mutual

def lowerExpr (env : LocalEnv) (globals : ConstMap) : Expr → LowerM (ValueId × Ty)
  | .located note expression => located note (lowerExpr env globals expression)
  | .struct ty fields =>
      structLiteral ty fields.length fun ptr fieldRefs types =>
        lowerFields env globals ptr fieldRefs types [] fields
  | .array ty elements =>
      arrayLiteral ty elements.length fun ptr element =>
        lowerElements env globals ptr element 0 elements
  | .field base layout name => do
      let (ptr, ty) ← fieldPlace (lowerExpr env globals base) layout name
      read ptr ty
  | .index base index => do
      let (ptr, ty) ← indexPlace (lowerExpr env globals base) (lowerExpr env globals index)
      read ptr ty
  | .deref value => do
      let (ptr, ty) ← derefPlace (lowerExpr env globals value)
      read ptr ty
  | .addressOf value => do
      let (ptr, ty) ← place env globals value
      return (ptr, .ptr ty)
  | .pointerOffset base index =>
      lowerPointerOffset (lowerExpr env globals base) (lowerExpr env globals index)
  | .volatileLoad pointer => lowerVolatileLoad (lowerExpr env globals pointer)
  | .nullFunction sig => do
      let signature ← ofExcept (signatureToWhale sig)
      return (← build (nullFunction signature), .fnPtr signature)
  | .functionRef name => lowerFunctionRef name
  | .call callee args =>
      lowerCallValue (lowerCallee env globals callee) (lowerArguments env globals args)
  | .var name => lowerVar env globals name
  | .cast value ty kind => lowerCast (lowerExpr env globals value) ty kind
  | .lit lit => lowerLit lit
  | .neg value => do
      let (value, ty) ← lowerExpr env globals value
      require (isIntLike ty = true ∨ isFloat ty = true) (LowerFailure.error .unsupportedExpr)
      return (← build (neg ty value), ty)
  | .bitNot value => do
      let (value, ty) ← lowerExpr env globals value
      require (isIntLike ty = true) (LowerFailure.error .unsupportedExpr)
      return (← build (not' ty value), ty)
  | .binary left op right =>
      lowerBinary op (lowerExpr env globals left) (lowerExpr env globals right)
  | .cmp left op right => do
      let (lv, rv, ty) ← lowerOperands (lowerExpr env globals left) (lowerExpr env globals right)
      let predicate ← ofExcept (mapCmp op ty)
      return (← build (cmp predicate ty lv rv), .bool)

/-- The address of a place and the type of what is there. -/
def place (env : LocalEnv) (globals : ConstMap) : Expr → LowerM (ValueId × Ty)
  | .located note expression => located note (place env globals expression)
  | .var name => varPlace env name
  | .deref value => derefPlace (lowerExpr env globals value)
  | .field base layout name => fieldPlace (lowerExpr env globals base) layout name
  | .index base index => indexPlace (lowerExpr env globals base) (lowerExpr env globals index)
  | _ => fail .unsupportedExpr

def lowerCallee (env : LocalEnv) (globals : ConstMap) : CalleeRef → LowerM Callee
  | .direct name => do
      let id ← build (testCall fun fb => fb.mb.functionId name)
      return .direct id
  | .indirect callee => do
      let (value, _) ← lowerExpr env globals callee
      return .indirect value

def lowerArguments (env : LocalEnv) (globals : ConstMap) : List Expr → LowerM (List ValueId)
  | [] => return []
  | arg :: args => do
      let (value, _) ← lowerExpr env globals arg
      let values ← lowerArguments env globals args
      return value :: values

def lowerElements (env : LocalEnv) (globals : ConstMap) (ptr : ValueId) (element : Ty)
    (ordinal : Nat) : List Expr → LowerM Unit
  | [] => return ()
  | expression :: elements => do
      lowerInit ptr ordinal element (lowerExpr env globals expression)
      lowerElements env globals ptr element (ordinal + 1) elements

def lowerFields (env : LocalEnv) (globals : ConstMap) (ptr : ValueId) (fields : List StructField)
    (types : List Ty) (used : List String) : List FieldInit → LowerM Unit
  | [] => return ()
  | init :: inits => do
      let name ← lowerField env globals ptr fields types used init
      lowerFields env globals ptr fields types (name :: used) inits

def lowerField (env : LocalEnv) (globals : ConstMap) (ptr : ValueId) (fields : List StructField)
    (types : List Ty) (used : List String) : FieldInit → LowerM String
  | .mk name value => do
      let ordinal ← ofExcept (initOrdinal fields used name)
      let expected ← orThrow types[ordinal]? LowerFailure.panic
      lowerInit ptr ordinal expected (lowerExpr env globals value)
      return name

end

/-! ## Statements -/

/-- The result of a call may be dropped. -/
def lowerDiscarded (env : LocalEnv) (globals : ConstMap) : Expr → LowerM Unit
  | .located note expression => located note (lowerDiscarded env globals expression)
  | .call callee args => do
      let _ ← lowerCall (lowerCallee env globals callee) (lowerArguments env globals args)
      return ()
  | expr => do
      let _ ← lowerExpr env globals expr
      return ()

structure LoopCtx where
  condBb : BlockId
  exitBb : BlockId
  deriving DecidableEq

/-- What does not change while the statements of a function are lowered. -/
structure BodyCtx where
  globals : ConstMap
  retTy : Ty

/-- Keep source statements after return, break and continue visible: the new block has no
incoming edge. -/
def ensureOpen : LowerM Unit := do
  if ← isCurrentBlockTerminated then do
    let dead ← build (createBlock "unreachable.cont")
    build (setInsertPoint dead)
  else return ()

/-- Branch unless the block has ended. -/
def branchOpen (target : BlockId) : LowerM Unit := do
  if ← isCurrentBlockTerminated then return () else build (br target)

/-- The mismatch of a typed initializer or operand, located at the expression. -/
def mismatchAt (expr : Expr) (expected got : Ty) : LowerFailure :=
  match expr with
  | .located note _ => .error (.located note (.typeMismatch expected got))
  | _ => .error (.typeMismatch expected got)

/-- Only a located initializer is annotated. -/
def annotateInit (init : Expr) (x : LowerM ValueId) : LowerM ValueId :=
  match init with
  | .located note _ => do
      let checkpoint ← sourceCheckpoint
      let id ← x
      annotateSource note checkpoint
      return id
  | _ => x

def lowerReturn (env : LocalEnv) (c : BodyCtx) : Option Expr → LowerM Unit
  | none =>
      if c.retTy = .void then build (ret none) else fail .unsupportedStmt
  | some e =>
      if c.retTy = .void then fail .valueReturnedFromVoid
      else do
        let (v, ty) ← lowerExpr env c.globals e
        require (ty = c.retTy) (mismatchAt e c.retTy ty)
        build (ret (some v))

def lowerVolatileStore (env : LocalEnv) (c : BodyCtx) (pointer value : Expr) : LowerM Unit := do
  let (ptr, pty) ← lowerExpr env c.globals pointer
  match pty with
  | .ptr ty => do
      require (scalarStorage ty = true) (LowerFailure.error .unsupportedExpr)
      let (value, actual) ← lowerExpr env c.globals value
      require (actual = ty) (LowerFailure.error (.typeMismatch ty actual))
      let align ← ofLayout (allocationAlign ty)
      build (volatileStore ty value ptr (UInt32.ofNat align))
  | _ => fail .unsupportedExpr

def lowerStore (env : LocalEnv) (c : BodyCtx) (target value : Expr) : LowerM Unit := do
  let (ptr, ty) ← place env c.globals target
  let (v, vty) ← lowerExpr env c.globals value
  require (ty = vty) (LowerFailure.error (.typeMismatch ty vty))
  write ptr v ty

def lowerConstDecl (env : LocalEnv) (c : BodyCtx) (name : String) (ty : TypeRef) (init : Expr) :
    LowerM LocalEnv := do
  let declTy ← ofExcept (socketTypeToWhale ty)
  let (expression, value) ← ofExcept (evalConstExpr init ⟨some env, c.globals⟩)
  require (expression.ty = declTy) (mismatchAt init declTy expression.ty)
  retainSources init
  let id ← annotateInit init (build (constDecl name expression value))
  return env.insert name (.const id expression.ty value)

def lowerVarDecl (env : LocalEnv) (c : BodyCtx) (name : String) (ty : TypeRef)
    (init : Option Expr) : LowerM LocalEnv := do
  let declTy ← ofExcept (socketTypeToWhale ty)
  let align ← ofLayout (allocationAlign declTy)
  match init with
  | some e => do
      let (v, vty) ← lowerExpr env c.globals e
      require (vty = declTy) (mismatchAt e declTy vty)
      let slot ← build (allocaInEntry declTy (UInt32.ofNat align))
      write slot v declTy
      return env.insert name (.addr slot declTy)
  | none => do
      let slot ← build (allocaInEntry declTy (UInt32.ofNat align))
      -- This executes at every declaration, including loop redeclarations.
      build (uninit declTy slot (UInt32.ofNat align))
      return env.insert name (.addr slot declTy)

def lowerAssign (env : LocalEnv) (c : BodyCtx) (name : String) (value : Expr) : LowerM Unit := do
  let (v, vty) ← lowerExpr env c.globals value
  match env.get name with
  | none => fail (.unknownVariable name)
  | some (.const ..) => fail (.assignToConst name)
  | some (.addr ptr ty) => do
      require (vty = ty) (mismatchAt value ty vty)
      write ptr v ty

/-- A condition, in the block under the insertion point. -/
def lowerCond (env : LocalEnv) (c : BodyCtx) (cond : Expr) : LowerM ValueId := do
  let (cv, cty) ← lowerExpr env c.globals cond
  require (cty = .bool) (mismatchAt cond .bool cty)
  return cv

/-- A body in a block of its own, in a copy of the environment. -/
def lowerBranch (env : LocalEnv) (block next : BlockId) (body : LowerM LocalEnv) : LowerM Unit := do
  build (setInsertPoint block)
  chargeEnv env
  let _ ← body
  branchOpen next

def lowerIf (env : LocalEnv) (c : BodyCtx) (cond : Expr) (thenBody elseBody : LowerM LocalEnv) :
    LowerM Unit := do
  let cv ← lowerCond env c cond
  let thenBb ← build (createBlock "if.then")
  let elseBb ← build (createBlock "if.else")
  let contBb ← build (createBlock "if.cont")
  build (cbr cv thenBb elseBb)
  lowerBranch env thenBb contBb thenBody
  lowerBranch env elseBb contBb elseBody
  build (setInsertPoint contBb)

def lowerWhile (env : LocalEnv) (c : BodyCtx) (cond : Expr) (body : LoopCtx → LowerM LocalEnv) :
    LowerM Unit := do
  let condBb ← build (createBlock "while.cond")
  let bodyBb ← build (createBlock "while.body")
  let exitBb ← build (createBlock "while.exit")
  build (br condBb)
  build (setInsertPoint condBb)
  let cv ← lowerCond env c cond
  build (cbr cv bodyBb exitBb)
  lowerBranch env bodyBb condBb (body ⟨condBb, exitBb⟩)
  build (setInsertPoint exitBb)

mutual

/-- The environment after a statement. -/
def lowerStmt (c : BodyCtx) (loops : List LoopCtx) (env : LocalEnv) (stmt : Stmt) :
    LowerM LocalEnv := do
  ensureOpen
  match stmt with
  | .located note statement => located note (lowerStmt c loops env statement)
  | .volatileStore pointer value => do
      lowerVolatileStore env c pointer value
      return env
  | .store target value => do
      lowerStore env c target value
      return env
  | .return value => do
      lowerReturn env c value
      return env
  | .constDecl name ty init => lowerConstDecl env c name ty init
  | .varDecl name ty init => lowerVarDecl env c name ty init
  | .assign name value => do
      lowerAssign env c name value
      return env
  | .exprStmt value => do
      lowerDiscarded env c.globals value
      return env
  | .ifElse cond thenBody elseBody => do
      lowerIf env c cond (lowerStmts c loops env thenBody) (lowerStmts c loops env elseBody)
      return env
  | .while cond body => do
      lowerWhile env c cond fun loop => lowerStmts c (loop :: loops) env body
      return env
  | .break =>
      match loops with
      | [] => fail .breakOutsideLoop
      | loop :: _ => do
          build (br loop.exitBb)
          return env
  | .continue =>
      match loops with
      | [] => fail .continueOutsideLoop
      | loop :: _ => do
          build (br loop.condBb)
          return env

def lowerStmts (c : BodyCtx) (loops : List LoopCtx) (env : LocalEnv) :
    List Stmt → LowerM LocalEnv
  | [] => return env
  | stmt :: stmts => do
      let env ← lowerStmt c loops env stmt
      lowerStmts c loops env stmts

end

/-! ## Functions and programs -/

/-- Each parameter gets a slot on the stack. -/
def lowerParams (env : LocalEnv) (index : Nat) : List Frontend.Parameter → LowerM LocalEnv
  | [] => return env
  | p :: params => do
      let s ← get
      let value ← orThrow (s.builder.fb.func.params[index]?.map Param.id) LowerFailure.panic
      let ty ← ofExcept (socketTypeToWhale p.ty)
      let align ← ofLayout (allocationAlign ty)
      let slot ← build (allocaInEntry ty (UInt32.ofNat align))
      build (store ty value slot (UInt32.ofNat align))
      lowerParams (env.insert p.name (.addr slot ty)) (index + 1) params

/-- End a body that does not return. -/
def lowerEnd (retTy : Ty) : LowerM Unit := do
  if ← isCurrentBlockTerminated then return ()
  else if retTy = .void then build (ret none)
  else build (trap "missing return")

def lowerBody (globals : ConstMap) (retTy : Ty) (f : Frontend.Function) : LowerM Unit := do
  let env ← lowerParams [] 0 f.parameters
  let _ ← lowerStmts ⟨globals, retTy⟩ [] env f.body
  lowerEnd retTy
  finishSourceMapping

/-- The module under construction, and the budgets that are left. -/
structure LowerModule where
  sources : SourceModule
  storage : Budget
  deriving DecidableEq

def lowerFunction (globals : ConstMap) (m : LowerModule) (f : Frontend.Function) :
    Except LowerFailure LowerModule := do
  let retTy ← (socketTypeToWhale f.returnType).mapError LowerFailure.error
  let id ← (m.sources.mb.functionId f.name).mapError fun e => LowerFailure.error (.call e)
  let fb ← (m.sources.mb.beginDeclaredFunction id (f.parameters.map Frontend.Parameter.name)).mapError
    fun e => LowerFailure.error (.call e)
  require fb.Counts LowerFailure.panic
  match lowerBody globals retTy f ⟨⟨fb, m.sources.sourceWork⟩, m.storage⟩ with
  | .ok _ s => return ⟨⟨s.builder.fb.finish, s.builder.sourceWork⟩, s.storage⟩
  | .error e _ => throw e

/-- An operation on the module. -/
def declare (mb : ModuleBuilder) (name : String) (signature : FunctionSignature)
    (linkage : Linkage) (linkName : Option String) : Except LowerFailure ModuleBuilder :=
  match ModuleBuilder.declareFunction name signature linkage linkName mb with
  | .ok _ mb => .ok mb
  | .error e _ => .error (ofFailure e)

def declareExternal (mb : ModuleBuilder) (d : Frontend.FunctionDeclaration) :
    Except LowerFailure ModuleBuilder := do
  let signature ← (signatureToWhale d.signature).mapError LowerFailure.error
  (scalarSignature signature).mapError LowerFailure.error
  declare mb d.name signature d.linkage d.linkName

def declareDefined (mb : ModuleBuilder) (f : Frontend.Function) :
    Except LowerFailure ModuleBuilder := do
  let params ← (typesToWhale (f.parameters.map Frontend.Parameter.ty)).mapError LowerFailure.error
  let ret ← (socketTypeToWhale f.returnType).mapError LowerFailure.error
  let signature : FunctionSignature := .mk params ret f.convention false
  (scalarSignature signature).mapError LowerFailure.error
  declare mb f.name signature f.linkage f.linkName

/-- An internal declaration needs a function. -/
def checkDefined (mb : ModuleBuilder) (functions : List String)
    (d : Frontend.FunctionDeclaration) : Except LowerFailure Unit :=
  if d.linkage = .internal ∧ d.name ∉ functions then do
    let id ← (mb.functionId d.name).mapError fun e => LowerFailure.error (.call e)
    throw (.error (.call (.missingDefinition id)))
  else .ok ()

def lowerGlobal (m : SourceModule × ConstMap) (g : Frontend.GlobalConst) :
    Except LowerFailure (SourceModule × ConstMap) := do
  require ((m.2.get g.name).isNone = true) (LowerFailure.error (.duplicateGlobal g.name))
  let declTy ← (socketTypeToWhale g.ty).mapError LowerFailure.error
  let (expression, value) ← (evalConstExpr g.init ⟨none, m.2⟩).mapError LowerFailure.error
  require (expression.ty = declTy) (mismatchAt g.init declTy expression.ty)
  let align ← (allocationAlign expression.ty).mapError fun e => LowerFailure.error (.layout e)
  match ModuleBuilder.addGlobalConst g.name expression value (UInt32.ofNat align) m.1.mb with
  | .error e _ => throw (ofFailure e)
  | .ok id mb => do
      let limited {α : Type} (x : Except Frontend.AstLimitError α) : Except LowerFailure α :=
        x.mapError fun e => LowerFailure.error (.resourceLimit e)
      let s ← limited (retainConstSources g.init { m.1 with mb := mb })
      let s ← match g.init with
        | .located note _ => limited (s.annotateGlobalSource id note)
        | _ => .ok s
      return (s, m.2.insert g.name (id, expression.ty, value))

/-- Functions and parameters have unique names. -/
def checkNames (names : List String) (f : Frontend.Function) : Except LowerFailure (List String) :=
  do
    require (f.name ∉ names) (LowerFailure.error (.duplicateFunction f.name))
    let _ ← f.parameters.foldlM (fun seen p => do
      require (p.name ∉ seen) (LowerFailure.error (.duplicateParameter f.name p.name))
      return p.name :: seen) []
    return f.name :: names

def targetName : String := "x86_64-whale-linux"

def targetLayout : DataLayout := ⟨64, .little⟩

/-- Lower a program with explicit resource budgets. -/
def lowerO0WithLimits (program : Frontend.Program) (target : String) (datalayout : DataLayout)
    (limits : AstLimits) : Except LowerFailure Module := do
  (Frontend.inspectProgram program limits).mapError fun e => LowerFailure.error (.resourceLimit e)
  require (target = targetName) (LowerFailure.error (.target (.unsupportedTarget target)))
  require (datalayout = targetLayout) (LowerFailure.error (.target (.layoutMismatch datalayout)))
  let names ← program.functions.foldlM checkNames []
  let mb ← program.declarations.foldlM declareExternal (.new targetName datalayout)
  let mb ← program.functions.foldlM declareDefined mb
  program.declarations.forM (checkDefined mb names)
  let (sources, globals) ← program.globals.foldlM lowerGlobal (⟨mb, limits.maxSourceWork⟩, [])
  let storage : Budget := { limits := .default, remaining := IrLimits.default.maxNodes }
  let m ← program.functions.foldlM (lowerFunction globals) ⟨sources, storage⟩
  return m.sources.mb.module

def lowerO0 (program : Frontend.Program) (target : String) (datalayout : DataLayout) :
    Except LowerFailure Module :=
  lowerO0WithLimits program target datalayout .default

end Lower

end Whale
