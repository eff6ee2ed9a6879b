import Whale.IR.Declaration

set_option autoImplicit false

/-! # Building modules

The builder hands out identities and appends instructions. A call that fails returns an error;
the convenience operations without checks panic instead. -/

namespace Whale

/-- How a call of the builder fails. -/
inductive BuildFailure where
  | builder (e : BuilderError)
  | call (e : CallError)
  | globalStorage (e : GlobalStorageError)
  | panic
  deriving DecidableEq

/-- `nextValue` and `nextBlock` count what was handed out; the source keeps their low 32 bits,
and an identity is these bits. -/
structure ModuleBuilder where
  module : Module
  nextValue : Nat
  nextBlock : Nat
  nextGlobal : UInt32
  /-- Pending index shifts of the source mappings of a function. -/
  sourceShifts : AssocMap FunctionId (Nat × Nat)
  sourceMappedFunctions : List FunctionId
  deriving DecidableEq

/-- A function under construction. -/
structure FunctionBuilder where
  mb : ModuleBuilder
  func : Function
  insertBlock : BlockId
  deriving DecidableEq

abbrev ModuleBuilderM := EStateM BuildFailure ModuleBuilder

abbrev BuildM := EStateM BuildFailure FunctionBuilder

/-! ## Checks -/

namespace FunctionBuilder

def findBlock (fb : FunctionBuilder) (bb : BlockId) : Option BasicBlock :=
  fb.func.blocks.find? (·.id = bb)

def ensureBlock (fb : FunctionBuilder) (bb : BlockId) : Except BuilderError Unit :=
  require ((fb.findBlock bb).isSome = true) (BuilderError.unknownBlock bb)

def ensureInsertable (fb : FunctionBuilder) : Except BuilderError Unit := do
  let block ← orThrow (fb.findBlock fb.insertBlock) (BuilderError.unknownBlock fb.insertBlock)
  require (block.terminator.isSome = false) (BuilderError.terminatedBlock block.id)

def ensureValues (fb : FunctionBuilder) (values : List ValueId) : Except BuilderError Unit :=
  values.forM fun value =>
    require ((fb.func.valueType value).isSome = true) (BuilderError.unknownValue value)

def ensureIncomings (fb : FunctionBuilder) (incomings : List (ValueId × BlockId)) :
    Except BuilderError Unit :=
  incomings.forM fun e => do
    fb.ensureValues [e.1]
    fb.ensureBlock e.2

def ensurePhiPrefix (fb : FunctionBuilder) : Except BuilderError Unit := do
  let block ← orThrow (fb.findBlock fb.insertBlock) (BuilderError.unknownBlock fb.insertBlock)
  require (block.instructions.all (fun | .phi .. => true | _ => false) = true)
    (BuilderError.phiAfterInstruction fb.insertBlock)

def globalType (fb : FunctionBuilder) (global : GlobalId) : Except BuilderError Ty := do
  let g ← orThrow (fb.mb.module.globalStorage.find? (·.id = global))
    (BuilderError.unknownGlobal global)
  return g.ty

def ensurePointer (fb : FunctionBuilder) (ptr : ValueId) : Except BuilderError Unit :=
  match fb.func.valueType ptr with
  | some (.ptr _) => .ok ()
  | _ => .error .invalidPointerOperands

def ensureSamePointers (fb : FunctionBuilder) (lhs rhs : ValueId) : Except BuilderError Unit := do
  fb.ensurePointer lhs
  require (fb.func.valueType rhs = fb.func.valueType lhs) BuilderError.invalidPointerOperands

def ensureEntryOpen (fb : FunctionBuilder) : Except BuilderError Unit := do
  let block ← orThrow (fb.findBlock fb.func.entry) (BuilderError.unknownBlock fb.func.entry)
  require (block.terminator.isSome = false) (BuilderError.terminatedBlock fb.func.entry)

def paramValue? (fb : FunctionBuilder) (index : Nat) : Except BuilderError ValueId :=
  orThrow (fb.func.params[index]?.map Param.id)
    (BuilderError.unknownParameter index fb.func.params.length)

/-- The signature in the declaration of a callee, or in its type. -/
def lookupSignature (fb : FunctionBuilder) : Callee → Except CallError FunctionSignature
  | .direct id =>
      orThrow ((fb.mb.module.declarations.find? fun d => d.id = id).map FunctionDecl.signature)
        (CallError.unknownFunction id)
  | .indirect value =>
      match fb.func.valueType value with
      | some (.fnPtr sig) => .ok sig
      | some _ => .error (.notFunctionPointer value)
      | none => .error (.unknownValue value)

def calleeSignature (fb : FunctionBuilder) (callee : Callee) :
    Except CallError FunctionSignature := do
  let signature ← fb.lookupSignature callee
  validateSignature signature
  return signature

/-- The arguments of a call from the one at `index` on. -/
def checkArguments (fb : FunctionBuilder) :
    Nat → List ValueId → List Ty → Except CallError Unit
  | index, arg :: args, expected :: params => do
      let got ← orThrow (fb.func.valueType arg) (CallError.unknownValue arg)
      require (got = expected) (CallError.argumentType index expected got)
      checkArguments fb (index + 1) args params
  | _, _, _ => .ok ()

end FunctionBuilder

/-- A check of the builder as a step of an operation. -/
def test {α : Type} (x : FunctionBuilder → Except BuilderError α) : BuildM α := do
  let fb ← get
  orRaise (x fb) BuildFailure.builder

/-- A check whose failure is one of calls. -/
def testCall {α : Type} (x : FunctionBuilder → Except CallError α) : BuildM α := do
  let fb ← get
  orRaise (x fb) BuildFailure.call

/-- What a convenience operation expects. -/
def expect (x : FunctionBuilder → Except BuilderError Unit) : BuildM Unit := do
  let fb ← get
  orRaise (x fb) fun _ => BuildFailure.panic

/-! ## Primitives -/

/-- Change the first block with the identity `bb`. -/
def updateBlock (bb : BlockId) (f : BasicBlock → BasicBlock) : List BasicBlock → List BasicBlock
  | [] => []
  | b :: bs => if b.id = bb then f b :: bs else b :: updateBlock bb f bs

def ModuleBuilder.freshValue (mb : ModuleBuilder) : ValueId × ModuleBuilder :=
  (⟨UInt32.ofNat mb.nextValue⟩, { mb with nextValue := mb.nextValue + 1 })

def ModuleBuilder.freshBlock (mb : ModuleBuilder) : BlockId × ModuleBuilder :=
  (⟨UInt32.ofNat mb.nextBlock⟩, { mb with nextBlock := mb.nextBlock + 1 })

def BasicBlock.new (id : BlockId) (name : String) : BasicBlock where
  id := id
  name := name
  instructions := []
  terminator := none

def defineValue (ty : Ty) : BuildM ValueId := do
  expect (·.ensureInsertable)
  let fb ← get
  set { fb with
    mb := fb.mb.freshValue.2
    func := { fb.func with valueTypes := fb.func.valueTypes ++ [(fb.mb.freshValue.1, ty)] } }
  return fb.mb.freshValue.1

/-- Change the block under the insertion point. -/
def updateCurrent (f : BasicBlock → BasicBlock) : BuildM Unit := do
  expect (·.ensureInsertable)
  modify fun fb =>
    { fb with func := { fb.func with blocks := updateBlock fb.insertBlock f fb.func.blocks } }

def push (i : Instruction) : BuildM Unit :=
  updateCurrent fun b => { b with instructions := b.instructions ++ [i] }

def setTerminator (t : Terminator) : BuildM Unit :=
  updateCurrent fun b => { b with terminator := some t }

/-- Append an instruction that defines a value. -/
def emit (ty : Ty) (instruction : ValueId → Instruction) : BuildM ValueId := do
  let dst ← defineValue ty
  push (instruction dst)
  return dst

/-! ## Convenience operations -/

def neg (ty : Ty) (src : ValueId) : BuildM ValueId := emit ty fun dst => .neg dst ty src

def not' (ty : Ty) (src : ValueId) : BuildM ValueId := emit ty fun dst => .not dst ty src

def undef (ty : Ty) : BuildM ValueId := emit ty fun dst => .undef dst ty

def constDecl (name : String) (expression : ConstExpr) (value : ConstValue) : BuildM ValueId :=
  emit expression.ty fun dst => .constDecl dst name expression value

def constValue (ty : Ty) (value : ConstValue) : BuildM ValueId :=
  emit ty fun dst => .const dst ty value

def constBool (v : Bool) : BuildM ValueId := constValue .bool (.bool v)

def constI32 (v : Int32) : BuildM ValueId := constValue .i32 (.i (BitVec.ofInt 128 v.toInt))

def constInt (ty : Ty) (v : BitVec 128) : BuildM ValueId := constValue ty (.i v)

def constUint (ty : Ty) (v : BitVec 128) : BuildM ValueId := constValue ty (.u v)

def constFloatBits (ty : Ty) (v : FloatBits) : BuildM ValueId := constValue ty (.f v)

def constFloat (ty : Ty) (v : UInt64) (single : UInt32) : BuildM ValueId := do
  let width := match ty with
    | .f16 => 16
    | .f32 => 32
    | _ => 64
  let bits ← orThrow (FloatBits.fromF64 width v single) BuildFailure.panic
  constFloatBits ty bits

def bin (op : BinOp) (ty : Ty) (lhs rhs : ValueId) : BuildM ValueId :=
  emit ty fun dst => .bin dst op ty lhs rhs

def add (ty : Ty) (lhs rhs : ValueId) : BuildM ValueId := bin .add ty lhs rhs

def icmp (pred : ICmpPred) (ty : Ty) (lhs rhs : ValueId) : BuildM ValueId :=
  emit .bool fun dst => .iCmp dst pred ty lhs rhs

def cmp (op : CmpOp) (ty : Ty) (lhs rhs : ValueId) : BuildM ValueId :=
  emit .bool fun dst => .cmp dst op ty lhs rhs

def cast' (op : CastOp) (srcTy dstTy : Ty) (src : ValueId) : BuildM ValueId :=
  emit dstTy fun dst => .cast dst op dstTy srcTy src

def checked (op : CheckedOp) (ty : Ty) (lhs rhs : ValueId) : BuildM ValueId :=
  emit (.tuple [ty, .bool]) fun dst => .checked dst op ty lhs rhs

def extract (dstTy : Ty) (tuple : ValueId) (index : UInt32) : BuildM ValueId :=
  emit dstTy fun dst => .extract dst dstTy tuple index

def alloca (ty : Ty) (align : UInt32) : BuildM ValueId :=
  emit (.ptr ty) fun dst => .alloca dst ty align

def gep (basePtr : ValueId) (indices : List ValueId) (dstTy : Ty) : BuildM ValueId :=
  emit dstTy fun dst => .gep dst dstTy basePtr indices

def volatileLoad (ty : Ty) (ptr : ValueId) (align : UInt32) : BuildM ValueId :=
  emit ty fun dst => .volatileLoad dst ty ptr align

def load (ty : Ty) (ptr : ValueId) (align : UInt32) : BuildM ValueId :=
  emit ty fun dst => .load dst ty ptr align

def memcpy (dst src n : ValueId) (align : UInt32) : BuildM Unit := push (.memcpy dst src n align)

def volatileStore (ty : Ty) (value ptr : ValueId) (align : UInt32) : BuildM Unit :=
  push (.volatileStore ty value ptr align)

/-- Revoke initialization at this program point without zeroing storage. -/
def uninit (ty : Ty) (ptr : ValueId) (align : UInt32) : BuildM Unit := push (.uninit ty ptr align)

def store (ty : Ty) (value ptr : ValueId) (align : UInt32) : BuildM Unit :=
  push (.store ty value ptr align)

def trapIf (cond : ValueId) (reason : String) : BuildM Unit := push (.trapIf cond reason)

def br (target : BlockId) : BuildM Unit := setTerminator (.br target)

def cbr (cond : ValueId) (thenBb elseBb : BlockId) : BuildM Unit :=
  setTerminator (.cBr cond thenBb elseBb)

def ret (value : Option ValueId) : BuildM Unit := do
  let fb ← get
  setTerminator (.ret fb.func.retTy value)

def trap (reason : String) : BuildM Unit := setTerminator (.trap reason)

def createBlock (name : String) : BuildM BlockId := do
  let fb ← get
  set { fb with
    mb := fb.mb.freshBlock.2
    func := { fb.func with blocks := fb.func.blocks ++ [BasicBlock.new fb.mb.freshBlock.1 name] } }
  return fb.mb.freshBlock.1

def isAlloca : Instruction → Bool
  | .alloca .. => true
  | _ => false

/-- Insert behind the allocations at the front of a block. -/
def insertAlloca (i : Instruction) (is : List Instruction) : List Instruction :=
  is.takeWhile isAlloca ++ i :: is.dropWhile isAlloca

/-- The first allocation since the last flush fixes the position, later ones count. -/
def ModuleBuilder.shiftSources (mb : ModuleBuilder) (function : FunctionId) (position : Nat) :
    ModuleBuilder :=
  if function ∈ mb.sourceMappedFunctions then
    { mb with
      sourceShifts := mb.sourceShifts.insert function
        (match mb.sourceShifts.get function with
          | some (first, count) => (first, count + 1)
          | none => (position, 1)) }
  else mb

def allocaInEntry (ty : Ty) (align : UInt32) : BuildM ValueId := do
  let dst ← defineValue (.ptr ty)
  let fb ← get
  let entry ← orThrow (fb.findBlock fb.func.entry) BuildFailure.panic
  let position := (entry.instructions.takeWhile isAlloca).length
  set { fb with
    mb := fb.mb.shiftSources fb.func.id position
    func := { fb.func with
      blocks := updateBlock fb.func.entry
        (fun b => { b with instructions := insertAlloca (.alloca dst ty align) b.instructions })
        fb.func.blocks } }
  return dst

/-! ## Checked operations -/

/-- A checked operation: the block is open and the operands exist. -/
def tryWith {α : Type} (values : List ValueId) (op : BuildM α) : BuildM α := do
  test (·.ensureInsertable)
  test (·.ensureValues values)
  op

def tryGlobalAddr (global : GlobalId) : BuildM ValueId := do
  test (·.ensureInsertable)
  let ty ← test (·.globalType global)
  emit (.ptr ty) fun dst => .globalAddr dst global ty

def tryLifetimeEnd (ptr : ValueId) : BuildM Unit :=
  tryWith [ptr] do
    test (·.ensurePointer ptr)
    push (.lifetimeEnd ptr)

def tryPtrdiff (lhs rhs : ValueId) : BuildM ValueId :=
  tryWith [lhs, rhs] do
    test (·.ensureSamePointers lhs rhs)
    emit .i128 fun dst => .ptrDiff dst lhs rhs

/-- The verifier checks predecessor edges, dominance and types. -/
def tryPhi (ty : Ty) (incomings : List (ValueId × BlockId)) : BuildM ValueId := do
  test (·.ensureInsertable)
  test (·.ensureIncomings incomings)
  test (·.ensurePhiPrefix)
  emit ty fun dst => .phi dst ty incomings

def trySetInsertPoint (bb : BlockId) : BuildM Unit := do
  test (·.ensureBlock bb)
  modify fun fb => { fb with insertBlock := bb }

def setInsertPoint (bb : BlockId) : BuildM Unit := do
  expect (·.ensureBlock bb)
  modify fun fb => { fb with insertBlock := bb }

def tryBr (target : BlockId) : BuildM Unit :=
  tryWith [] do
    test (·.ensureBlock target)
    br target

def tryCbr (cond : ValueId) (thenBb elseBb : BlockId) : BuildM Unit :=
  tryWith [cond] do
    test (·.ensureBlock thenBb)
    test (·.ensureBlock elseBb)
    cbr cond thenBb elseBb

def tryAllocaInEntry (ty : Ty) (align : UInt32) : BuildM ValueId :=
  tryWith [] do
    test fun fb => fb.ensureBlock fb.func.entry
    test (·.ensureEntryOpen)
    allocaInEntry ty align

/-! ## Functions and calls -/

def nullFunction (signature : FunctionSignature) : BuildM ValueId := do
  testCall fun _ => validateSignature signature
  testCall (·.ensureInsertable.mapError CallError.builder)
  emit (.fnPtr signature) fun dst => .nullFunction dst signature

def functionAddr (function : FunctionId) : BuildM ValueId := do
  let signature ← testCall (·.calleeSignature (.direct function))
  testCall fun _ => validateSignature signature
  testCall (·.ensureInsertable.mapError CallError.builder)
  emit (.fnPtr signature) fun dst => .functionAddr dst function signature

/-- The instruction of a call, with a result unless the callee returns nothing. -/
def emitCall (signature : FunctionSignature) (callee : Callee) (args : List ValueId) :
    BuildM (Option ValueId) :=
  if signature.ret = .void then do
    push (.call signature.convention none signature.ret callee args)
    return none
  else do
    let dst ← emit signature.ret fun dst =>
      .call signature.convention (some dst) signature.ret callee args
    return some dst

def call (callee : Callee) (args : List ValueId) : BuildM (Option ValueId) := do
  testCall (·.ensureInsertable.mapError CallError.builder)
  let signature ← testCall (·.calleeSignature callee)
  testCall fun _ => validateSignature signature
  testCall fun _ => require (args.length = signature.params.length)
    (CallError.argumentCount signature.params.length args.length)
  testCall (·.checkArguments 0 args signature.params)
  emitCall signature callee args

/-- Apply the pending index shift to the source mappings of the entry block. -/
def ModuleBuilder.flushSourceShifts (mb : ModuleBuilder) (function : FunctionId) (entry : BlockId) :
    ModuleBuilder :=
  match mb.sourceShifts.get function with
  | none => mb
  | some (position, count) =>
      let shift (m : SourceMapping) : SourceMapping :=
        match m.target with
        | .instruction f b index =>
            if f = function ∧ b = entry ∧ position ≤ index then
              { m with target := .instruction f b (index + count) }
            else m
        | _ => m
      { mb with
        module := { mb.module with
          sources := { mb.module.sources with
            mappings := mb.module.sources.mappings.map shift } }
        sourceShifts := mb.sourceShifts.erase function }

def FunctionBuilder.finish (fb : FunctionBuilder) : ModuleBuilder :=
  let mb := fb.mb.flushSourceShifts fb.func.id fb.func.entry
  { mb with module := { mb.module with functions := mb.module.functions ++ [fb.func] } }

/-! ## Modules -/

namespace ModuleBuilder

def new (target : String) (datalayout : DataLayout) : ModuleBuilder where
  module :=
    { target := target, datalayout := datalayout, globals := [], globalStorage := []
      functions := [], declarations := []
      sources := { files := [], originals := [], mappings := [] } }
  nextValue := 0
  nextBlock := 0
  nextGlobal := 0
  sourceShifts := []
  sourceMappedFunctions := []

def addGlobalConst (name : String) (expression : ConstExpr) (init : ConstValue) (align : UInt32) :
    ModuleBuilderM GlobalId := do
  let mb ← get
  set { mb with
    nextGlobal := mb.nextGlobal + 1
    module := { mb.module with
      globals := mb.module.globals ++
        [({ id := ⟨mb.nextGlobal⟩, name := name, ty := expression.ty, init := init
            initExpr := expression, align := align } : Global)] } }
  return ⟨mb.nextGlobal⟩

def addGlobal (name : String) (ty : Ty) (init : ConstValue) (align : UInt32) :
    ModuleBuilderM GlobalId :=
  addGlobalConst name (.mk ty (.literal init)) init align

/-- The external symbol is taken by a declaration or by storage. -/
def linkNameTaken (mb : ModuleBuilder) : Option String → Bool
  | none => false
  | some link =>
      mb.module.declarations.any (fun d => d.linkName = some link) ||
        mb.module.globalStorage.any (fun g => g.linkName = some link)

def tryAddGlobalStorage (storage : GlobalStorage) : ModuleBuilderM GlobalId := do
  let mb ← get
  orRaise (storage.validateWithLimits .default) BuildFailure.globalStorage
  require (¬ (mb.module.globals.any (fun g => g.name = storage.name) = true ∨
      mb.module.globalStorage.any (fun g => g.name = storage.name) = true))
    (BuildFailure.globalStorage .duplicateName)
  require (mb.linkNameTaken storage.linkName = false)
    (BuildFailure.globalStorage .linkNameCollision)
  require (mb.nextGlobal.toNat + 1 < 2 ^ 32) (BuildFailure.globalStorage .duplicateIdentity)
  set { mb with
    nextGlobal := mb.nextGlobal + 1
    module := { mb.module with
      globalStorage := mb.module.globalStorage ++ [{ storage with id := ⟨mb.nextGlobal⟩ }] } }
  return ⟨mb.nextGlobal⟩

/-- A new declaration of a name that is not declared yet. -/
def addDeclaration (candidate : FunctionDecl) : ModuleBuilderM FunctionId := do
  let mb ← get
  require (mb.linkNameTaken candidate.linkName = false)
    (BuildFailure.call (.linkNameCollision (candidate.linkName.getD "")))
  set { mb with
    module := { mb.module with declarations := mb.module.declarations ++ [candidate] } }
  return candidate.id

def declareFunctionWithLimits (name : String) (signature : FunctionSignature) (linkage : Linkage)
    (linkName : Option String) (limits : IrLimits) : ModuleBuilderM FunctionId := do
  let mb ← get
  let candidate : FunctionDecl :=
    { id := ⟨UInt32.ofNat mb.module.declarations.length⟩, name := name, signature := signature
      linkage := linkage, linkName := linkName }
  orRaise (validateDeclWithLimits candidate limits) BuildFailure.call
  match mb.module.declarations.find? (fun d => d.name = name) with
  | some existing =>
      require ({ candidate with id := existing.id } = existing)
        (BuildFailure.call (.conflictingDeclaration name))
      return existing.id
  | none => addDeclaration candidate

def declareFunction (name : String) (signature : FunctionSignature) (linkage : Linkage)
    (linkName : Option String) : ModuleBuilderM FunctionId :=
  declareFunctionWithLimits name signature linkage linkName .default

def functionId (mb : ModuleBuilder) (name : String) : Except CallError FunctionId :=
  orThrow ((mb.module.declarations.find? fun d => d.name = name).map FunctionDecl.id)
    (CallError.unknownFunctionName name)

/-- Identities for the parameters, from left to right. -/
def freshParams (mb : ModuleBuilder) : List (String × Ty) → List Param × ModuleBuilder
  | [] => ([], mb)
  | (name, ty) :: params =>
      let rest := freshParams mb.freshValue.2 params
      ({ name := name, id := mb.freshValue.1, ty := ty } :: rest.1, rest.2)

def buildFunction (mb : ModuleBuilder) (id : FunctionId) (name : String)
    (params : List (String × Ty)) (retTy : Ty) : FunctionBuilder :=
  let p := mb.freshParams params
  let entry := p.2.freshBlock
  { mb := entry.2
    func :=
      { id := id, name := name, params := p.1, retTy := retTy
        blocks := [BasicBlock.new entry.1 "entry"], entry := entry.1
        valueTypes := p.1.map fun param => (param.id, param.ty) }
    insertBlock := entry.1 }

def beginDeclaredFunction (mb : ModuleBuilder) (id : FunctionId) (names : List String) :
    Except CallError FunctionBuilder := do
  let decl ← orThrow (mb.module.declarations.find? (·.id = id)) (CallError.unknownFunction id)
  validateSignature decl.signature
  require (mb.module.functions.all (fun f => f.id ≠ id) = true) (CallError.duplicateDefinition id)
  require (names.length = decl.signature.params.length) (CallError.definitionMismatch id)
  return mb.buildFunction id decl.name (names.zip decl.signature.params) decl.signature.ret

/-- Infallible; the verifier diagnoses duplicate names and invalid signatures. -/
def beginFunction (mb : ModuleBuilder) (name : String) (params : List (String × Ty)) (retTy : Ty) :
    FunctionBuilder :=
  let id : FunctionId := ⟨UInt32.ofNat mb.module.declarations.length⟩
  let decl : FunctionDecl :=
    { id := id, name := name, signature := .whale (params.map Prod.snd) retTy
      linkage := .internal, linkName := none }
  { mb with module := { mb.module with declarations := mb.module.declarations ++ [decl] } }
    |>.buildFunction id name params retTy

end ModuleBuilder

end Whale
