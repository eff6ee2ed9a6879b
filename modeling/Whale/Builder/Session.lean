import Whale.Builder.Ops

set_option autoImplicit false

/-! # Sessions with the builder

A program that builds a module calls the operations one after the other. Between
`begin` and `finish` only the operations on the function under construction can be called,
outside only those on the module; a function builder may also be dropped. A panic ends the
program. -/

namespace Whale

/-! ## Operations -/

inductive ModuleOp where
  | addGlobal (name : String) (ty : Ty) (init : ConstValue) (align : UInt32)
  | addGlobalConst (name : String) (expression : ConstExpr) (init : ConstValue) (align : UInt32)
  | tryAddGlobalStorage (storage : GlobalStorage)
  | declareFunction (name : String) (signature : FunctionSignature) (linkage : Linkage)
      (linkName : Option String)
  | declareFunctionWithLimits (name : String) (signature : FunctionSignature) (linkage : Linkage)
      (linkName : Option String) (limits : IrLimits)

def ModuleOp.run : ModuleOp → ModuleBuilderM Unit
  | .addGlobal name ty init align => discard (ModuleBuilder.addGlobal name ty init align)
  | .addGlobalConst name expression init align =>
      discard (ModuleBuilder.addGlobalConst name expression init align)
  | .tryAddGlobalStorage storage => discard (ModuleBuilder.tryAddGlobalStorage storage)
  | .declareFunction name signature linkage linkName =>
      discard (ModuleBuilder.declareFunction name signature linkage linkName)
  | .declareFunctionWithLimits name signature linkage linkName limits =>
      discard (ModuleBuilder.declareFunctionWithLimits name signature linkage linkName limits)

inductive FunctionOp where
  | createBlock (name : String)
  | setInsertPoint (bb : BlockId)
  | trySetInsertPoint (bb : BlockId)
  | tryParamValue (index : Nat)
  | neg (ty : Ty) (src : ValueId)
  | not (ty : Ty) (src : ValueId)
  | tryNot (ty : Ty) (src : ValueId)
  | undef (ty : Ty)
  | tryUndef (ty : Ty)
  | constDecl (name : String) (expression : ConstExpr) (value : ConstValue)
  | tryConstDecl (name : String) (expression : ConstExpr) (value : ConstValue)
  | constBool (v : Bool)
  | tryConstBool (v : Bool)
  | constI32 (v : Int32)
  | tryConstI32 (v : Int32)
  | constInt (ty : Ty) (v : BitVec 128)
  | tryConstInt (ty : Ty) (v : BitVec 128)
  | constUint (ty : Ty) (v : BitVec 128)
  | tryConstUint (ty : Ty) (v : BitVec 128)
  | constFloat (ty : Ty) (v : UInt64) (single : UInt32)
  | tryConstFloat (ty : Ty) (v : UInt64) (single : UInt32)
  | constFloatBits (ty : Ty) (v : FloatBits)
  | tryConstFloatBits (ty : Ty) (v : FloatBits)
  | add (ty : Ty) (lhs rhs : ValueId)
  | tryAdd (ty : Ty) (lhs rhs : ValueId)
  | bin (op : BinOp) (ty : Ty) (lhs rhs : ValueId)
  | tryBin (op : BinOp) (ty : Ty) (lhs rhs : ValueId)
  | icmp (pred : ICmpPred) (ty : Ty) (lhs rhs : ValueId)
  | tryIcmp (pred : ICmpPred) (ty : Ty) (lhs rhs : ValueId)
  | cmp (op : CmpOp) (ty : Ty) (lhs rhs : ValueId)
  | tryCmp (op : CmpOp) (ty : Ty) (lhs rhs : ValueId)
  | cast (op : CastOp) (srcTy dstTy : Ty) (src : ValueId)
  | checked (op : CheckedOp) (ty : Ty) (lhs rhs : ValueId)
  | tryChecked (op : CheckedOp) (ty : Ty) (lhs rhs : ValueId)
  | extract (dstTy : Ty) (tuple : ValueId) (index : UInt32)
  | tryExtract (dstTy : Ty) (tuple : ValueId) (index : UInt32)
  | alloca (ty : Ty) (align : UInt32)
  | tryAlloca (ty : Ty) (align : UInt32)
  | allocaInEntry (ty : Ty) (align : UInt32)
  | tryAllocaInEntry (ty : Ty) (align : UInt32)
  | gep (basePtr : ValueId) (indices : List ValueId) (dstTy : Ty)
  | volatileLoad (ty : Ty) (ptr : ValueId) (align : UInt32)
  | volatileStore (ty : Ty) (value ptr : ValueId) (align : UInt32)
  | load (ty : Ty) (ptr : ValueId) (align : UInt32)
  | tryLoad (ty : Ty) (ptr : ValueId) (align : UInt32)
  | store (ty : Ty) (value ptr : ValueId) (align : UInt32)
  | tryStore (ty : Ty) (value ptr : ValueId) (align : UInt32)
  | uninit (ty : Ty) (ptr : ValueId) (align : UInt32)
  | tryUninit (ty : Ty) (ptr : ValueId) (align : UInt32)
  | memcpy (dst src n : ValueId) (align : UInt32)
  | trapIf (cond : ValueId) (reason : String)
  | tryTrapIf (cond : ValueId) (reason : String)
  | tryGlobalAddr (global : GlobalId)
  | tryLifetimeEnd (ptr : ValueId)
  | tryPtrdiff (lhs rhs : ValueId)
  | tryPhi (ty : Ty) (incomings : List (ValueId × BlockId))
  | br (target : BlockId)
  | tryBr (target : BlockId)
  | cbr (cond : ValueId) (thenBb elseBb : BlockId)
  | tryCbr (cond : ValueId) (thenBb elseBb : BlockId)
  | ret (value : Option ValueId)
  | tryRet (value : Option ValueId)
  | trap (reason : String)
  | tryTrap (reason : String)
  | functionId (name : String)
  | calleeSignature (callee : Callee)
  | nullFunction (signature : FunctionSignature)
  | functionAddr (function : FunctionId)
  | call (callee : Callee) (args : List ValueId)

def FunctionOp.run : FunctionOp → BuildM Unit
  | .createBlock name => discard (Whale.createBlock name)
  | .setInsertPoint bb => Whale.setInsertPoint bb
  | .trySetInsertPoint bb => Whale.trySetInsertPoint bb
  | .tryParamValue index => discard (test (·.paramValue? index))
  | .neg ty src => discard (Whale.neg ty src)
  | .not ty src => discard (not' ty src)
  | .tryNot ty src => discard (tryWith [src] (not' ty src))
  | .undef ty => discard (Whale.undef ty)
  | .tryUndef ty => discard (tryWith [] (Whale.undef ty))
  | .constDecl name expression value => discard (Whale.constDecl name expression value)
  | .tryConstDecl name expression value =>
      discard (tryWith [] (Whale.constDecl name expression value))
  | .constBool v => discard (Whale.constBool v)
  | .tryConstBool v => discard (tryWith [] (Whale.constBool v))
  | .constI32 v => discard (Whale.constI32 v)
  | .tryConstI32 v => discard (tryWith [] (Whale.constI32 v))
  | .constInt ty v => discard (Whale.constInt ty v)
  | .tryConstInt ty v => discard (tryWith [] (Whale.constInt ty v))
  | .constUint ty v => discard (Whale.constUint ty v)
  | .tryConstUint ty v => discard (tryWith [] (Whale.constUint ty v))
  | .constFloat ty v single => discard (Whale.constFloat ty v single)
  | .tryConstFloat ty v single => discard (tryWith [] (Whale.constFloat ty v single))
  | .constFloatBits ty v => discard (Whale.constFloatBits ty v)
  | .tryConstFloatBits ty v => discard (tryWith [] (Whale.constFloatBits ty v))
  | .add ty lhs rhs => discard (Whale.add ty lhs rhs)
  | .tryAdd ty lhs rhs => discard (tryWith [lhs, rhs] (Whale.add ty lhs rhs))
  | .bin op ty lhs rhs => discard (Whale.bin op ty lhs rhs)
  | .tryBin op ty lhs rhs => discard (tryWith [lhs, rhs] (Whale.bin op ty lhs rhs))
  | .icmp pred ty lhs rhs => discard (Whale.icmp pred ty lhs rhs)
  | .tryIcmp pred ty lhs rhs => discard (tryWith [lhs, rhs] (Whale.icmp pred ty lhs rhs))
  | .cmp op ty lhs rhs => discard (Whale.cmp op ty lhs rhs)
  | .tryCmp op ty lhs rhs => discard (tryWith [lhs, rhs] (Whale.cmp op ty lhs rhs))
  | .cast op srcTy dstTy src => discard (cast' op srcTy dstTy src)
  | .checked op ty lhs rhs => discard (Whale.checked op ty lhs rhs)
  | .tryChecked op ty lhs rhs => discard (tryWith [lhs, rhs] (Whale.checked op ty lhs rhs))
  | .extract dstTy tuple index => discard (Whale.extract dstTy tuple index)
  | .tryExtract dstTy tuple index => discard (tryWith [tuple] (Whale.extract dstTy tuple index))
  | .alloca ty align => discard (Whale.alloca ty align)
  | .tryAlloca ty align => discard (tryWith [] (Whale.alloca ty align))
  | .allocaInEntry ty align => discard (Whale.allocaInEntry ty align)
  | .tryAllocaInEntry ty align => discard (Whale.tryAllocaInEntry ty align)
  | .gep basePtr indices dstTy => discard (Whale.gep basePtr indices dstTy)
  | .volatileLoad ty ptr align => discard (Whale.volatileLoad ty ptr align)
  | .volatileStore ty value ptr align => Whale.volatileStore ty value ptr align
  | .load ty ptr align => discard (Whale.load ty ptr align)
  | .tryLoad ty ptr align => discard (tryWith [ptr] (Whale.load ty ptr align))
  | .store ty value ptr align => Whale.store ty value ptr align
  | .tryStore ty value ptr align => tryWith [value, ptr] (Whale.store ty value ptr align)
  | .uninit ty ptr align => Whale.uninit ty ptr align
  | .tryUninit ty ptr align => tryWith [ptr] (Whale.uninit ty ptr align)
  | .memcpy dst src n align => Whale.memcpy dst src n align
  | .trapIf cond reason => Whale.trapIf cond reason
  | .tryTrapIf cond reason => tryWith [cond] (Whale.trapIf cond reason)
  | .tryGlobalAddr global => discard (Whale.tryGlobalAddr global)
  | .tryLifetimeEnd ptr => Whale.tryLifetimeEnd ptr
  | .tryPtrdiff lhs rhs => discard (Whale.tryPtrdiff lhs rhs)
  | .tryPhi ty incomings => discard (Whale.tryPhi ty incomings)
  | .br target => Whale.br target
  | .tryBr target => Whale.tryBr target
  | .cbr cond thenBb elseBb => Whale.cbr cond thenBb elseBb
  | .tryCbr cond thenBb elseBb => Whale.tryCbr cond thenBb elseBb
  | .ret value => Whale.ret value
  | .tryRet value => tryWith value.toList (Whale.ret value)
  | .trap reason => Whale.trap reason
  | .tryTrap reason => tryWith [] (Whale.trap reason)
  | .functionId name => discard (testCall fun fb => fb.mb.functionId name)
  | .calleeSignature callee => discard (testCall (·.calleeSignature callee))
  | .nullFunction signature => discard (Whale.nullFunction signature)
  | .functionAddr function => discard (Whale.functionAddr function)
  | .call callee args => discard (Whale.call callee args)

/-! ## Sessions -/

inductive BuilderState where
  | idle (mb : ModuleBuilder)
  | building (fb : FunctionBuilder)
  deriving DecidableEq

namespace BuilderState

def mb : BuilderState → ModuleBuilder
  | idle mb => mb
  | building fb => fb.mb

/-- How many values have been defined. -/
def nextValue (s : BuilderState) : Nat := s.mb.nextValue

end BuilderState

inductive BuilderOp where
  | module (op : ModuleOp)
  | beginFunction (name : String) (params : List (String × Ty)) (retTy : Ty)
  | beginDeclaredFunction (id : FunctionId) (names : List String)
  | function (op : FunctionOp)
  | finish
  | drop

/-- The result of a call: whether it failed, and the state after it. -/
abbrev CallOutcome := Option BuildFailure × BuilderState

/-- The outcome of an operation that keeps the kind of the state. -/
def outcome {σ : Type} (kind : σ → BuilderState) (x : EStateM BuildFailure σ Unit) (s : σ) :
    CallOutcome :=
  match x s with
  | .ok _ s' => (none, kind s')
  | .error e s' => (some e, kind s')

/-- One call; `none` when the call cannot be written in this state. -/
def BuilderOp.call : BuilderOp → BuilderState → Option CallOutcome
  | .module op, .idle mb => some (outcome .idle op.run mb)
  | .beginFunction name params retTy, .idle mb =>
      some (none, .building (mb.beginFunction name params retTy))
  | .beginDeclaredFunction id names, .idle mb =>
      match mb.beginDeclaredFunction id names with
      | .ok fb => some (none, .building fb)
      | .error e => some (some (.call e), .idle mb)
  | .function op, .building fb => some (outcome .building op.run fb)
  | .finish, .building fb => some (none, .idle fb.finish)
  | .drop, .building fb => some (none, .idle fb.mb)
  | _, _ => none

/-- The state the program goes on in. -/
def BuilderOp.step (op : BuilderOp) (s : BuilderState) : Option BuilderState :=
  match op.call s with
  | some (failure, s') => if failure = some .panic then none else some s'
  | none => none

def runBuilder (ops : List BuilderOp) (s : BuilderState) : Option BuilderState :=
  ops.foldlM (fun s op => op.step s) s

end Whale
