import Whale.Interp.Error
import Whale.Memory.Ops

set_option autoImplicit false

/-! # Preparation of a run

Before anything executes, every function the entry can reach is checked: its signature, each
instruction, the targets of its calls; sizes, GEP plans and signatures are computed once. -/

namespace Whale

/-! ## What is supported -/

mutual

/-- Types with storage the interpreter can allocate. -/
def allocationType : Ty → Bool
  | .array element _ => allocationType element
  | .struct fields | .tuple fields => allocationTypes fields
  | .ptr _ | .fnPtr _ => true
  | ty => scalarType ty

def allocationTypes : List Ty → Bool
  | [] => true
  | ty :: tys => allocationType ty && allocationTypes tys

end

def Ty.isPtr : Ty → Bool
  | .ptr _ => true
  | _ => false

def Ty.isFnPtr : Ty → Bool
  | .fnPtr _ => true
  | _ => false

/-- Casts between integers, and between integers and floats of one width. -/
def supportedCast (op : CastOp) (dstTy srcTy : Ty) : Bool :=
  match op with
  | .zExt | .sExt | .trunc | .checkedInt =>
      (srcTy = .bool || (Integer.shape srcTy).isSome) && (Integer.shape dstTy).isSome
  | .fExt | .fTrunc | .iToFS | .iToFU | .fToIS | .fToIU => true
  | .bitcast =>
      (((Integer.shape srcTy).isSome || Scalar.floatType srcTy) &&
        ((Integer.shape dstTy).isSome || Scalar.floatType dstTy)) ||
      (srcTy.isPtr && dstTy.isPtr)
  | .intToPtr | .ptrToInt => true

/-- The name of the operation when an instruction is not supported. -/
def supported : Instruction → Except String Unit
  | .neg _ ty _ =>
      require (((Integer.shape ty).isSome || Scalar.floatType ty) = true)
        "non-integer arithmetic/comparison"
  | .bin _ _ ty _ _ =>
      require ((Scalar.floatType ty || (Integer.shape ty).isSome) = true)
        "non-integer arithmetic/comparison"
  | .constDecl .. => .ok ()
  | .const _ ty _ => require (scalarType ty = true) "non-scalar constant"
  | .mov _ ty _ | .phi _ ty _ | .select _ ty _ _ _ =>
      require (valueType ty = true) "non-scalar value"
  | .not _ ty _ | .checked _ _ ty _ _ =>
      require ((Integer.shape ty).isSome = true) "non-integer arithmetic/comparison"
  | .cmp _ _ ty _ _ =>
      require ((ty = .bool || (Integer.shape ty).isSome || ty.isPtr || Scalar.floatType ty) = true)
        "non-integer arithmetic/comparison"
  | .iCmp _ _ ty _ _ =>
      require ((ty = .bool || (Integer.shape ty).isSome || ty.isPtr) = true)
        "non-integer arithmetic/comparison"
  | .fCmp _ _ ty _ _ =>
      require (Scalar.floatType ty = true) "non-integer arithmetic/comparison"
  | .cast _ op dstTy srcTy _ => require (supportedCast op dstTy srcTy = true) "unsupported cast"
  | .extract _ dstTy _ _ => require (scalarType dstTy = true) "non-scalar value"
  | .alloca _ ty _ => require (allocationType ty = true) "alloca"
  | .uninit ty _ _ => require (allocationType ty = true) "uninit"
  | .volatileLoad _ ty _ _ | .load _ ty _ _ => require (valueType ty = true) "load"
  | .volatileStore ty _ _ _ | .store ty _ _ _ => require (valueType ty = true) "store"
  | .gep .. | .globalAddr .. | .lifetimeEnd _ | .ptrDiff .. | .trapIf .. | .memcpy ..
  | .memset .. => .ok ()
  | .undef .. => .error "undef"
  | .nullFunction .. | .functionAddr .. | .call .. => .ok ()

def callValueType (ty : Ty) : Bool := scalarType ty || ty.isPtr || ty.isFnPtr

def callableSignature (signature : FunctionSignature) : Bool :=
  signature.convention = .whale && !signature.isVariadic && signature.params.all callValueType &&
    (signature.ret = .void || callValueType signature.ret)

/-! ## GEP plans -/

/-- The loop of `gep_plan` behind the first index. -/
def gepPath (ordinals : AssocMap ValueId Nat) : Ty → List ValueId → Except RunError (List GepStep)
  | _, [] => .ok []
  | selected, index :: indices =>
      match selected with
      | .array element _ => do
          let layout ← orThrow (layoutOfWithLimit element maxIrNesting).toOption RunError.panic
          let rest ← gepPath ordinals element indices
          return .stride layout.size :: rest
      | .struct fields | .tuple fields => do
          let ordinal ← orThrow (ordinals.get index) RunError.panic
          let layout ← orThrow (layoutOfWithLimit selected maxIrNesting).toOption RunError.panic
          let offset ← orThrow layout.fieldOffsets[ordinal]? RunError.panic
          let field ← orThrow fields[ordinal]? RunError.panic
          let rest ← gepPath ordinals field indices
          return .field offset :: rest
      | _ => .error .panic

def gepPlan (valueTypes : AssocMap ValueId Ty) (ordinals : AssocMap ValueId Nat) (base : ValueId)
    (indices : List ValueId) : Except RunError (List GepStep) :=
  match valueTypes.get base, indices with
  | some (.ptr _), [] => .ok []
  | some (.ptr pointee), _ :: indices => do
      let layout ← orThrow (layoutOfWithLimit pointee maxIrNesting).toOption RunError.panic
      let rest ← gepPath ordinals pointee indices
      return .stride layout.size :: rest
  | _, _ => .error .panic

/-! ## Preparing functions -/

/-- The maps every part of a run looks up. -/
structure Program where
  functions : AssocMap FunctionId Function
  declarations : AssocMap FunctionId FunctionDecl

def Program.ofModule (m : Module) : Program where
  functions := AssocMap.extend [] (m.functions.map fun f => (f.id, f))
  declarations := AssocMap.extend [] (m.declarations.map fun d => (d.id, d))

structure Prepared where
  function : Function
  valueCapacity : Nat
  blocks : AssocMap BlockId BasicBlock
  sizes : AssocMap (BlockId × Nat) (Nat × Nat)
  geps : AssocMap (BlockId × Nat) (List GepStep)
  signatures : AssocMap (BlockId × Nat) FunctionSignature

/-- What the preparation has found so far. -/
structure Preparation where
  pending : List FunctionId
  callableTargets : List FunctionId
  callableBySignature : AssocMap FunctionSignature (List FunctionId)
  indirectSignatures : AssocMap FunctionSignature ExecutionSite
  visited : List FunctionId
  prepared : AssocMap FunctionId Prepared

/-- The tables of the function being prepared. -/
structure FunctionTables where
  sizes : AssocMap (BlockId × Nat) (Nat × Nat)
  geps : AssocMap (BlockId × Nat) (List GepStep)
  signatures : AssocMap (BlockId × Nat) FunctionSignature

/-- A call may go to an internal function with a body only. -/
def callTarget (program : Program) (at' : ExecutionSite) (target : FunctionId) :
    Except RunError Unit := do
  let declaration ← orThrow (program.declarations.get target) RunError.panic
  require (declaration.linkage = .internal ∧ (program.functions.get target).isSome = true)
    (RunError.unsupportedInstruction at' "call")

/-- Push the targets of an indirect call, the first one first. -/
def pushTargets (program : Program) (at' : ExecutionSite) :
    List FunctionId → Preparation → Except RunError Preparation
  | [], p => .ok p
  | target :: targets, p => do
      callTarget program at' target
      pushTargets program at' targets { p with pending := target :: p.pending }

/-- Add a function whose address is taken. -/
def Preparation.addTarget (p : Preparation) (signature : FunctionSignature) (target : FunctionId) :
    Preparation :=
  { p with
    callableTargets := target :: p.callableTargets
    callableBySignature := p.callableBySignature.insert signature
      ((p.callableBySignature.get signature).getD [] ++ [target]) }

/-- What the preparation knows of the values of the function at hand. -/
structure FunctionValues where
  types : AssocMap ValueId Ty
  ordinals : AssocMap ValueId Nat

/-- The non-negative constants that fit a `usize`. -/
def constOrdinal : Instruction → Option (ValueId × Nat)
  | .const dst _ value | .constDecl dst _ _ value =>
      match value with
      | .i v => if 0 ≤ v.toInt ∧ v.toInt < wordBound then some (dst, v.toInt.toNat) else none
      | .u v => if v.toNat < wordBound then some (dst, v.toNat) else none
      | _ => none
  | _ => none

def FunctionValues.ofFunction (f : Function) : FunctionValues where
  types := AssocMap.extend [] f.valueTypes
  ordinals := AssocMap.extend [] (f.instructions.filterMap constOrdinal)

/-- The alignment of an allocation: large arrays take more than their elements. -/
def storageSize (ty : Ty) : Except RunError (Nat × Nat) := do
  let layout ← orThrow (layoutOfWithLimit ty maxIrNesting).toOption RunError.panic
  let large := match ty with
    | .array _ _ => decide (layout.size ≥ 16)
    | _ => false
  return (layout.size, if large then max layout.align 16 else layout.align)

def FunctionTables.addSignature (t : FunctionTables) (at' : BlockId × Nat)
    (signature : FunctionSignature) : FunctionTables :=
  { t with signatures := t.signatures.insert at' signature }

/-- Check one instruction and compute its tables. -/
def prepareInstruction (program : Program) (values : FunctionValues) (site : ExecutionSite)
    (inst : Instruction) (p : Preparation) (t : FunctionTables) :
    Except RunError (Preparation × FunctionTables) := do
  let key := (site.block, site.instruction)
  match supported inst with
  | .error operation => throw (RunError.unsupportedInstruction site operation)
  | .ok () => pure ()
  match inst with
  | .nullFunction _ signature => return (p, t.addSignature key signature)
  | .volatileLoad _ (.fnPtr signature) _ _ | .load _ (.fnPtr signature) _ _ =>
      return (p, t.addSignature key signature)
  | .call convention _ _ callee _ => do
      require (convention = .whale) (RunError.unsupportedInstruction site "call")
      match callee with
      | .direct id => do
          callTarget program site id
          return ({ p with pending := id :: p.pending }, t)
      | .indirect value =>
          match values.types.get value with
          | some (.fnPtr signature) =>
              if (p.indirectSignatures.get signature).isSome then return (p, t)
              else do
                let p' := { p with
                  indirectSignatures := p.indirectSignatures.insert signature site }
                let p' ← pushTargets program site
                  ((p.callableBySignature.get signature).getD []) p'
                return (p', t)
          | _ => throw .panic
  | .functionAddr _ target signature => do
      let t := t.addSignature key signature
      if target ∈ p.callableTargets then return (p, t)
      else
        let p' := p.addTarget signature target
        match p.indirectSignatures.get signature with
        | none => return (p', t)
        | some at' => do
            callTarget program at' target
            return ({ p' with pending := target :: p'.pending }, t)
  | .alloca _ ty _ | .uninit ty _ _ => do
      let size ← storageSize ty
      return (p, { t with sizes := t.sizes.insert key size })
  | .gep _ _ basePtr indices => do
      let plan ← gepPlan values.types values.ordinals basePtr indices
      require (¬ plan.contains (.stride 0))
        (RunError.unsupportedInstruction site "zero-sized pointer arithmetic")
      return (p, { t with geps := t.geps.insert key plan })
  | _ => return (p, t)

/-- Check the instructions of a block from number `index` on. -/
def prepareInstructions (program : Program) (values : FunctionValues) (function : FunctionId)
    (block : BlockId) (index : Nat) :
    List Instruction → Preparation → FunctionTables → Except RunError (Preparation × FunctionTables)
  | [], p, t => .ok (p, t)
  | inst :: insts, p, t => do
      let site : ExecutionSite :=
        { function := function, block := block, instruction := index, value := inst.destination }
      let (p, t) ← prepareInstruction program values site inst p t
      prepareInstructions program values function block (index + 1) insts p t

def prepareBlocks (program : Program) (values : FunctionValues) (function : FunctionId) :
    List BasicBlock → Preparation → FunctionTables → Except RunError (Preparation × FunctionTables)
  | [], p, t => .ok (p, t)
  | block :: blocks, p, t => do
      let (p, t) ← prepareInstructions program values function block.id 0 block.instructions p t
      prepareBlocks program values function blocks p t

/-- Parameters and instructions that produce a value. -/
def Function.valueCapacity (f : Function) : Nat :=
  f.params.length + (f.instructions.filter fun i => i.destination.isSome).length

/-- Prepare one function that was not visited before. -/
def prepareFunction (program : Program) (id : FunctionId) (p : Preparation) :
    Except RunError Preparation := do
  let p := { p with visited := id :: p.visited }
  let f ← orThrow (program.functions.get id) RunError.panic
  let declaration ← orThrow (program.declarations.get id) RunError.panic
  require (callableSignature declaration.signature = true) (RunError.unsupportedSignature id)
  let (p, t) ← prepareBlocks program (.ofFunction f) id f.blocks p
    { sizes := [], geps := [], signatures := [] }
  let prepared : Prepared :=
    { function := f, valueCapacity := f.valueCapacity
      blocks := AssocMap.extend [] (f.blocks.map fun b => (b.id, b))
      sizes := t.sizes, geps := t.geps, signatures := t.signatures }
  return { p with prepared := p.prepared.insert id prepared }

/-- The worklist: visited functions are skipped. Each round prepares a function that was not
visited before, so that one round for each function, and none left, is all there can be. -/
def prepareAll (program : Program) : Nat → Preparation → Except RunError Preparation
  | fuel, p =>
      match p.pending.dropWhile (· ∈ p.visited) with
      | [] => .ok { p with pending := [] }
      | id :: pending =>
          match fuel with
          | 0 => .error .panic
          | fuel + 1 => do
              let p ← prepareFunction program id { p with pending := pending }
              prepareAll program fuel p

/-! ## Arguments -/

/-- A checked library value; `origin` says whether a function belongs to the module that is
run. -/
structure RuntimeValue where
  ty : Ty
  value : Value
  origin : Bool
  deriving DecidableEq

inductive Arguments where
  | scalars (values : List ConstValue)
  | runtime (values : List RuntimeValue)

namespace Arguments

def length : Arguments → Nat
  | scalars values => values.length
  | runtime values => values.length

def value (a : Arguments) (index : Nat) : Option Value :=
  match a with
  | scalars values => values[index]?.map .scalar
  | runtime values => values[index]?.map RuntimeValue.value

def validType (a : Arguments) (index : Nat) (expected : Ty) : Bool :=
  match a with
  | scalars _ => true
  | runtime values => (values[index]?.map RuntimeValue.ty) = some expected

def validOrigin (a : Arguments) (index : Nat) : Bool :=
  match a with
  | scalars _ => true
  | runtime values =>
      match values[index]? with
      | some { value := .functionPointer { target := .defined _, .. }, origin := origin, .. } =>
          origin
      | _ => true

end Arguments

/-- The argument is a value of the parameter's type. -/
def validArgument (program : Program) (ty : Ty) : Value → Bool
  | .scalar value => scalarType ty && validConstant ty value
  | .pointer _ => ty.isPtr
  | .functionPointer pointer =>
      decide (ty = .fnPtr pointer.signature) &&
        match pointer.target with
        | .defined id =>
            match program.declarations.get id with
            | some d => decide (d.signature = pointer.signature)
            | none => false
        | .null | .invalidBits _ => true
  | .checked _ _ => false

/-- The loop over the parameters of the entry. -/
def inputValues (program : Program) (arguments : Arguments) (index : Nat) :
    List Param → Except RunError (List Value)
  | [] => .ok []
  | param :: params => do
      let argument ← orThrow (arguments.value index) RunError.panic
      require ((arguments.validType index param.ty && validArgument program param.ty argument &&
          arguments.validOrigin index) = true)
        (RunError.argumentType index param.ty)
      let rest ← inputValues program arguments (index + 1) params
      return argument :: rest

/-- The functions the arguments point to can be called from the start. -/
def argumentTargets : List Value → Preparation → Preparation
  | [], p => p
  | .functionPointer { target := .defined id, signature := signature } :: values, p =>
      if id ∈ p.callableTargets then argumentTargets values p
      else argumentTargets values (p.addTarget signature id)
  | _ :: values, p => argumentTargets values p

end Whale
