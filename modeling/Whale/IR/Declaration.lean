import Whale.IR.Budget
import Whale.IR.Module

set_option autoImplicit false

/-! # Signatures, declarations and global storage

The checks on a declaration that need nothing but the declaration itself. -/

namespace Whale

/-- Construction-order errors of the builder. -/
inductive BuilderError where
  | unknownBlock (block : BlockId)
  | unknownParameter (index count : Nat)
  | unknownValue (value : ValueId)
  | unknownGlobal (global : GlobalId)
  | invalidPointerOperands
  | terminatedBlock (block : BlockId)
  | phiAfterInstruction (block : BlockId)
  deriving DecidableEq

inductive CallError where
  | builder (e : BuilderError)
  | resourceLimit (e : LimitError)
  | unknownFunction (function : FunctionId)
  | unknownFunctionName (name : String)
  | conflictingDeclaration (name : String)
  | duplicateDefinition (function : FunctionId)
  | invalidLinkName (name : String)
  | linkNameCollision (name : String)
  | invalidSignature (reason : String)
  | definitionMismatch (function : FunctionId)
  | missingDefinition (function : FunctionId)
  | unknownValue (value : ValueId)
  | notFunctionPointer (value : ValueId)
  | argumentCount (expected got : Nat)
  | argumentType (index : Nat) (expected got : Ty)
  | returnType (expected got : Ty)
  | resultPresence
  | conventionMismatch
  | addressTypeMismatch
  | forbiddenFunctionPointerCast
  deriving DecidableEq

inductive GlobalStorageError where
  | resourceLimit (e : LimitError)
  | invalidType
  | invalidInitializer
  | readOnlyUninitialized
  | invalidAlignment
  | invalidLinkName
  | duplicateIdentity
  | duplicateName
  | linkNameCollision
  | unknownGlobal
  | addressTypeMismatch
  deriving DecidableEq

/-! ## Signatures -/

def CallError.malformed : CallError :=
  .invalidSignature "void parameters, malformed types and variadic calls are unsupported"

def CallError.sysV64Aggregate : CallError :=
  .invalidSignature "SysV64 aggregate signatures are unsupported"

def Ty.isAggregate : Ty → Bool
  | .array .. | .struct _ | .tuple _ => true
  | _ => false

/-- The checks on a signature itself. -/
def FunctionSignature.checkHead (sig : FunctionSignature) : Except CallError Unit := do
  require (sig.isVariadic = false) CallError.malformed
  require (¬ (sig.convention = .sysV64 ∧ (sig.params ++ [sig.ret]).any Ty.isAggregate = true))
    CallError.sysV64Aggregate

mutual

/-- `void` stands behind a pointer or in a signature only. -/
def Ty.hasValue : Ty → Bool
  | .void => false
  | .ptr .void => true
  | .ptr t | .array t _ => t.hasValue
  | .struct ts | .tuple ts => Ty.haveValues ts
  | _ => true

def Ty.haveValues : List Ty → Bool
  | [] => true
  | t :: ts => t.hasValue && Ty.haveValues ts

end

mutual

/-- Check a signature, its types, and then the signatures its types name. The source keeps
both kinds of pending parts on stacks, so a signature comes before its right neighbours and
after its enclosing one, as here. -/
def FunctionSignature.check : FunctionSignature → Except CallError Unit
  | .mk params ret convention isVariadic => do
      FunctionSignature.checkHead (.mk params ret convention isVariadic)
      require (Ty.haveValues params = true ∧ (ret = .void ∨ ret.hasValue = true))
        CallError.malformed
      Ty.checkNestedList params
      ret.checkNested

/-- The signatures a type names. -/
def Ty.checkNested : Ty → Except CallError Unit
  | .fnPtr sig => sig.check
  | .ptr t | .array t _ => t.checkNested
  | .struct ts | .tuple ts => Ty.checkNestedList ts
  | _ => .ok ()

def Ty.checkNestedList : List Ty → Except CallError Unit
  | [] => .ok ()
  | t :: ts => do
      t.checkNested
      Ty.checkNestedList ts

end

def validateSignatureWithLimits (sig : FunctionSignature) (limits : IrLimits) :
    Except CallError Unit := do
  let _ ← (Budget.new limits >>= fun b => b.signature sig).mapError CallError.resourceLimit
  sig.check

def validateSignature (sig : FunctionSignature) : Except CallError Unit :=
  validateSignatureWithLimits sig .default

/-! ## Declarations -/

/-- An external symbol has a name, an internal one has none. -/
def validLinkName (linkage : Linkage) (linkName : Option String) : Bool :=
  match linkage, linkName with
  | .internal, none => true
  | .external, some name => decide (name ≠ "" ∧ '\x00' ∉ name.toList)
  | _, _ => false

def validateDeclWithLimits (decl : FunctionDecl) (limits : IrLimits) : Except CallError Unit := do
  validateSignatureWithLimits decl.signature limits
  require (validLinkName decl.linkage decl.linkName = true) (CallError.invalidLinkName decl.name)

/-! ## Global storage -/

def Ty.isStorageScalar : Ty → Bool
  | .void | .array .. | .struct _ | .tuple _ => false
  | _ => true

def CallError.toStorageError : CallError → GlobalStorageError
  | .resourceLimit e => .resourceLimit e
  | _ => .invalidType

/-- `u32::is_power_of_two`. -/
def UInt32.isPowerOfTwo (n : UInt32) : Bool := n ≠ 0 && (n &&& (n - 1)) == 0

def GlobalStorage.validateWithLimits (g : GlobalStorage) (limits : IrLimits) :
    Except GlobalStorageError Unit := do
  let _ ← (Budget.new limits >>= fun b => b.ty g.ty).mapError GlobalStorageError.resourceLimit
  require (g.ty.isStorageScalar = true) GlobalStorageError.invalidType
  (validateSignatureWithLimits (.whale [g.ty] .void) limits).mapError CallError.toStorageError
  require (UInt32.isPowerOfTwo g.align = true) GlobalStorageError.invalidAlignment
  match g.init with
  | .value value => require (validConstant g.ty value = true) GlobalStorageError.invalidInitializer
  | .uninitialized => require (g.readonly = false) GlobalStorageError.readOnlyUninitialized
  require (validLinkName g.linkage g.linkName = true) GlobalStorageError.invalidLinkName

end Whale
