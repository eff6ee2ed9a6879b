import Whale.IR.ConstEval
import Whale.IR.Declaration

set_option autoImplicit false

/-! # What the verifier reports -/

namespace Whale

structure SourceMetadataError where
  reason : String
  deriving DecidableEq

inductive VerifyError where
  | globalStorage (name : String) (global : GlobalId) (reason : GlobalStorageError)
  | sourceMetadata (e : SourceMetadataError)
  | resourceLimit (e : LimitError)
  | forbiddenUndef (func : String) (value : ValueId)
  | invalidMemoryLayout (func operation : String) (reason : LayoutError)
  | invalidCast (func : String) (value : ValueId) (op : CastOp) (source destination : Ty)
  | call (func : String) (reason : CallError)
  | target (e : TargetError)
  | invalidConstExpression (scope : String) (declaration : ConstRef) (reason : ConstEvalError)
  | nonDominatingValue (func : String) (value : ValueId) (block : BlockId)
  | invalidPhi (func : String) (block : BlockId) (value : ValueId) (reason : String)
  | invalidGep (func : String) (value : ValueId) (index : Option Nat) (reason : String)
  | invalidInstructionType (func operation : String) (ty : Ty)
  | operandTypeMismatch (func : String) (value : ValueId) (expected got : Ty)
  | invalidMemoryAlignment (func : String) (align : UInt32)
  | invalidSwitchCase (func : String) (block : BlockId) (index : Nat)
  | duplicateSwitchCase (func : String) (block : BlockId) (index : Nat)
  | duplicateFunction (name : String)
  | duplicateGlobal (name : String)
  | invalidConstant (func : String) (value : ValueId) (ty : Ty) (payload : ConstValue)
  | invalidGlobalInitializer (name : String) (ty : Ty) (payload : ConstValue)
  | invalidGlobalAlignment (name : String) (align : UInt32)
  | conditionTypeMismatch (func : String) (value : ValueId) (got : Ty)
  | duplicateBlock (func : String) (block : BlockId)
  | duplicateValue (func : String) (value : ValueId)
  | duplicateValueType (func : String) (value : ValueId)
  | unexpectedValueType (func : String) (value : ValueId)
  | valueTypeMismatch (func : String) (value : ValueId) (expected got : Ty)
  | invalidEntryBlock (func : String) (entry : BlockId)
  | entryHasPredecessor (func : String) (entry predecessor : BlockId)
  | invalidBranchTarget (func : String) (block target : BlockId)
  | missingValueType (func : String) (value : ValueId)
  | voidParameter (func param : String)
  | unterminatedBlock (func block : String)
  | retTypeMismatch (func : String) (expected : Ty) (got : Option Ty)
  | useOfUndefinedValue (func : String) (value : ValueId)
  deriving DecidableEq

end Whale
