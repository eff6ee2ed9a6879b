import Whale.IR.Instr
import Whale.Lib.AssocMap
import Whale.Target

set_option autoImplicit false

/-! # Functions and modules -/

namespace Whale

/-! ## Source metadata -/

structure SourceFile where
  id : UInt32
  name : String
  deriving DecidableEq

/-- One-based line and column coordinates, with an exclusive end. -/
structure SourceSpan where
  file : UInt32
  line : UInt32
  column : UInt32
  endLine : UInt32
  endColumn : UInt32
  deriving DecidableEq

structure OriginalNode where
  id : UInt64
  span : Option SourceSpan
  deriving DecidableEq

/-- Terminators have an identity separate from instruction ordinals. -/
inductive SourceTarget where
  | instruction (function : FunctionId) (block : BlockId) (index : Nat)
  | terminator (function : FunctionId) (block : BlockId)
  | global (id : GlobalId)
  deriving DecidableEq

structure SourceMapping where
  target : SourceTarget
  original : UInt64
  deriving DecidableEq

structure SourceMetadata where
  files : List SourceFile
  originals : List OriginalNode
  mappings : List SourceMapping
  deriving DecidableEq

structure OriginalLocation where
  original : UInt64
  source : Option (String × SourceSpan)
  deriving DecidableEq

def SourceMetadata.original (m : SourceMetadata) (target : SourceTarget) : Option OriginalNode := do
  let mapping ← m.mappings.find? fun e => e.target = target
  m.originals.find? fun o => o.id = mapping.original

/-! ## Functions -/

structure BasicBlock where
  id : BlockId
  name : String
  instructions : List Instruction
  terminator : Option Terminator
  deriving DecidableEq

structure Param where
  name : String
  id : ValueId
  ty : Ty
  deriving DecidableEq

structure Function where
  id : FunctionId
  name : String
  params : List Param
  retTy : Ty
  blocks : List BasicBlock
  entry : BlockId
  valueTypes : List (ValueId × Ty)
  deriving DecidableEq

/-- All instructions of a function, block after block. -/
def Function.instructions (f : Function) : List Instruction :=
  f.blocks.flatMap BasicBlock.instructions

/-- The type of a value; the first annotation wins. -/
def Function.valueType (f : Function) (id : ValueId) : Option Ty := AssocMap.get id f.valueTypes

structure FunctionDecl where
  id : FunctionId
  name : String
  signature : FunctionSignature
  linkage : Linkage
  linkName : Option String
  deriving DecidableEq

/-! ## Globals -/

/-- A compile-time constant of the module. -/
structure Global where
  id : GlobalId
  name : String
  ty : Ty
  init : ConstValue
  initExpr : ConstExpr
  align : UInt32
  deriving DecidableEq

inductive GlobalStorageInit where
  | value (value : ConstValue)
  /-- Physical zero-fill does not initialize a value. -/
  | uninitialized
  deriving DecidableEq

/-- Addressable scalar storage, separate from compile-time constants. -/
structure GlobalStorage where
  id : GlobalId
  name : String
  ty : Ty
  init : GlobalStorageInit
  readonly : Bool
  align : UInt32
  linkage : Linkage
  linkName : Option String
  deriving DecidableEq

structure Module where
  target : String
  datalayout : DataLayout
  globals : List Global
  globalStorage : List GlobalStorage
  functions : List Function
  declarations : List FunctionDecl
  sources : SourceMetadata
  deriving DecidableEq

end Whale
