import Mathlib.Tactic.Common
import Whale.IR.Types

set_option autoImplicit false

/-! # Source annotations

Optional identities and positions of the frontend's original nodes. -/

namespace Whale

structure FrontendSource where
  file : String
  line : UInt32
  column : UInt32
  endLine : UInt32
  endColumn : UInt32
  deriving DecidableEq

structure SourceAnnotation where
  id : UInt64
  source : Option FrontendSource
  deriving DecidableEq

end Whale

/-! # The frontend AST

The trees a frontend hands over: types, expressions, statements, and the program made of
declarations, global constants and functions. Widths are 16-bit, array lengths 64-bit
values, as in the source. -/

namespace Whale.Frontend

mutual

/-- A type as the frontend writes it. -/
inductive TypeRef where
  | void
  | bool
  | int (bits : UInt16) (signed : Bool)
  | float (bits : UInt16)
  | ptr (inner : TypeRef)
  | fnPtr (sig : SignatureRef)
  | array (elem : TypeRef) (len : UInt64)
  | struct (fields : List StructField)
  | opaqueType (name : String)

inductive SignatureRef where
  | mk (params : List TypeRef) (ret : TypeRef) (convention : CallingConvention)
      (isVariadic : Bool)

inductive StructField where
  | mk (name : String) (ty : TypeRef)

end

def SignatureRef.params : SignatureRef → List TypeRef
  | mk params _ _ _ => params

def SignatureRef.ret : SignatureRef → TypeRef
  | mk _ ret _ _ => ret

def SignatureRef.convention : SignatureRef → CallingConvention
  | mk _ _ convention _ => convention

def SignatureRef.isVariadic : SignatureRef → Bool
  | mk _ _ _ isVariadic => isVariadic

def StructField.name : StructField → String
  | mk name _ => name

def StructField.ty : StructField → TypeRef
  | mk _ ty => ty

inductive CmpOpRef where
  | eq
  | ne
  | lt
  | le
  | gt
  | ge
  deriving DecidableEq

inductive BinOpRef where
  | add
  | sub
  | mul
  | bitAnd
  | bitOr
  | bitXor
  | div
  | rem
  | shiftLeft
  | shiftRight
  | logicalAnd
  | logicalOr
  deriving DecidableEq

inductive Lit where
  | bool (value : Bool)
  | int (bits : UInt16) (signed : Bool) (value : String)
  | float (bits : UInt16) (value : String)
  deriving DecidableEq

/-- `numeric` selects source-signed extension, truncation, or same-width bitcast.
`checked` requires mathematical value preservation, including signedness. -/
inductive IntegerCast where
  | numeric
  | checked
  deriving DecidableEq

mutual

inductive Expr where
  | located (note : SourceAnnotation) (expression : Expr)
  | struct (ty : TypeRef) (fields : List FieldInit)
  | array (ty : TypeRef) (elements : List Expr)
  | field (base : Expr) (layout : TypeRef) (name : String)
  | index (base : Expr) (idx : Expr)
  | addressOf (place : Expr)
  | deref (pointer : Expr)
  | volatileLoad (pointer : Expr)
  | pointerOffset (base : Expr) (idx : Expr)
  | bitNot (value : Expr)
  | neg (value : Expr)
  | cast (value : Expr) (ty : TypeRef) (kind : IntegerCast)
  | functionRef (name : String)
  | nullFunction (sig : SignatureRef)
  | call (callee : CalleeRef) (args : List Expr)
  | var (name : String)
  | lit (lit : Lit)
  | binary (left : Expr) (op : BinOpRef) (right : Expr)
  | cmp (left : Expr) (op : CmpOpRef) (right : Expr)

inductive CalleeRef where
  | direct (name : String)
  | indirect (callee : Expr)

inductive FieldInit where
  | mk (name : String) (value : Expr)

end

def FieldInit.name : FieldInit → String
  | mk name _ => name

def FieldInit.value : FieldInit → Expr
  | mk _ value => value

inductive Stmt where
  | located (note : SourceAnnotation) (statement : Stmt)
  | return (value : Option Expr)
  | volatileStore (pointer : Expr) (value : Expr)
  | store (place : Expr) (value : Expr)
  | constDecl (name : String) (ty : TypeRef) (init : Expr)
  | varDecl (name : String) (ty : TypeRef) (init : Option Expr)
  | assign (name : String) (value : Expr)
  | exprStmt (value : Expr)
  | ifElse (cond : Expr) (thenBody : List Stmt) (elseBody : List Stmt)
  | while (cond : Expr) (body : List Stmt)
  | break
  | continue

structure Parameter where
  name : String
  ty : TypeRef

structure Function where
  convention : CallingConvention
  linkage : Linkage
  linkName : Option String
  name : String
  parameters : List Parameter
  returnType : TypeRef
  body : List Stmt

structure GlobalConst where
  name : String
  ty : TypeRef
  init : Expr

structure FunctionDeclaration where
  name : String
  signature : SignatureRef
  linkage : Linkage
  linkName : Option String

structure Program where
  declarations : List FunctionDeclaration
  globals : List GlobalConst
  functions : List Function

end Whale.Frontend
