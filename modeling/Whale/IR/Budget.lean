import Mathlib.Tactic.Common
import Whale.IR.Instr
import Whale.IR.Layout

set_option autoImplicit false

/-! # Limits of IR traversals

The limits, and the budget that the nodes of a traversal are counted against. -/

namespace Whale

structure IrLimits where
  maxTypeDepth : Nat
  maxConstDepth : Nat
  /-- Total traversal nodes, including annotated types and expression nodes. -/
  maxNodes : Nat
  maxInputBytes : Nat
  maxTokens : Nat
  /-- Shared budget for CFG construction, dominance analysis and phi checks. -/
  maxAnalysisWork : Nat
  deriving DecidableEq

def IrLimits.default : IrLimits where
  maxTypeDepth := 128
  maxConstDepth := 128
  maxNodes := 1000000
  maxInputBytes := 8 * 1024 * 1024
  maxTokens := 1000000
  maxAnalysisWork := 16 * 1024 * 1024

/-! ## Bounded traversal of types and expressions

Before a type is cloned, compared or printed its nodes are counted against a budget. The
traversals of the source keep a list of what is pending; its length enters the check on wide
nodes, so it is passed along here. -/

inductive Resource where
  | typeDepth
  | constantDepth
  | nodes
  | inputBytes
  | tokens
  | configuration
  | analysisWork
  deriving DecidableEq

structure LimitError where
  resource : Resource
  limit : Nat
  deriving DecidableEq

def IrLimits.validate (limits : IrLimits) : Except LimitError Unit :=
  require (¬ (limits.maxTypeDepth > maxIrNesting ∨ limits.maxConstDepth > maxIrNesting))
    (LimitError.mk .configuration maxIrNesting)

structure Budget where
  limits : IrLimits
  remaining : Nat
  deriving DecidableEq

namespace Budget

def new (limits : IrLimits) : Except LimitError Budget := do
  limits.validate
  return { limits := limits, remaining := limits.maxNodes }

def nodeError (b : Budget) : LimitError where
  resource := .nodes
  limit := b.limits.maxNodes

def nodes (b : Budget) (n : Nat) : Except LimitError Budget := do
  let remaining ← orThrow (checkedSub b.remaining n) b.nodeError
  return { b with remaining := remaining }

/-- The checks on each node of a type. -/
def enterType (b : Budget) (depth : Nat) : Except LimitError Budget := do
  let b ← b.nodes 1
  require (depth ≤ b.limits.maxTypeDepth)
    (LimitError.mk .typeDepth b.limits.maxTypeDepth)
  return b

mutual

/-- Count a type at `depth` while `pending` other nodes wait. -/
def visitTy (b : Budget) (pending depth : Nat) : Ty → Except LimitError Budget
  | .ptr t | .array t _ => do
      let b ← b.enterType depth
      visitTy b pending (depth + 1) t
  | .struct ts | .tuple ts => do
      let b ← b.enterType depth
      require (ts.length ≤ b.remaining - pending) b.nodeError
      visitTys b pending (depth + 1) ts
  | .fnPtr sig => do
      let b ← b.enterType depth
      visitFnPtr b pending (depth + 1) sig
  | _ => b.enterType depth

/-- Count the elements of a list of types, from left to right. -/
def visitTys (b : Budget) (pending depth : Nat) : List Ty → Except LimitError Budget
  | [] => .ok b
  | t :: ts => do
      let b ← visitTy b (pending + ts.length) depth t
      visitTys b pending depth ts

/-- The parameters of a function pointer come before its return type. -/
def visitFnPtr (b : Budget) (pending depth : Nat) : FunctionSignature → Except LimitError Budget
  | .mk params ret _ _ => do
      require (params.length < b.remaining - pending) b.nodeError
      let b ← visitTys b (pending + 1) depth params
      visitTy b pending depth ret

end

def ty (b : Budget) (root : Ty) : Except LimitError Budget := b.visitTy 0 0 root

def signature (b : Budget) (sig : FunctionSignature) : Except LimitError Budget := do
  let b ← b.nodes 1
  let b ← b.ty sig.ret
  sig.params.foldlM ty b

mutual

/-- Count an expression and its annotated types. -/
def visitExpression (b : Budget) (depth : Nat) : ConstExpr → Except LimitError Budget
  | .mk ty kind => do
      let b ← b.nodes 1
      require (depth ≤ b.limits.maxConstDepth)
        (LimitError.mk .constantDepth b.limits.maxConstDepth)
      let b ← b.ty ty
      visitKind b (depth + 1) kind

def visitKind (b : Budget) (depth : Nat) : ConstExprKind → Except LimitError Budget
  | .neg value | .not value => visitExpression b depth value
  | .binary _ left right | .compare _ left right => do
      let b ← visitExpression b depth left
      visitExpression b depth right
  | .literal _ | .reference _ => .ok b

end

def expression (b : Budget) (root : ConstExpr) : Except LimitError Budget :=
  b.visitExpression 0 root

end Budget

end Whale
