import Whale.Verifier.Operands
import Whale.Verifier.Values

set_option autoImplicit false

/-! # The control flow of a function

Dominators of blocks by iteration over the reverse postorder, and the checks that every use is
dominated by its definition. All of it is charged to a budget; a loop of the source that charges
in every iteration is a recursion here over what is left of the budget. Block indices are
natural numbers; reading at an index that is not there, and unwrapping nothing, is a panic. -/

namespace Whale

structure AnalysisBudget where
  limit : Nat
  work : Nat
  queries : Nat
  deriving DecidableEq

/-- Why an analysis stops. -/
inductive Abort where
  | error (e : VerifyError)
  | panic
  deriving DecidableEq

abbrev Analysis := EStateM Abort AnalysisBudget

def exhausted (limit : Nat) : Abort := .error (.resourceLimit ⟨.analysisWork, limit⟩)

def charge : Analysis Unit := do
  let b ← get
  require (b.work < b.limit) (exhausted b.limit)
  set { b with work := b.work + 1 }

/-- The budget is used up: what the next iteration of a loop runs into. -/
def overrun {α : Type} : Analysis α := do
  let b ← get
  throw (exhausted b.limit)

/-- A loop that charges in every iteration. -/
def withBudget {α : Type} (loop : Nat → Analysis α) : Analysis α := do
  let b ← get
  loop (b.limit - b.work)

def unwrap {α : Type} (o : Option α) : Analysis α := orThrow o Abort.panic

def fail {α : Type} (e : VerifyError) : Analysis α := throw (.error e)

/-- The blocks control goes to. -/
def Terminator.targets : Terminator → List BlockId
  | .br target => [target]
  | .cBr _ thenBb elseBb => [thenBb, elseBb]
  | .switch _ _ defaultBb cases => defaultBb :: cases.map Prod.snd
  | .ret .. | .trap _ => []

/-- The operand of a terminator. -/
def Terminator.uses : Terminator → Option ValueId
  | .cBr cond _ _ => some cond
  | .switch _ value _ _ => some value
  | .ret _ value => value
  | .br _ | .trap _ => none

/-- The operands of an instruction. -/
def instrUses : Instruction → List ValueId
  | .constDecl _ _ expression _ =>
      expression.references.filterMap fun
        | .local value => some value
        | .global _ => none
  | .globalAddr .. | .const .. | .undef .. | .nullFunction .. | .functionAddr .. => []
  | .mov _ _ src => [src]
  | .bin _ _ _ lhs rhs | .ptrDiff _ lhs rhs => [lhs, rhs]
  | .neg _ _ src | .not _ _ src => [src]
  | .cmp _ _ _ lhs rhs => [lhs, rhs]
  | .iCmp _ _ _ lhs rhs => [lhs, rhs]
  | .fCmp _ _ _ lhs rhs => [lhs, rhs]
  | .select _ _ cond onTrue onFalse => [cond, onTrue, onFalse]
  | .cast _ _ _ _ src => [src]
  | .phi _ _ incomings => incomings.map Prod.fst
  | .extract _ _ tuple _ => [tuple]
  | .checked _ _ _ lhs rhs => [lhs, rhs]
  | .alloca .. => []
  | .volatileLoad _ _ ptr _ | .load _ _ ptr _ | .uninit _ ptr _ | .lifetimeEnd ptr => [ptr]
  | .volatileStore _ value ptr _ | .store _ value ptr _ => [value, ptr]
  | .gep _ _ basePtr indices => basePtr :: indices
  | .memcpy dst src n _ => [dst, src, n]
  | .memset dst val n _ => [dst, val, n]
  | .call _ _ _ callee args =>
      match callee with
      | .indirect value => value :: args
      | .direct _ => args
  | .trapIf cond _ => [cond]

structure Cfg where
  indices : AssocMap BlockId Nat
  predecessors : List (List Nat)
  /-- `none` means structurally unreachable from the function entry. -/
  idom : List (Option Nat)
  intervals : List (Option (Nat × Nat))
  predecessorSets : List (List Nat)
  deriving DecidableEq

namespace Cfg

/-! ## Edges -/

structure Edges where
  successors : List (List Nat)
  predecessors : List (List Nat)
  deriving DecidableEq

def indicesOf (f : Function) : AssocMap BlockId Nat :=
  AssocMap.extend [] (AssocMap.positions BasicBlock.id 0 f.blocks)

/-- The edges to the targets of block `index`, each once. -/
def addTargets (indices : AssocMap BlockId Nat) (index : Nat) :
    List BlockId → List Nat → Edges → Analysis Edges
  | [], _, edges => return edges
  | target :: targets, seen, edges => do
      charge
      let target ← unwrap (indices.get target)
      if target ∈ seen then addTargets indices index targets seen edges
      else
        addTargets indices index targets (target :: seen)
          { successors := edges.successors.modify index (· ++ [target])
            predecessors := edges.predecessors.modify target (· ++ [index]) }

def addBlocks (indices : AssocMap BlockId Nat) : Nat → List BasicBlock → Edges → Analysis Edges
  | _, [], edges => return edges
  | index, block :: blocks, edges => do
      charge
      let terminator ← unwrap block.terminator
      let edges ← addTargets indices index terminator.targets [] edges
      addBlocks indices (index + 1) blocks edges

/-! ## Reverse postorder -/

/-- The blocks in the order in which the search leaves them, the last one first. An entry of the
stack is a block to visit, or to leave. -/
def postorder (successors : List (List Nat)) :
    Nat → List (Nat × Bool) → List Bool → List Nat → Analysis (List Nat)
  | _, [], _, order => return order
  | 0, _ :: _, _, _ => overrun
  | fuel + 1, (block, exiting) :: stack, seen, order => do
      charge
      if exiting then postorder successors fuel stack seen (block :: order)
      else do
        let visited ← unwrap seen[block]?
        if visited then postorder successors fuel stack seen order
        else do
          let next ← unwrap successors[block]?
          postorder successors fuel (next.map (fun n => (n, false)) ++ (block, true) :: stack)
            (seen.set block true) order

/-- The position of each block in the order. -/
def ranks (n : Nat) (order : List Nat) : List Nat :=
  order.zipIdx.foldl (fun rank e => rank.set e.1 e.2) (List.replicate n 0)

/-! ## Immediate dominators -/

section

variable (rank : List Nat) (predecessors : List (List Nat))

/-- Go up from `a` and `b` until they meet. -/
def intersect (idom : List (Option Nat)) : Nat → Nat → Nat → Analysis Nat
  | fuel, a, b =>
      if a = b then return a
      else
        match fuel with
        | 0 => overrun
        | fuel + 1 => do
            charge
            let rankA ← unwrap rank[a]?
            let rankB ← unwrap rank[b]?
            if rankA > rankB then do
              let a ← unwrap idom[a]?.join
              intersect idom fuel a b
            else do
              let b ← unwrap idom[b]?.join
              intersect idom fuel a b

/-- Where the predecessors that have a dominator meet. -/
def meet (idom : List (Option Nat)) : List Nat → Option Nat → Analysis (Option Nat)
  | [], next => return next
  | predecessor :: predecessors, next => do
      charge
      let known ← unwrap idom[predecessor]?
      if known = none then meet idom predecessors next
      else
        match next with
        | none => meet idom predecessors (some predecessor)
        | some a => do
            let a ← withBudget fun fuel => intersect rank idom fuel a predecessor
            meet idom predecessors (some a)

/-- Set the dominator of a block, and note whether that changed anything. -/
def update (block : Nat) (idom : List (Option Nat)) (changed : Bool) :
    Analysis (List (Option Nat) × Bool) := do
  let preds ← unwrap predecessors[block]?
  let next ← meet rank idom preds none
  let old ← unwrap idom[block]?
  if next ≠ old then return (idom.set block next, true)
  else return (idom, changed)

/-- One pass over the blocks. -/
def sweep : List Nat → List (Option Nat) → Bool → Analysis (List (Option Nat) × Bool)
  | [], idom, changed => return (idom, changed)
  | block :: blocks, idom, changed => do
      charge
      let (idom, changed) ← update rank predecessors block idom changed
      sweep blocks idom changed

/-- Passes until one changes nothing. -/
def solve (blocks : List Nat) : Nat → List (Option Nat) → Analysis (List (Option Nat))
  | 0, _ => overrun
  | fuel + 1, idom => do
      let (idom, changed) ← sweep rank predecessors blocks idom false
      if changed then solve blocks fuel idom
      else return idom

end

/-! ## Intervals -/

def addChildren : Nat → List (Option Nat) → List (List Nat) → Analysis (List (List Nat))
  | _, [], children => return children
  | block, parent :: parents, children => do
      charge
      match parent with
      | some parent =>
          if parent ≠ block then
            addChildren (block + 1) parents (children.modify parent (· ++ [block]))
          else addChildren (block + 1) parents children
      | none => addChildren (block + 1) parents children

/-- The times at which a walk around the tree enters and leaves each block. -/
def tour (children : List (List Nat)) :
    Nat → List (Nat × Bool) → List (Option (Nat × Nat)) → Nat →
      Analysis (List (Option (Nat × Nat)))
  | _, [], intervals, _ => return intervals
  | 0, _ :: _, _, _ => overrun
  | fuel + 1, (block, exiting) :: stack, intervals, clock => do
      charge
      if exiting then do
        let interval ← unwrap intervals[block]?.join
        tour children fuel stack (intervals.set block (some (interval.1, clock))) (clock + 1)
      else do
        let next ← unwrap children[block]?
        tour children fuel (next.map (fun n => (n, false)) ++ (block, true) :: stack)
          (intervals.set block (some (clock, clock))) (clock + 1)

/-! ## Construction -/

/-- The dominators of the blocks of `f`. Block identity, termination and branch destinations have
already passed structural validation. -/
def new (f : Function) : Analysis Cfg := do
  let indices := indicesOf f
  let n := f.blocks.length
  let edges ← addBlocks indices 0 f.blocks ⟨List.replicate n [], List.replicate n []⟩
  let entry ← unwrap (indices.get f.entry)
  -- The entry represents a fresh invocation, never a branch destination.
  let entering ← unwrap edges.predecessors[entry]?
  match entering with
  | predecessor :: _ => do
      let block ← unwrap f.blocks[predecessor]?
      fail (.entryHasPredecessor f.name f.entry block.id)
  | [] => do
      let order ← withBudget fun fuel =>
        postorder edges.successors fuel [(entry, false)] (List.replicate n false) []
      let rank := ranks n order
      let idom ← withBudget fun fuel =>
        solve rank edges.predecessors order.tail (fuel + 1)
          ((List.replicate n none).set entry (some entry))
      let children ← addChildren 0 idom (List.replicate n [])
      let intervals ← withBudget fun fuel =>
        tour children fuel [(entry, false)] (List.replicate n none) 0
      return ⟨indices, edges.predecessors, idom, intervals, edges.predecessors⟩

def dominates (cfg : Cfg) (definition usage : Nat) : Analysis Bool := do
  charge
  modify fun b => { b with queries := b.queries + 1 }
  let d ← unwrap cfg.intervals[definition]?
  let u ← unwrap cfg.intervals[usage]?
  match d, u with
  | some (start, stop), some (useStart, useStop) =>
      return decide (start ≤ useStart) && decide (useStop ≤ stop)
  | _, _ => return false

/-! ## Uses -/

/-- Where each value is defined: a parameter, or a block and a position in it. -/
def definitionsOf (f : Function) : AssocMap ValueId (Option (Nat × Nat)) :=
  AssocMap.extend (AssocMap.extend [] (f.params.map fun p => (p.id, none)))
    (f.blocks.zipIdx.flatMap fun b => b.1.instructions.zipIdx.filterMap fun ins =>
      (instrResult ins.1).map fun r => (r.1, some (b.2, ins.2)))

section

variable (f : Function) (cfg : Cfg)

/-- A value is available at a position of a block. -/
def available (value : ValueId) (block position : Nat) : Analysis Unit := do
  let definition ← orThrow ((definitionsOf f).get value)
    (Abort.error (.useOfUndefinedValue f.name value))
  -- No executable entry path exists on which to require a dominating definition.
  let dominator ← unwrap cfg.idom[block]?
  if dominator = none then return ()
  else
    match definition with
    | none => return ()
    | some (defBlock, defPosition) => do
        let valid ← if defBlock = block then pure (decide (defPosition < position))
          else cfg.dominates defBlock block
        if valid then return ()
        else do
          let b ← unwrap f.blocks[block]?
          fail (.nonDominatingValue f.name value b.id)

def verifyOperand (value : ValueId) (expected : Ty) : Analysis Unit := do
  let got ← orThrow (f.valueType value) (Abort.error (.missingValueType f.name value))
  require (got = expected) (Abort.error (.operandTypeMismatch f.name value expected got))

def invalidPhi (b : BasicBlock) (dst : ValueId) (reason : String) : Abort :=
  .error (.invalidPhi f.name b.id dst reason)

/-- The inputs of a phi; the predecessors seen at the end. -/
def verifyIncomings (block : Nat) (b : BasicBlock) (dst : ValueId) (ty : Ty) :
    List (ValueId × BlockId) → List Nat → Analysis (List Nat)
  | [], seen => return seen
  | (value, predecessor) :: incomings, seen => do
      charge
      let pred ← orThrow (cfg.indices.get predecessor)
        (invalidPhi f b dst "phi names an unknown predecessor")
      let preds ← unwrap cfg.predecessorSets[block]?
      require (pred ∈ preds) (invalidPhi f b dst "phi input is not a predecessor")
      require (pred ∉ seen) (invalidPhi f b dst "duplicate phi predecessor")
      verifyOperand f value ty
      -- A phi operand is used on its incoming edge, after that predecessor's instructions.
      let source ← unwrap f.blocks[pred]?
      available f cfg value pred source.instructions.length
      verifyIncomings block b dst ty incomings (pred :: seen)

def verifyPhi (block : Nat) (b : BasicBlock) (dst : ValueId) (ty : Ty)
    (incomings : List (ValueId × BlockId)) (pastPhi : Bool) : Analysis Unit := do
  require (pastPhi = false) (invalidPhi f b dst "phi must precede non-phi instructions")
  require (b.id ≠ f.entry) (invalidPhi f b dst "function entry has no incoming SSA value")
  require (incomings ≠ []) (invalidPhi f b dst "phi requires incoming values")
  require (ty.isStorable = true) (Abort.error (.invalidInstructionType f.name "phi" ty))
  let seen ← verifyIncomings f cfg block b dst ty incomings []
  let preds ← unwrap cfg.predecessors[block]?
  require (seen.length = preds.length) (invalidPhi f b dst "phi is missing a predecessor")

def verifyUses (block position : Nat) : List ValueId → Analysis Unit
  | [] => return ()
  | value :: values => do
      available f cfg value block position
      verifyUses block position values

def verifyInstructions (block : Nat) (b : BasicBlock) :
    Nat → List Instruction → Bool → Analysis Unit
  | _, [], _ => return ()
  | position, ins :: instructions, pastPhi => do
      charge
      match ins with
      | .phi dst ty incomings => do
          verifyPhi f cfg block b dst ty incomings pastPhi
          verifyInstructions block b (position + 1) instructions pastPhi
      | ins => do
          verifyUses f cfg block position (instrUses ins)
          verifyInstructions block b (position + 1) instructions true

/-- The operand of a terminator, if it has one. -/
def verifyUse (block position : Nat) : Option ValueId → Analysis Unit
  | some value => available f cfg value block position
  | none => return ()

def verifyBlocks : Nat → List BasicBlock → Analysis Unit
  | _, [] => return ()
  | block, b :: blocks => do
      verifyInstructions f cfg block b 0 b.instructions false
      let terminator ← unwrap b.terminator
      verifyUse f cfg block b.instructions.length terminator.uses
      verifyBlocks (block + 1) blocks

end

def verify (f : Function) : Analysis Unit := do
  let cfg ← new f
  verifyBlocks f cfg 0 f.blocks

end Cfg

end Whale
