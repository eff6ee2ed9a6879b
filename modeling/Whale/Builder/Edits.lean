import Whale.Builder.Sources
import Whale.Builder.Spec

set_option autoImplicit false

/-! # What operations do to blocks

A successful operation on a function under construction makes one edit: it does nothing to the
blocks, adds an empty block, appends an instruction or sets the terminator of the open block, or
inserts an allocation into the entry block (`edits_functionOp`). -/

namespace Whale

/-! ## Edits -/

inductive Edit where
  | keep
  | create (name : String)
  | push (i : Instruction)
  | terminate (t : Terminator)
  | hoist (i : Instruction)

def Edit.isHoist : Edit → Bool
  | .hoist _ => true
  | _ => false

def BasicBlock.terminate (b : BasicBlock) (t : Terminator) : BasicBlock :=
  { b with terminator := some t }

def BasicBlock.hoist (b : BasicBlock) (i : Instruction) : BasicBlock :=
  { b with instructions := insertAlloca i b.instructions }

/-- The blocks after the edit. -/
def Edit.blocks (fb : FunctionBuilder) : Edit → List BasicBlock
  | .keep => fb.func.blocks
  | .create name => fb.func.blocks ++ [BasicBlock.new fb.mb.freshBlock.1 name]
  | .push i => updateBlock fb.insertBlock (·.push i) fb.func.blocks
  | .terminate t => updateBlock fb.insertBlock (·.terminate t) fb.func.blocks
  | .hoist i => updateBlock fb.func.entry (·.hoist i) fb.func.blocks

/-- The allocations at the front of the entry block. -/
def FunctionBuilder.entryAllocas (fb : FunctionBuilder) : Nat :=
  ((fb.findBlock fb.func.entry).map BasicBlock.allocas).getD 0

/-- The edit can be made. -/
def Edit.Allowed (fb : FunctionBuilder) : Edit → Prop
  | .terminate _ => ∃ b, fb.findBlock fb.insertBlock = some b ∧ b.terminator = none
  | .hoist i => isAlloca i = true
  | _ => True

def Edit.newBlocks : Edit → Nat
  | .create _ => 1
  | _ => 0

/-- The pending shifts after the edit. -/
def Edit.shifts (fb : FunctionBuilder) : Edit → AssocMap FunctionId (Nat × Nat)
  | .hoist _ => (fb.mb.shiftSources fb.func.id fb.entryAllocas).sourceShifts
  | _ => fb.mb.sourceShifts

/-- The builder after the edit, as far as blocks and source mappings go. -/
structure Effect (e : Edit) (fb fb' : FunctionBuilder) : Prop where
  allowed : e.Allowed fb
  id : fb'.func.id = fb.func.id
  entry : fb'.func.entry = fb.func.entry
  blocks : fb'.func.blocks = e.blocks fb
  module : fb'.mb.module = fb.mb.module
  mapped : fb'.mb.sourceMappedFunctions = fb.mb.sourceMappedFunctions
  nextBlock : fb'.mb.nextBlock = fb.mb.nextBlock + e.newBlocks
  shifts : fb'.mb.sourceShifts = e.shifts fb

/-! ## Operations that edit -/

/-- A successful run makes an edit. -/
def Edits {α : Type} (hoisting : Bool) (x : BuildM α) : Prop :=
  ∀ fb a fb', x fb = .ok a fb' → ∃ e : Edit, Effect e fb fb' ∧ e.isHoist = hoisting

variable {α β : Type} {hoisting : Bool}

theorem Effect.keep (fb : FunctionBuilder) : Effect .keep fb fb :=
  ⟨trivial, rfl, rfl, rfl, rfl, rfl, rfl, rfl⟩

theorem Reads.edits {x : BuildM α} (h : Reads x) : Edits false x := by
  intro fb a fb' hrun
  rw [h.ok fb a fb' hrun]
  exact ⟨.keep, .keep fb, rfl⟩

theorem Reads.bind_edits {x : BuildM α} {f : α → BuildM β} (hx : Reads x)
    (hf : ∀ a, Edits hoisting (f a)) : Edits hoisting (x >>= f) := by
  intro fb b fb' hrun
  obtain ⟨a, t, hfirst, hrest⟩ := bind_run_ok_iff.mp hrun
  rw [hx.ok fb a t hfirst] at hrest
  exact hf a fb b fb' hrest

theorem Edits.bind_pure {x : BuildM α} (h : Edits hoisting x) (g : α → β) :
    Edits hoisting (x >>= fun a => pure (g a)) := by
  intro fb b fb' hrun
  obtain ⟨a, t, hx, hpure⟩ := bind_run_ok_iff.mp hrun
  cases hpure
  exact h fb a fb' hx

theorem Edits.discard {x : BuildM α} (h : Edits hoisting x) : Edits hoisting (discard x) :=
  h.bind_pure fun _ => ()

theorem edits_tryWith (values : List ValueId) {op : BuildM α} (h : Edits hoisting op) :
    Edits hoisting (tryWith values op) :=
  (reads_test _).bind_edits fun _ => (reads_test _).bind_edits fun _ => h

theorem edits_push (i : Instruction) : Edits false (push i) := by
  intro fb u fb' hrun
  rw [show push i = updateCurrent (·.push i) from rfl, updateCurrent_run] at hrun
  cases hopen : fb.ensureInsertable with
  | error e =>
      rw [hopen] at hrun
      cases hrun
  | ok v =>
      rw [hopen] at hrun
      cases hrun
      exact ⟨.push i, ⟨trivial, rfl, rfl, rfl, rfl, rfl, rfl, rfl⟩, rfl⟩

theorem edits_setTerminator (t : Terminator) : Edits false (setTerminator t) := by
  intro fb u fb' hrun
  rw [show setTerminator t = updateCurrent (·.terminate t) from rfl, updateCurrent_run] at hrun
  cases hopen : fb.ensureInsertable with
  | error e =>
      rw [hopen] at hrun
      cases hrun
  | ok v =>
      rw [hopen] at hrun
      cases hrun
      obtain ⟨b, hb, hterminated⟩ := bind_ok_iff.mp hopen
      have hnone : b.terminator = none := by simpa using require_ok_iff.mp hterminated
      have hopen' : Edit.Allowed fb (.terminate t) := ⟨b, orThrow_ok_iff.mp hb, hnone⟩
      exact ⟨.terminate t, ⟨hopen', rfl, rfl, rfl, rfl, rfl, rfl, rfl⟩, rfl⟩

theorem edits_emit (ty : Ty) (instruction : ValueId → Instruction) :
    Edits false (emit ty instruction) := by
  intro fb dst fb' hrun
  rw [emit_run] at hrun
  cases hopen : fb.ensureInsertable with
  | error e =>
      rw [hopen] at hrun
      cases hrun
  | ok v =>
      rw [hopen] at hrun
      cases hrun
      exact ⟨.push (instruction _), ⟨trivial, rfl, rfl, rfl, rfl, rfl, rfl, rfl⟩, rfl⟩

theorem edits_createBlock (name : String) : Edits false (createBlock name) := by
  intro fb id fb' hrun
  cases hrun
  exact ⟨.create name, ⟨trivial, rfl, rfl, rfl, rfl, rfl, rfl, rfl⟩, rfl⟩

theorem edits_insertPoint (bb : BlockId) {x : BuildM Unit} (h : Reads x) :
    Edits false (x >>= fun _ => modify fun fb => { fb with insertBlock := bb }) := by
  refine h.bind_edits fun _ fb u fb' hrun => ?_
  cases hrun
  exact ⟨.keep, ⟨trivial, rfl, rfl, rfl, rfl, rfl, rfl, rfl⟩, rfl⟩

theorem ModuleBuilder.shiftSources_counters (mb : ModuleBuilder) (function : FunctionId)
    (position : Nat) :
    (mb.shiftSources function position).sourceMappedFunctions = mb.sourceMappedFunctions ∧
      (mb.shiftSources function position).nextBlock = mb.nextBlock := by
  unfold ModuleBuilder.shiftSources
  split
  · exact ⟨rfl, rfl⟩
  · exact ⟨rfl, rfl⟩

theorem ModuleBuilder.shiftSources_shifts {mb mb' : ModuleBuilder} {function : FunctionId}
    {position : Nat} (hmapped : mb'.sourceMappedFunctions = mb.sourceMappedFunctions)
    (hshifts : mb'.sourceShifts = mb.sourceShifts) :
    (mb'.shiftSources function position).sourceShifts =
      (mb.shiftSources function position).sourceShifts := by
  unfold ModuleBuilder.shiftSources
  rw [hmapped, hshifts]
  split
  · rfl
  · exact hshifts

theorem edits_allocaInEntry (ty : Ty) (align : UInt32) : Edits true (allocaInEntry ty align) := by
  intro fb dst fb' hrun
  rw [allocaInEntry_run] at hrun
  cases hopen : fb.ensureInsertable with
  | error e =>
      rw [hopen] at hrun
      cases hrun
  | ok v =>
      cases hentry : fb.findBlock fb.func.entry with
      | none =>
          rw [hopen, hentry] at hrun
          cases hrun
      | some entry =>
          rw [hopen, hentry] at hrun
          cases hrun
          have hfront : fb.entryAllocas = (entry.instructions.takeWhile isAlloca).length := by
            unfold FunctionBuilder.entryAllocas
            rw [hentry]
            rfl
          refine ⟨.hoist (.alloca fb.mb.freshValue.1 ty align),
            ⟨rfl, rfl, rfl, rfl, ?_, ?_, ?_, ?_⟩, rfl⟩
          · exact (ModuleBuilder.shiftSources_module _ _ _).1
          · exact (ModuleBuilder.shiftSources_counters _ _ _).1
          · exact (ModuleBuilder.shiftSources_counters _ _ _).2
          · rw [Edit.shifts, hfront]
            exact ModuleBuilder.shiftSources_shifts rfl rfl

theorem edits_ret (value : Option ValueId) : Edits false (ret value) :=
  fun fb => edits_setTerminator (.ret fb.func.retTy value) fb

theorem edits_constFloat (ty : Ty) (v : UInt64) (single : UInt32) :
    Edits false (constFloat ty v single) := by
  intro fb dst fb' hrun
  obtain ⟨bits, t, hbits, hrest⟩ := bind_run_ok_iff.mp hrun
  rw [orThrow_run] at hbits
  split at hbits
  · cases hbits
    exact edits_emit _ _ _ _ _ hrest
  · cases hbits

theorem edits_emitCall (signature : FunctionSignature) (callee : Callee) (args : List ValueId) :
    Edits false (emitCall signature callee args) := by
  unfold emitCall
  by_cases hvoid : signature.ret = .void
  · rw [if_pos hvoid]
    exact (edits_push _).bind_pure fun _ => none
  · rw [if_neg hvoid]
    exact (edits_emit _ _).bind_pure some

theorem edits_call (callee : Callee) (args : List ValueId) : Edits false (call callee args) :=
  (reads_testCall _).bind_edits fun _ => (reads_testCall _).bind_edits fun signature =>
    (reads_testCall _).bind_edits fun _ => (reads_testCall _).bind_edits fun _ =>
      (reads_testCall _).bind_edits fun _ => edits_emitCall signature callee args

/-- The operation inserts into the entry block. -/
def FunctionOp.hoists : FunctionOp → Bool
  | .allocaInEntry .. | .tryAllocaInEntry .. => true
  | _ => false

/-- Every operation on a function under construction, one case for each. -/
theorem edits_functionOp (op : FunctionOp) : Edits op.hoists op.run := by
  cases op with
  | createBlock name => exact (edits_createBlock name).discard
  | setInsertPoint bb => exact edits_insertPoint bb (reads_expect _)
  | trySetInsertPoint bb => exact edits_insertPoint bb (reads_test _)
  | tryParamValue index => exact (reads_test _).edits.discard
  | functionId name => exact (reads_testCall _).edits.discard
  | calleeSignature callee => exact (reads_testCall _).edits.discard
  | constFloat ty v single => exact (edits_constFloat ty v single).discard
  | tryConstFloat ty v single => exact (edits_tryWith _ (edits_constFloat ty v single)).discard
  | allocaInEntry ty align => exact (edits_allocaInEntry ty align).discard
  | tryAllocaInEntry ty align =>
      exact (edits_tryWith _ <| (reads_test _).bind_edits fun _ =>
        (reads_test _).bind_edits fun _ => edits_allocaInEntry ty align).discard
  | tryGlobalAddr global =>
      exact ((reads_test _).bind_edits fun _ => (reads_test _).bind_edits fun _ =>
        edits_emit _ _).discard
  | tryLifetimeEnd ptr =>
      exact edits_tryWith _ <| (reads_test _).bind_edits fun _ => edits_push _
  | tryPtrdiff lhs rhs =>
      exact (edits_tryWith _ <| (reads_test _).bind_edits fun _ => edits_emit _ _).discard
  | tryPhi ty incomings =>
      exact ((reads_test _).bind_edits fun _ => (reads_test _).bind_edits fun _ =>
        (reads_test _).bind_edits fun _ => edits_emit _ _).discard
  | tryBr target =>
      exact edits_tryWith _ <| (reads_test _).bind_edits fun _ => edits_setTerminator _
  | tryCbr cond thenBb elseBb =>
      exact edits_tryWith _ <| (reads_test _).bind_edits fun _ =>
        (reads_test _).bind_edits fun _ => edits_setTerminator _
  | br target => exact edits_setTerminator _
  | cbr cond thenBb elseBb => exact edits_setTerminator _
  | trap reason => exact edits_setTerminator _
  | tryTrap reason => exact edits_tryWith _ (edits_setTerminator _)
  | ret value => exact edits_ret value
  | tryRet value => exact edits_tryWith _ (edits_ret value)
  | nullFunction signature =>
      exact ((reads_testCall _).bind_edits fun _ => (reads_testCall _).bind_edits fun _ =>
        edits_emit _ _).discard
  | functionAddr function =>
      exact ((reads_testCall _).bind_edits fun _ => (reads_testCall _).bind_edits fun _ =>
        (reads_testCall _).bind_edits fun _ => edits_emit _ _).discard
  | call callee args => exact (edits_call callee args).discard
  | volatileStore | store | uninit | memcpy | trapIf => exact edits_push _
  | tryStore | tryUninit | tryTrapIf => exact edits_tryWith _ (edits_push _)
  | neg | not | undef | constDecl | constBool | constI32 | constInt | constUint | constFloatBits
  | add | bin | icmp | cmp | cast | checked | extract | alloca | gep | volatileLoad | load =>
      exact (edits_emit _ _).discard
  | tryNot | tryUndef | tryConstDecl | tryConstBool | tryConstI32 | tryConstInt | tryConstUint
  | tryConstFloatBits | tryAdd | tryBin | tryIcmp | tryCmp | tryChecked | tryExtract | tryAlloca
  | tryLoad => exact (edits_tryWith _ (edits_emit _ _)).discard

end Whale
