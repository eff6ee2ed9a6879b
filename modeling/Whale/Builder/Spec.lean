import Whale.Builder.Session
import Whale.Verifier.Values

set_option autoImplicit false

/-! # The builder's invariant

In every function under construction the type table lists the definitions, each once and with
its type, and every identity is below the next one (`ValuesInv`). An operation either checks
first and then emits, or panics, so a failure leaves the builder as it was (`Sound`). -/

namespace Whale

/-! ## The invariant -/

/-- The values of a function when `next` values have been defined. -/
structure ValuesInv (f : Function) (next : Nat) : Prop where
  types : f.valueTypes.Perm f.definitions
  nodup : (f.definitions.map Prod.fst).Nodup
  below : ∀ d ∈ f.definitions, d.1.num.toNat < next

/-- This many values can be told apart. -/
def valueBound : Nat := 2 ^ 32

theorem ValuesInv.same {f f' : Function} {next next' : Nat} (h : ValuesInv f next)
    (hnext : next ≤ next') (hdefinitions : f'.definitions.Perm f.definitions)
    (htypes : f'.valueTypes = f.valueTypes) : ValuesInv f' next' where
  types := by
    rw [htypes]
    exact h.types.trans hdefinitions.symm
  nodup := (hdefinitions.map Prod.fst).nodup_iff.mpr h.nodup
  below := fun d hd => Nat.lt_of_lt_of_le (h.below d (hdefinitions.mem_iff.mp hd)) hnext

theorem ValuesInv.mono {f : Function} {next next' : Nat} (h : ValuesInv f next)
    (hnext : next ≤ next') : ValuesInv f next' := h.same hnext (.refl _) rfl

/-- The next value may be defined, and is annotated. -/
theorem ValuesInv.define {f f' : Function} {next : Nat} (h : ValuesInv f next)
    (hbound : next < valueBound) {ty : Ty}
    (hdefinitions : f'.definitions.Perm ((⟨UInt32.ofNat next⟩, ty) :: f.definitions))
    (htypes : f'.valueTypes = f.valueTypes ++ [(⟨UInt32.ofNat next⟩, ty)]) :
    ValuesInv f' (next + 1) := by
  have hnum : (UInt32.ofNat next).toNat = next := by
    rw [UInt32.toNat_ofNat']
    exact Nat.mod_eq_of_lt hbound
  refine ⟨?_, ?_, fun d hd => ?_⟩
  · rw [htypes]
    refine (List.perm_append_comm.trans ?_).trans hdefinitions.symm
    exact h.types.cons _
  · rw [(hdefinitions.map Prod.fst).nodup_iff, List.map_cons, List.nodup_cons]
    refine ⟨fun hmem => ?_, h.nodup⟩
    obtain ⟨d, hd, heq⟩ := List.mem_map.mp hmem
    have hlt := h.below d hd
    rw [heq] at hlt
    simp only [hnum] at hlt
    omega
  · rcases List.mem_cons.mp (hdefinitions.mem_iff.mp hd) with rfl | hd
    · simp only [hnum]
      omega
    · exact Nat.lt_succ_of_lt (h.below d hd)

/-- A function that satisfies the invariant passes the verifier's check. -/
theorem ValuesInv.verifies {f : Function} {next : Nat} (h : ValuesInv f next) :
    verifyValueTypes f = .ok () := by
  have hnodup : (f.valueTypes.map Prod.fst).Nodup :=
    (h.types.map Prod.fst).nodup_iff.mpr h.nodup
  refine verifyValueTypes_ok_iff.mpr ⟨hnodup, fun d hd => ?_, fun e he => ?_⟩
  · exact AssocMap.get_of_mem hnodup (h.types.mem_iff.mpr hd)
  · exact List.mem_map_of_mem (h.types.mem_iff.mp he)

def ModuleBuilder.Inv (mb : ModuleBuilder) : Prop :=
  ∀ f ∈ mb.module.functions, ValuesInv f mb.nextValue

structure FunctionBuilder.Inv (fb : FunctionBuilder) : Prop where
  module : fb.mb.Inv
  function : ValuesInv fb.func fb.mb.nextValue

theorem ModuleBuilder.Inv.mono {mb mb' : ModuleBuilder} (h : mb.Inv)
    (hfunctions : mb'.module.functions = mb.module.functions)
    (hnext : mb.nextValue ≤ mb'.nextValue) : mb'.Inv := by
  intro f hf
  rw [hfunctions] at hf
  exact (h f hf).mono hnext

/-! ## Editing a block -/

theorem updateBlock_perm {bb : BlockId} {f : BasicBlock → BasicBlock} {i : Instruction}
    (hf : ∀ b, (f b).instructions.Perm (i :: b.instructions)) {blocks : List BasicBlock}
    (hfound : (blocks.find? (·.id = bb)).isSome = true) :
    ((updateBlock bb f blocks).flatMap BasicBlock.instructions).Perm
      (i :: blocks.flatMap BasicBlock.instructions) := by
  induction blocks with
  | nil => cases hfound
  | cons b blocks ih =>
      unfold updateBlock
      by_cases hid : b.id = bb
      · rw [if_pos hid, List.flatMap_cons, List.flatMap_cons]
        exact (hf b).append_right _
      · rw [if_neg hid, List.flatMap_cons, List.flatMap_cons]
        rw [List.find?_cons_of_neg (by simpa using hid)] at hfound
        exact ((ih hfound).append_left _).trans List.perm_middle

/-- Any other edit leaves the instructions alone. -/
theorem updateBlock_instructions {bb : BlockId} {f : BasicBlock → BasicBlock}
    (hf : ∀ b, (f b).instructions = b.instructions) (blocks : List BasicBlock) :
    (updateBlock bb f blocks).flatMap BasicBlock.instructions =
      blocks.flatMap BasicBlock.instructions := by
  induction blocks with
  | nil => rfl
  | cons b blocks ih =>
      unfold updateBlock
      by_cases hid : b.id = bb
      · rw [if_pos hid, List.flatMap_cons, List.flatMap_cons, hf]
      · rw [if_neg hid, List.flatMap_cons, List.flatMap_cons, ih]

theorem insertAlloca_perm (i : Instruction) (is : List Instruction) :
    (insertAlloca i is).Perm (i :: is) := by
  unfold insertAlloca
  refine List.perm_middle.trans ?_
  rw [List.takeWhile_append_dropWhile]

theorem definitions_insert {f g : Function} {i : Instruction} (hparams : g.params = f.params)
    (h : g.instructions.Perm (i :: f.instructions)) :
    g.definitions.Perm ((instrResult i).toList ++ f.definitions) := by
  unfold Function.definitions
  rw [hparams]
  refine ((h.filterMap instrResult).append_left _).trans ?_
  rw [List.filterMap_cons]
  cases instrResult i with
  | none => exact .refl _
  | some d => exact List.perm_middle

/-! ## Sound operations -/

/-- What a successful operation does to the invariant. -/
def Advances (fb fb' : FunctionBuilder) : Prop :=
  fb.mb.nextValue ≤ fb'.mb.nextValue ∧ (fb'.mb.nextValue < valueBound → fb.Inv → fb'.Inv)

theorem Advances.refl (fb : FunctionBuilder) : Advances fb fb := ⟨Nat.le_refl _, fun _ h => h⟩

/-- The operation only looks at the builder. -/
structure Reads {α : Type} (x : BuildM α) : Prop where
  ok : ∀ fb a fb', x fb = .ok a fb' → fb' = fb
  error : ∀ fb e fb', x fb = .error e fb' → fb' = fb

/-- The operation advances the builder, or fails and leaves it alone, or panics. -/
structure Sound {α : Type} (x : BuildM α) : Prop where
  ok : ∀ fb a fb', x fb = .ok a fb' → Advances fb fb'
  error : ∀ fb e fb', x fb = .error e fb' → e = .panic ∨ fb' = fb

variable {α β : Type}

theorem Reads.sound {x : BuildM α} (h : Reads x) : Sound x where
  ok := fun fb _ _ hx => h.ok fb _ _ hx ▸ Advances.refl fb
  error := fun fb _ _ hx => .inr (h.error fb _ _ hx)

theorem reads_raise {ε : Type} (x : FunctionBuilder → Except ε α) (f : ε → BuildFailure) :
    Reads (get >>= fun fb => orRaise (x fb) f : BuildM α) where
  ok := fun fb a fb' h => by
    rw [bind_run_ok (get_run _)] at h
    exact (orRaise_run_ok_iff.mp h).2
  error := fun fb e fb' h => by
    rw [bind_run_ok (get_run _)] at h
    exact orRaise_run_error h

theorem reads_test (x : FunctionBuilder → Except BuilderError α) : Reads (test x) := reads_raise x _

theorem reads_testCall (x : FunctionBuilder → Except CallError α) : Reads (testCall x) :=
  reads_raise x _

theorem reads_expect (x : FunctionBuilder → Except BuilderError Unit) : Reads (expect x) :=
  reads_raise x _

/-- Look first, then operate. -/
theorem Reads.bind {x : BuildM α} {f : α → BuildM β} (hx : Reads x) (hf : ∀ a, Sound (f a)) :
    Sound (x >>= f) where
  ok := fun fb b fb' h => by
    obtain ⟨a, t, hrun, hrest⟩ := bind_run_ok_iff.mp h
    rw [hx.ok fb a t hrun] at hrest
    exact (hf a).ok fb b fb' hrest
  error := fun fb e fb' h => by
    rcases bind_run_error_iff.mp h with hrun | ⟨a, t, hrun, hrest⟩
    · exact .inr (hx.error fb e fb' hrun)
    · rw [hx.ok fb a t hrun] at hrest
      exact (hf a).error fb e fb' hrest

theorem Sound.bind_pure {x : BuildM α} (h : Sound x) (g : α → β) :
    Sound (x >>= fun a => pure (g a)) where
  ok := fun fb b fb' hrun => by
    obtain ⟨a, t, hx, hpure⟩ := bind_run_ok_iff.mp hrun
    cases hpure
    exact h.ok fb a fb' hx
  error := fun fb e fb' hrun => by
    rcases bind_run_error_iff.mp hrun with hx | ⟨a, t, hx, hpure⟩
    · exact h.error fb e fb' hx
    · cases hpure

theorem Sound.discard {x : BuildM α} (h : Sound x) : Sound (discard x) := h.bind_pure fun _ => ()

theorem sound_tryWith (values : List ValueId) {op : BuildM α} (h : Sound op) :
    Sound (tryWith values op) :=
  (reads_test _).bind fun _ => (reads_test _).bind fun _ => h

/-! ## Emission -/

theorem expect_run (fb : FunctionBuilder) :
    expect (·.ensureInsertable) fb = match fb.ensureInsertable with
      | .ok _ => .ok () fb
      | .error _ => .error .panic fb := by
  unfold expect
  rw [bind_run_ok (get_run _)]
  show (orRaise fb.ensureInsertable (fun _ => BuildFailure.panic) : BuildM Unit) fb = _
  cases fb.ensureInsertable <;> rfl

/-- The block under the insertion point is there when it is open. -/
theorem findBlock_of_insertable {fb : FunctionBuilder} {u : Unit}
    (h : fb.ensureInsertable = .ok u) : (fb.findBlock fb.insertBlock).isSome = true := by
  obtain ⟨b, hb, -⟩ := bind_ok_iff.mp h
  rw [orThrow_ok_iff.mp hb]
  rfl

/-- The function with other blocks. -/
def Function.withBlocks (f : Function) (blocks : List BasicBlock) : Function :=
  { f with blocks := blocks }

/-- The block with one more instruction. -/
def BasicBlock.push (b : BasicBlock) (i : Instruction) : BasicBlock :=
  { b with instructions := b.instructions ++ [i] }

theorem push_perm (i : Instruction) (b : BasicBlock) :
    (b.push i).instructions.Perm (i :: b.instructions) :=
  List.perm_append_singleton i b.instructions

theorem updateCurrent_run (f : BasicBlock → BasicBlock) (fb : FunctionBuilder) :
    updateCurrent f fb = match fb.ensureInsertable with
      | .ok _ => .ok ()
          { fb with func := fb.func.withBlocks (updateBlock fb.insertBlock f fb.func.blocks) }
      | .error _ => .error .panic fb := by
  unfold updateCurrent
  rw [bind_run, expect_run]
  cases fb.ensureInsertable <;> rfl

/-- An operation that edits the open block and keeps its definitions. -/
theorem sound_updateCurrent {f : BasicBlock → BasicBlock}
    (h : ∀ fb : FunctionBuilder, (fb.findBlock fb.insertBlock).isSome = true →
      (fb.func.withBlocks (updateBlock fb.insertBlock f fb.func.blocks)).definitions.Perm
        fb.func.definitions) : Sound (updateCurrent f) where
  ok := fun fb u fb' hrun => by
    rw [updateCurrent_run] at hrun
    cases hinsertable : fb.ensureInsertable with
    | error e =>
        rw [hinsertable] at hrun
        cases hrun
    | ok v =>
        rw [hinsertable] at hrun
        cases hrun
        refine ⟨Nat.le_refl _, fun _ hinv => ⟨hinv.module, ?_⟩⟩
        exact hinv.function.same (Nat.le_refl _) (h fb (findBlock_of_insertable hinsertable)) rfl
  error := fun fb e fb' hrun => by
    rw [updateCurrent_run] at hrun
    cases hinsertable : fb.ensureInsertable with
    | error _ =>
        rw [hinsertable] at hrun
        cases hrun
        exact .inl rfl
    | ok _ =>
        rw [hinsertable] at hrun
        cases hrun

theorem sound_push {i : Instruction} (h : instrResult i = none) : Sound (push i) := by
  refine sound_updateCurrent (f := fun b => b.push i) fun fb hfound => ?_
  have hdefinitions : (fb.func.withBlocks
      (updateBlock fb.insertBlock (·.push i) fb.func.blocks)).definitions.Perm
        ((instrResult i).toList ++ fb.func.definitions) :=
    definitions_insert rfl (updateBlock_perm (push_perm i) hfound)
  rwa [h] at hdefinitions

theorem sound_setTerminator (t : Terminator) : Sound (setTerminator t) := by
  refine sound_updateCurrent fun fb _ => .of_eq ?_
  unfold Function.definitions Function.instructions Function.withBlocks
  simp only [updateBlock_instructions (f := fun b => { b with terminator := some t })
    (fun _ => rfl)]

/-- The builder after a value was defined by an instruction of the block `bb`. -/
structure Emitted (fb fb' : FunctionBuilder) (ty : Ty) : Prop where
  next : fb'.mb.nextValue = fb.mb.nextValue + 1
  functions : fb'.mb.module.functions = fb.mb.module.functions
  definitions : fb'.func.definitions.Perm
    ((⟨UInt32.ofNat fb.mb.nextValue⟩, ty) :: fb.func.definitions)
  valueTypes : fb'.func.valueTypes = fb.func.valueTypes ++ [(⟨UInt32.ofNat fb.mb.nextValue⟩, ty)]

theorem Emitted.advances {fb fb' : FunctionBuilder} {ty : Ty} (h : Emitted fb fb' ty) :
    Advances fb fb' := by
  have hnext := h.next
  refine ⟨by omega, fun hbound hinv => ⟨?_, ?_⟩⟩
  · exact hinv.module.mono h.functions (by omega)
  · rw [hnext]
    exact hinv.function.define (by omega) h.definitions h.valueTypes

theorem emit_run (ty : Ty) (instruction : ValueId → Instruction) (fb : FunctionBuilder) :
    emit ty instruction fb = match fb.ensureInsertable with
      | .ok _ => .ok fb.mb.freshValue.1
          { fb with
            mb := fb.mb.freshValue.2
            func := { fb.func with
              blocks := updateBlock fb.insertBlock (·.push (instruction fb.mb.freshValue.1))
                fb.func.blocks
              valueTypes := fb.func.valueTypes ++ [(fb.mb.freshValue.1, ty)] } }
      | .error _ => .error .panic fb := by
  unfold emit defineValue push
  rw [bind_run, bind_run, expect_run]
  cases hinsertable : fb.ensureInsertable with
  | error e => rfl
  | ok u =>
      -- Defining a value does not touch the blocks, so the block is still open.
      have hstill : ({ fb with
          mb := fb.mb.freshValue.2
          func := { fb.func with
            valueTypes := fb.func.valueTypes ++ [(fb.mb.freshValue.1, ty)] } }
          : FunctionBuilder).ensureInsertable = .ok u := hinsertable
      simp only [bind_run, get_run, set_run, pure_run]
      rw [updateCurrent_run, hstill]
      rfl

/-- Appending an instruction that defines the next value. -/
theorem sound_emit {ty : Ty} {instruction : ValueId → Instruction}
    (h : ∀ dst, instrResult (instruction dst) = some (dst, ty)) : Sound (emit ty instruction) where
  ok := fun fb dst fb' hrun => by
    rw [emit_run] at hrun
    cases hinsertable : fb.ensureInsertable with
    | error e =>
        rw [hinsertable] at hrun
        cases hrun
    | ok u =>
        rw [hinsertable] at hrun
        cases hrun
        have hperm := updateBlock_perm (push_perm (instruction fb.mb.freshValue.1))
          (findBlock_of_insertable hinsertable)
        refine Emitted.advances ⟨rfl, rfl, ?_, rfl⟩
        refine List.Perm.trans (definitions_insert (f := fb.func) rfl hperm) ?_
        rw [h]
        exact .refl _
  error := fun fb e fb' hrun => by
    rw [emit_run] at hrun
    cases hinsertable : fb.ensureInsertable with
    | error _ =>
        rw [hinsertable] at hrun
        cases hrun
        exact .inl rfl
    | ok _ =>
        rw [hinsertable] at hrun
        cases hrun

/-! ## Every operation is sound -/

theorem sound_createBlock (name : String) : Sound (createBlock name) where
  ok := fun fb id fb' h => by
    cases h
    refine ⟨Nat.le_refl _, fun _ hinv => ⟨hinv.module, ?_⟩⟩
    refine hinv.function.same (Nat.le_refl _) (.of_eq ?_) rfl
    simp [Function.definitions, Function.instructions, BasicBlock.new]
  error := fun fb e fb' h => nomatch h

theorem sound_insertPoint (bb : BlockId) {x : BuildM Unit} (h : Reads x) :
    Sound (x >>= fun _ => modify fun fb => { fb with insertBlock := bb }) :=
  h.bind fun _ =>
    { ok := fun fb u fb' h => by
        cases h
        exact ⟨Nat.le_refl _, fun _ hinv => ⟨hinv.module, hinv.function⟩⟩
      error := fun fb e fb' h => nomatch h }

theorem sound_constFloat (ty : Ty) (v : UInt64) (single : UInt32) :
    Sound (constFloat ty v single) := by
  have hemit : ∀ bits, Sound (constFloatBits ty bits) := fun bits => sound_emit fun _ => rfl
  have hreads : ∀ o : Option FloatBits,
      Reads (orThrow o BuildFailure.panic : BuildM FloatBits) := by
    intro o
    constructor
    · intro fb a fb' h
      rw [orThrow_run] at h
      cases o with
      | none => cases h
      | some b =>
          cases h
          rfl
    · intro fb e fb' h
      rw [orThrow_run] at h
      cases o with
      | none =>
          cases h
          rfl
      | some b => cases h
  exact (hreads _).bind hemit

theorem ModuleBuilder.shiftSources_module (mb : ModuleBuilder) (function : FunctionId)
    (position : Nat) : (mb.shiftSources function position).module = mb.module ∧
      (mb.shiftSources function position).nextValue = mb.nextValue := by
  unfold ModuleBuilder.shiftSources
  split
  · exact ⟨rfl, rfl⟩
  · exact ⟨rfl, rfl⟩

/-- The function builder after its value was defined, before the instruction is there. -/
def FunctionBuilder.defined (fb : FunctionBuilder) (ty : Ty) : FunctionBuilder :=
  { fb with
    mb := fb.mb.freshValue.2
    func := { fb.func with valueTypes := fb.func.valueTypes ++ [(fb.mb.freshValue.1, ty)] } }

theorem defineValue_run (ty : Ty) (fb : FunctionBuilder) :
    defineValue ty fb = match fb.ensureInsertable with
      | .ok _ => .ok fb.mb.freshValue.1 (fb.defined ty)
      | .error _ => .error .panic fb := by
  unfold defineValue
  rw [bind_run, expect_run]
  cases fb.ensureInsertable <;> rfl

/-- The entry block is found as before, and gets the allocation. -/
theorem allocaInEntry_run (ty : Ty) (align : UInt32) (fb : FunctionBuilder) :
    allocaInEntry ty align fb = match fb.ensureInsertable, fb.findBlock fb.func.entry with
      | .ok _, some entry => .ok fb.mb.freshValue.1
          { fb.defined (.ptr ty) with
            mb := fb.mb.freshValue.2.shiftSources fb.func.id
              (entry.instructions.takeWhile isAlloca).length
            func := { (fb.defined (.ptr ty)).func with
              blocks := updateBlock fb.func.entry
                (fun b => { b with
                  instructions :=
                    insertAlloca (.alloca fb.mb.freshValue.1 ty align) b.instructions })
                fb.func.blocks } }
      | .ok _, none => .error .panic (fb.defined (.ptr ty))
      | .error _, _ => .error .panic fb := by
  unfold allocaInEntry
  rw [bind_run, defineValue_run]
  cases fb.ensureInsertable with
  | error e => rfl
  | ok u =>
      have hfind : (fb.defined (.ptr ty)).findBlock (fb.defined (.ptr ty)).func.entry =
          fb.findBlock fb.func.entry := rfl
      simp only [bind_run, get_run, orThrow_run]
      rw [hfind]
      cases fb.findBlock fb.func.entry <;> rfl

/-- The instruction goes into the entry block, wherever the insertion point is. -/
theorem sound_allocaInEntry (ty : Ty) (align : UInt32) : Sound (allocaInEntry ty align) where
  ok := fun fb dst fb' h => by
    rw [allocaInEntry_run] at h
    cases hinsertable : fb.ensureInsertable with
    | error e =>
        rw [hinsertable] at h
        cases h
    | ok u =>
        cases hentry : fb.findBlock fb.func.entry with
        | none =>
            rw [hinsertable, hentry] at h
            cases h
        | some entry =>
            rw [hinsertable, hentry] at h
            cases h
            obtain ⟨hmodule, hnext⟩ := ModuleBuilder.shiftSources_module fb.mb.freshValue.2
              fb.func.id (entry.instructions.takeWhile isAlloca).length
            have hfound : (fb.func.blocks.find? (·.id = fb.func.entry)).isSome = true := by
              show (fb.findBlock fb.func.entry).isSome = true
              rw [hentry]
              rfl
            have hperm := updateBlock_perm
              (f := fun b => { b with
                instructions := insertAlloca (.alloca fb.mb.freshValue.1 ty align) b.instructions })
              (fun b => insertAlloca_perm _ b.instructions) hfound
            refine Emitted.advances ⟨hnext, congrArg Module.functions hmodule, ?_, rfl⟩
            exact definitions_insert (f := fb.func) (i := .alloca fb.mb.freshValue.1 ty align)
              (g := { (fb.defined (.ptr ty)).func with blocks := _ }) rfl hperm
  error := fun fb e fb' h => by
    rw [allocaInEntry_run] at h
    cases hinsertable : fb.ensureInsertable with
    | error _ =>
        rw [hinsertable] at h
        cases h
        exact .inl rfl
    | ok u =>
        cases hentry : fb.findBlock fb.func.entry with
        | none =>
            rw [hinsertable, hentry] at h
            cases h
            exact .inl rfl
        | some entry =>
            rw [hinsertable, hentry] at h
            cases h

theorem sound_tryAllocaInEntry (ty : Ty) (align : UInt32) : Sound (tryAllocaInEntry ty align) :=
  sound_tryWith _ <| (reads_test _).bind fun _ => (reads_test _).bind fun _ =>
    sound_allocaInEntry ty align

theorem sound_ret (value : Option ValueId) : Sound (ret value) where
  ok := fun fb => (sound_setTerminator (.ret fb.func.retTy value)).ok fb
  error := fun fb => (sound_setTerminator (.ret fb.func.retTy value)).error fb

theorem sound_tryGlobalAddr (global : GlobalId) : Sound (tryGlobalAddr global) :=
  (reads_test _).bind fun _ => (reads_test _).bind fun _ => sound_emit fun _ => rfl

theorem sound_tryLifetimeEnd (ptr : ValueId) : Sound (tryLifetimeEnd ptr) :=
  sound_tryWith _ <| (reads_test _).bind fun _ => sound_push rfl

theorem sound_tryPtrdiff (lhs rhs : ValueId) : Sound (tryPtrdiff lhs rhs) :=
  sound_tryWith _ <| (reads_test _).bind fun _ => sound_emit fun _ => rfl

theorem sound_tryPhi (ty : Ty) (incomings : List (ValueId × BlockId)) :
    Sound (tryPhi ty incomings) :=
  (reads_test _).bind fun _ => (reads_test _).bind fun _ => (reads_test _).bind fun _ =>
    sound_emit fun _ => rfl

theorem sound_tryBr (target : BlockId) : Sound (tryBr target) :=
  sound_tryWith _ <| (reads_test _).bind fun _ => sound_setTerminator _

theorem sound_tryCbr (cond : ValueId) (thenBb elseBb : BlockId) :
    Sound (tryCbr cond thenBb elseBb) :=
  sound_tryWith _ <| (reads_test _).bind fun _ => (reads_test _).bind fun _ =>
    sound_setTerminator _

theorem sound_nullFunction (signature : FunctionSignature) : Sound (nullFunction signature) :=
  (reads_testCall _).bind fun _ => (reads_testCall _).bind fun _ => sound_emit fun _ => rfl

theorem sound_functionAddr (function : FunctionId) : Sound (functionAddr function) :=
  (reads_testCall _).bind fun _ => (reads_testCall _).bind fun _ => (reads_testCall _).bind fun _ =>
    sound_emit fun _ => rfl

/-- A call defines its result unless the callee returns nothing. -/
theorem sound_emitCall (signature : FunctionSignature) (callee : Callee) (args : List ValueId) :
    Sound (emitCall signature callee args) := by
  unfold emitCall
  by_cases hvoid : signature.ret = .void
  · rw [if_pos hvoid]
    have hpush : Sound (push (.call signature.convention none signature.ret callee args)) :=
      sound_push rfl
    exact hpush.bind_pure fun _ => none
  · rw [if_neg hvoid]
    have hemit : Sound (emit signature.ret fun dst =>
        .call signature.convention (some dst) signature.ret callee args) :=
      sound_emit fun _ => rfl
    exact hemit.bind_pure some

theorem sound_call (callee : Callee) (args : List ValueId) : Sound (call callee args) :=
  (reads_testCall _).bind fun _ => (reads_testCall _).bind fun signature =>
    (reads_testCall _).bind fun _ => (reads_testCall _).bind fun _ => (reads_testCall _).bind
      fun _ => sound_emitCall signature callee args

/-- Every operation on a function under construction, one case for each. -/
theorem sound_functionOp (op : FunctionOp) : Sound op.run := by
  cases op with
  | createBlock name => exact (sound_createBlock name).discard
  | setInsertPoint bb => exact sound_insertPoint bb (reads_expect _)
  | trySetInsertPoint bb => exact sound_insertPoint bb (reads_test _)
  | tryParamValue index => exact (reads_test _).sound.discard
  | functionId name => exact (reads_testCall _).sound.discard
  | calleeSignature callee => exact (reads_testCall _).sound.discard
  | constFloat ty v single => exact (sound_constFloat ty v single).discard
  | tryConstFloat ty v single => exact (sound_tryWith _ (sound_constFloat ty v single)).discard
  | allocaInEntry ty align => exact (sound_allocaInEntry ty align).discard
  | tryAllocaInEntry ty align => exact (sound_tryAllocaInEntry ty align).discard
  | tryGlobalAddr global => exact (sound_tryGlobalAddr global).discard
  | tryLifetimeEnd ptr => exact sound_tryLifetimeEnd ptr
  | tryPtrdiff lhs rhs => exact (sound_tryPtrdiff lhs rhs).discard
  | tryPhi ty incomings => exact (sound_tryPhi ty incomings).discard
  | tryBr target => exact sound_tryBr target
  | tryCbr cond thenBb elseBb => exact sound_tryCbr cond thenBb elseBb
  | br target => exact sound_setTerminator _
  | cbr cond thenBb elseBb => exact sound_setTerminator _
  | trap reason => exact sound_setTerminator _
  | tryTrap reason => exact sound_tryWith _ (sound_setTerminator _)
  | ret value => exact sound_ret value
  | tryRet value => exact sound_tryWith _ (sound_ret value)
  | nullFunction signature => exact (sound_nullFunction signature).discard
  | functionAddr function => exact (sound_functionAddr function).discard
  | call callee args => exact (sound_call callee args).discard
  | volatileStore | store | uninit | memcpy | trapIf => exact sound_push rfl
  | tryStore | tryUninit | tryTrapIf => exact sound_tryWith _ (sound_push rfl)
  | neg | not | undef | constDecl | constBool | constI32 | constInt | constUint | constFloatBits
  | add | bin | icmp | cmp | cast | checked | extract | alloca | gep | volatileLoad | load =>
      exact (sound_emit fun _ => rfl).discard
  | tryNot | tryUndef | tryConstDecl | tryConstBool | tryConstI32 | tryConstInt | tryConstUint
  | tryConstFloatBits | tryAdd | tryBin | tryIcmp | tryCmp | tryChecked | tryExtract | tryAlloca
  | tryLoad => exact (sound_tryWith _ (sound_emit fun _ => rfl)).discard

end Whale
