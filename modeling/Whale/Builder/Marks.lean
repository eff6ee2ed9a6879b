import Whale.Builder.Edits

set_option autoImplicit false

/-! # What source mappings should say

`Marks` is the purpose of source mappings, stated without positions that are out of date: each
record names its operation where that stands now, and each checkpoint is the list of what stood
when it was taken. An insertion moves records and checkpoints at once (`FunctionBuilder.hoisted`),
and the operation stays the same (`operationAt_moves`). -/

namespace Whale

/-! ## Operations and targets -/

inductive Operation where
  | instruction (i : Instruction)
  | terminator (t : Terminator)
  deriving DecidableEq

/-- The operation that a target names. -/
def operationAt (functions : List Function) : SourceTarget → Option Operation
  | .instruction function block index =>
      ((blockAt functions function block).bind (·.instructions[index]?)).map .instruction
  | .terminator function block =>
      ((blockAt functions function block).bind BasicBlock.terminator).map .terminator
  | .global _ => none

def blockTargets (function : FunctionId) (b : BasicBlock) : List SourceTarget :=
  (List.range b.instructions.length).map (.instruction function b.id ·) ++
    if b.terminator.isSome then [.terminator function b.id] else []

/-- Everything in the function that a mapping can name. -/
def Function.targets (f : Function) : List SourceTarget := f.blocks.flatMap (blockTargets f.id)

/-! ## Marks -/

/-- An operation and the original node it came from. -/
structure Record where
  target : SourceTarget
  original : UInt64
  operation : Operation
  deriving DecidableEq

structure Marks where
  records : List Record
  /-- What stood when the checkpoints were taken that are not used yet. -/
  before : List (List SourceTarget)

def Record.mapping (r : Record) : SourceMapping := ⟨r.target, r.original⟩

def Record.move (f : SourceTarget → SourceTarget) (r : Record) : Record :=
  { r with target := f r.target }

/-- Everything stays what it is, at another place. -/
def Marks.move (f : SourceTarget → SourceTarget) (m : Marks) : Marks where
  records := m.records.map (Record.move f)
  before := m.before.map (·.map f)

/-- What an annotation covers: what is there and was not before, unless it has a record. -/
def Marks.covered (m : Marks) (f : Function) (old : List SourceTarget) : List SourceTarget :=
  f.targets.filter fun t => t ∉ old ∧ t ∉ m.records.map Record.target

/-- The records of an annotation. -/
def Marks.recorded (m : Marks) (f : Function) (old : List SourceTarget) (original : UInt64) :
    List Record :=
  (m.covered f old).filterMap fun t => (operationAt [f] t).map (⟨t, original, ·⟩)

/-- Where the place of an instruction is after an allocation is inserted. -/
def FunctionBuilder.hoisted (fb : FunctionBuilder) : SourceTarget → SourceTarget
  | .instruction function block index =>
      if function = fb.func.id ∧ block = fb.func.entry ∧ fb.entryAllocas ≤ index then
        .instruction function block (index + 1)
      else .instruction function block index
  | t => t

def FunctionOp.moves (op : FunctionOp) (fb : FunctionBuilder) (t : SourceTarget) : SourceTarget :=
  if op.hoists then fb.hoisted t else t

def SourceOp.moves : SourceOp → SourceState → SourceTarget → SourceTarget
  | .emit op, s, t =>
      match op.run s.builder.fb with
      | .ok .. => op.moves s.builder.fb t
      | .error .. => t
  | _, _, t => t

def SourceOp.mark : SourceOp → SourceState → Marks → Marks
  | .emit op, s, m => m.move ((SourceOp.emit op).moves s)
  | .checkpoint, s, m => { m with before := s.builder.fb.func.targets :: m.before }
  | .annotate note k, s, m =>
      { records := m.records ++
          m.recorded s.builder.fb.func ((m.before[k]?).getD []) note.id
        before := m.before.eraseIdx k }
  | .finishMapping, _, m => m

def SessionOp.moves : SessionOp → SourceSession → SourceTarget → SourceTarget
  | .source op, .building s, t => op.moves s t
  | _, _, t => t

def SessionOp.mark : SessionOp → SourceSession → Marks → Marks
  | .source op, .building s, m => op.mark s m
  | _, _, m => { m with before := [] }

/-- A session and its marks. -/
def runSession : List SessionOp → SourceSession → Marks → Option (SourceSession × Marks)
  | [], s, m => some (s, m)
  | op :: ops, s, m => do
      let s' ← op.step s
      runSession ops s' (op.mark s m)

/-- Where what stands at a place is at the end of a session. -/
def track : List SessionOp → SourceSession → SourceTarget → SourceTarget
  | [], _, t => t
  | op :: ops, s, t =>
      match op.step s with
      | some s' => track ops s' (op.moves s t)
      | none => t

/-- The module, with the function under construction in it. -/
def SourceSession.module : SourceSession → Module
  | .idle mb _ => mb.module
  | .building s => s.builder.fb.finish.module

/-! ## Blocks by identity -/

def blockIds (functions : List Function) : List BlockId :=
  functions.flatMap fun f => f.blocks.map BasicBlock.id

theorem blockAt_eq_some_iff {fs : List Function} (hnodup : (blockIds fs).Nodup)
    {function : FunctionId} {block : BlockId} {b : BasicBlock} :
    blockAt fs function block = some b ↔
      ∃ f ∈ fs, f.id = function ∧ b ∈ f.blocks ∧ b.id = block := by
  have hkeys : (blockTable fs).map (fun e => e.1.2) = blockIds fs := by
    unfold blockTable blockIds
    rw [List.map_flatMap]
    exact List.flatMap_congr fun f _ => by rw [List.map_map]; rfl
  have hunique : AssocMap.UniqueKeys (blockTable fs) := by
    refine List.Nodup.of_map Prod.snd ?_
    rw [List.map_map]
    exact hkeys ▸ hnodup
  unfold blockAt
  rw [AssocMap.get_extend hunique, AssocMap.get_nil, Option.or_none]
  constructor
  · intro h
    obtain ⟨f, hf, hb⟩ := List.mem_flatMap.mp (AssocMap.mem_of_get h)
    obtain ⟨b', hb', heq⟩ := List.mem_map.mp hb
    cases heq
    exact ⟨f, hf, rfl, hb', rfl⟩
  · rintro ⟨f, hf, rfl, hb, rfl⟩
    exact AssocMap.get_of_mem hunique
      (List.mem_flatMap.mpr ⟨f, hf, List.mem_map.mpr ⟨b, hb, rfl⟩⟩)

/-- A block of one function belongs to no other place. -/
theorem eq_of_blockIds {fs gs : List Function} {f g : Function} {b b' : BasicBlock}
    (hnodup : (blockIds (fs ++ g :: gs)).Nodup) (hf : f ∈ fs) (hb : b ∈ f.blocks)
    (hb' : b' ∈ g.blocks) : b.id ≠ b'.id := by
  unfold blockIds at hnodup
  rw [List.flatMap_append] at hnodup
  intro heq
  refine (List.disjoint_of_nodup_append hnodup)
    (List.mem_flatMap.mpr ⟨f, hf, List.mem_map_of_mem hb⟩) ?_
  rw [heq, List.flatMap_cons]
  exact List.mem_append_left _ (List.mem_map_of_mem hb')

/-- With identities that occur once, a change of the first block is one of every block. -/
theorem updateBlock_eq_map {bb : BlockId} {f : BasicBlock → BasicBlock} {bs : List BasicBlock}
    (hnodup : (bs.map BasicBlock.id).Nodup) :
    updateBlock bb f bs = bs.map fun b => if b.id = bb then f b else b := by
  induction bs with
  | nil => rfl
  | cons b bs ih =>
      obtain ⟨hnew, hnodup⟩ := List.nodup_cons.mp hnodup
      rw [updateBlock, List.map_cons]
      by_cases hb : b.id = bb
      · rw [if_pos hb, if_pos hb]
        have hrest : (bs.map fun b => if b.id = bb then f b else b) = bs.map id := by
          refine List.map_congr_left fun b' hb' => if_neg fun heq => hnew ?_
          rw [hb, ← heq]
          exact List.mem_map_of_mem hb'
        rw [hrest, List.map_id]
      · rw [if_neg hb, if_neg hb, ih hnodup]

theorem findBlock_of_mem {fb : FunctionBuilder} (hnodup : (fb.func.blocks.map BasicBlock.id).Nodup)
    {b : BasicBlock} (hb : b ∈ fb.func.blocks) : fb.findBlock b.id = some b := by
  unfold FunctionBuilder.findBlock
  obtain ⟨b', hb'⟩ : ∃ b', fb.func.blocks.find? (·.id = b.id) = some b' :=
    Option.isSome_iff_exists.mp (List.find?_isSome.mpr ⟨b, hb, by simp⟩)
  have hid : b'.id = b.id := by simpa using List.find?_some hb'
  rw [hb', List.inj_on_of_nodup_map hnodup (List.mem_of_find?_eq_some hb') hb hid]

/-! ## Instructions -/

theorem length_insertAlloca (i : Instruction) (is : List Instruction) :
    (insertAlloca i is).length = is.length + 1 := (insertAlloca_perm i is).length_eq

/-- The instructions behind the allocations move back by one. -/
theorem getElem?_insertAlloca (i : Instruction) (is : List Instruction) (k : Nat) :
    (insertAlloca i is)[if (is.takeWhile isAlloca).length ≤ k then k + 1 else k]? = is[k]? := by
  have hsplit : is[k]? = (is.takeWhile isAlloca ++ is.dropWhile isAlloca)[k]? := by
    rw [List.takeWhile_append_dropWhile]
  rw [hsplit]
  unfold insertAlloca
  by_cases hk : (is.takeWhile isAlloca).length ≤ k
  · rw [if_pos hk, List.getElem?_append_right (Nat.le_succ_of_le hk),
      List.getElem?_append_right hk, Nat.succ_sub hk, List.getElem?_cons_succ]
  · rw [if_neg hk, List.getElem?_append_left (Nat.lt_of_not_le hk),
      List.getElem?_append_left (Nat.lt_of_not_le hk)]

/-- The allocation goes in front of an instruction that is none. -/
theorem takeWhile_insertAlloca {i : Instruction} (hi : isAlloca i = true) (is : List Instruction) :
    ((insertAlloca i is).takeWhile isAlloca).length = (is.takeWhile isAlloca).length + 1 := by
  induction is with
  | nil => simp [insertAlloca, List.takeWhile, hi]
  | cons j is ih =>
      unfold insertAlloca at ih ⊢
      by_cases hj : isAlloca j = true
      · rw [List.takeWhile_cons_of_pos hj, List.dropWhile_cons_of_pos hj, List.cons_append,
          List.takeWhile_cons_of_pos hj, List.length_cons, ih, List.length_cons]
      · rw [List.takeWhile_cons_of_neg hj, List.dropWhile_cons_of_neg hj, List.nil_append,
          List.takeWhile_cons_of_pos hi, List.takeWhile_cons_of_neg hj]
        rfl

theorem BasicBlock.allocas_le (b : BasicBlock) : b.allocas ≤ b.instructions.length :=
  (List.takeWhile_sublist _).length_le

/-- An instruction behind others that are no allocations is not at the front. -/
theorem BasicBlock.allocas_push (b : BasicBlock) (i : Instruction) :
    b.allocas ≤ (b.push i).allocas ∧
      (b.allocas < b.instructions.length → (b.push i).allocas = b.allocas) := by
  unfold BasicBlock.push BasicBlock.allocas
  rw [List.takeWhile_append]
  split
  · rename_i hall
    refine ⟨?_, fun hlt => absurd hall (Nat.ne_of_lt hlt)⟩
    rw [List.length_append, hall]
    exact Nat.le_add_right _ _
  · exact ⟨Nat.le_refl _, fun _ => rfl⟩

/-! ## Edits, block by block -/

namespace Edit

/-- What becomes of a block. -/
def block (fb : FunctionBuilder) (e : Edit) (b : BasicBlock) : BasicBlock :=
  match e with
  | .keep | .create _ => b
  | .push i => if b.id = fb.insertBlock then b.push i else b
  | .terminate t => if b.id = fb.insertBlock then b.terminate t else b
  | .hoist i => if b.id = fb.func.entry then b.hoist i else b

def created (fb : FunctionBuilder) : Edit → List BasicBlock
  | .create name => [BasicBlock.new fb.mb.freshBlock.1 name]
  | _ => []

/-- Where an instruction of the block is after the edit. -/
def index (fb : FunctionBuilder) (e : Edit) (b : BasicBlock) (i : Nat) : Nat :=
  if e.isHoist = true ∧ b.id = fb.func.entry ∧ b.allocas ≤ i then i + 1 else i

variable {fb : FunctionBuilder} {e : Edit}

theorem blocks_eq (hnodup : (fb.func.blocks.map BasicBlock.id).Nodup) :
    e.blocks fb = fb.func.blocks.map (e.block fb) ++ e.created fb := by
  cases e with
  | keep => exact (List.map_id _).symm.trans (List.append_nil _).symm
  | create name => exact congrArg (· ++ _) (List.map_id _).symm
  | push i | terminate t | hoist i =>
      exact (updateBlock_eq_map hnodup).trans (List.append_nil _).symm

@[simp] theorem block_id (b : BasicBlock) : (e.block fb b).id = b.id := by
  unfold block
  split <;> first | rfl | (split <;> rfl)

theorem map_block_id (bs : List BasicBlock) :
    (bs.map (e.block fb)).map BasicBlock.id = bs.map BasicBlock.id := by
  rw [List.map_map]
  exact List.map_congr_left fun b _ => block_id b

theorem block_instruction (b : BasicBlock) (i : Nat) {ins : Instruction}
    (h : b.instructions[i]? = some ins) :
    (e.block fb b).instructions[e.index fb b i]? = some ins := by
  cases e with
  | keep | create name =>
      rw [index, if_neg (fun hhoist => nomatch hhoist.1)]
      exact h
  | push i' =>
      rw [index, if_neg (fun hhoist => nomatch hhoist.1)]
      unfold block
      by_cases hid : b.id = fb.insertBlock
      · simp only [if_pos hid]
        show (b.instructions ++ [i'])[i]? = some ins
        rw [List.getElem?_append_left (List.getElem?_eq_some_iff.mp h).1, h]
      · simp only [if_neg hid]
        exact h
  | terminate t =>
      rw [index, if_neg (fun hhoist => nomatch hhoist.1)]
      unfold block
      by_cases hid : b.id = fb.insertBlock
      · simp only [if_pos hid]
        exact h
      · simp only [if_neg hid]
        exact h
  | hoist i' =>
      unfold block index
      by_cases hid : b.id = fb.func.entry
      · simp only [hid, isHoist, true_and]
        exact (getElem?_insertAlloca i' b.instructions i).trans h
      · simp only [hid, false_and, and_false, if_false]
        exact h

theorem block_terminator (hnodup : (fb.func.blocks.map BasicBlock.id).Nodup) (hok : e.Allowed fb)
    {b : BasicBlock} (hb : b ∈ fb.func.blocks) {t : Terminator} (h : b.terminator = some t) :
    (e.block fb b).terminator = some t := by
  cases e with
  | keep | create name => exact h
  | push i =>
      unfold block
      by_cases hid : b.id = fb.insertBlock
      · simp only [if_pos hid]
        exact h
      · simp only [if_neg hid]
        exact h
  | hoist i =>
      unfold block
      by_cases hid : b.id = fb.func.entry
      · simp only [if_pos hid]
        exact h
      · simp only [if_neg hid]
        exact h
  | terminate t' =>
      obtain ⟨open', hopen, hnone⟩ := hok
      unfold block
      by_cases hid : b.id = fb.insertBlock
      · rw [← hid, findBlock_of_mem hnodup hb, Option.some.injEq] at hopen
        rw [hopen, hnone] at h
        cases h
      · simp only [if_neg hid]
        exact h

end Edit

end Whale
