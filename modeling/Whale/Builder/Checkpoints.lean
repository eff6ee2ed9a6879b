import Whale.Builder.Invariant
import Whale.Builder.Marks

set_option autoImplicit false

/-! # Checkpoints and what is new

Block identities occur once in all functions (`Constructing`). A checkpoint then tells what stood
when it was taken, through every edit (`Checkpointed`), so that the new targets of the builder are
the targets that did not stand (`newTargets_eq`). -/

namespace Whale

/-! ## Functions under construction -/

/-- All functions, the one under construction last. -/
def FunctionBuilder.functions (fb : FunctionBuilder) : List Function :=
  fb.mb.module.functions ++ [fb.func]

/-- Block identities occur once, in all functions, and are below the next one. -/
structure BlocksInv (functions : List Function) (next : Nat) : Prop where
  nodup : (blockIds functions).Nodup
  below : ∀ b ∈ blockIds functions, b.num.toNat < next

structure Constructing (fb : FunctionBuilder) : Prop where
  blocks : BlocksInv fb.functions fb.mb.nextBlock
  entry : ∃ b ∈ fb.func.blocks, b.id = fb.func.entry

theorem blockIds_append (fs gs : List Function) :
    blockIds (fs ++ gs) = blockIds fs ++ blockIds gs := List.flatMap_append

theorem blockIds_functions (fb : FunctionBuilder) :
    blockIds fb.functions =
      blockIds fb.mb.module.functions ++ fb.func.blocks.map BasicBlock.id := by
  unfold FunctionBuilder.functions
  rw [blockIds_append]
  exact congrArg (_ ++ ·) (List.append_nil _)

variable {functions : List Function}

/-- A fresh identity is new while the counter fits its width. -/
theorem BlocksInv.fresh {next : Nat} (h : BlocksInv functions next) (hbound : next < 2 ^ 32) :
    (⟨UInt32.ofNat next⟩ : BlockId) ∉ blockIds functions := by
  intro hmem
  have hlt := h.below _ hmem
  rw [UInt32.toNat_ofNat', Nat.mod_eq_of_lt hbound] at hlt
  exact Nat.lt_irrefl _ hlt

variable {b : BasicBlock}

namespace Constructing

variable {fb fb' : FunctionBuilder} {e : Edit}

theorem ids (h : Constructing fb) : (fb.func.blocks.map BasicBlock.id).Nodup := by
  have hnodup := h.blocks.nodup
  rw [blockIds_functions] at hnodup
  exact (List.nodup_append.mp hnodup).2.1

theorem blocks_eq (h : Constructing fb) (he : Effect e fb fb') :
    fb'.func.blocks = fb.func.blocks.map (e.block fb) ++ e.created fb :=
  he.blocks.trans (Edit.blocks_eq h.ids)

theorem blockIds_eq (h : Constructing fb) (he : Effect e fb fb') :
    blockIds fb'.functions = blockIds fb.functions ++ (e.created fb).map BasicBlock.id := by
  rw [blockIds_functions, blockIds_functions, he.module, h.blocks_eq he, List.map_append,
    Edit.map_block_id, ← List.append_assoc]

theorem effect (h : Constructing fb) (he : Effect e fb fb') (hbound : fb'.mb.nextBlock ≤ 2 ^ 32) :
    Constructing fb' := by
  have hids := h.blockIds_eq he
  have hnext := he.nextBlock
  refine ⟨⟨?_, ?_⟩, ?_⟩
  · rw [hids]
    cases e with
    | create name =>
        refine List.nodup_append.mpr ⟨h.blocks.nodup, List.nodup_singleton _, ?_⟩
        intro b hb b' hb'
        have hlt : fb.mb.nextBlock < 2 ^ 32 := by
          simp only [Edit.newBlocks] at hnext
          omega
        rintro rfl
        rw [List.mem_singleton.mp hb'] at hb
        exact h.blocks.fresh hlt hb
    | _ =>
        rw [Edit.created, List.map_nil, List.append_nil]
        · exact h.blocks.nodup
        all_goals
          intro _ hcreate
          cases hcreate
  · rw [hids]
    intro b hb
    rcases List.mem_append.mp hb with hb | hb
    · have hlt := h.blocks.below b hb
      omega
    · cases e with
      | create name =>
          rw [List.mem_singleton.mp hb]
          simp only [Edit.newBlocks] at hnext
          show (UInt32.ofNat fb.mb.nextBlock).toNat < _
          rw [UInt32.toNat_ofNat', Nat.mod_eq_of_lt (by omega), hnext]
          exact Nat.lt_succ_self _
      | _ => cases hb
  · obtain ⟨b, hb, hentry⟩ := h.entry
    refine ⟨e.block fb b, ?_, ?_⟩
    · rw [h.blocks_eq he]
      exact List.mem_append_left _ (List.mem_map_of_mem hb)
    · rw [Edit.block_id, hentry, he.entry]

theorem entryAllocas_eq (h : Constructing fb) (hb : b ∈ fb.func.blocks)
    (hentry : b.id = fb.func.entry) : fb.entryAllocas = b.allocas := by
  unfold FunctionBuilder.entryAllocas
  rw [← hentry, findBlock_of_mem h.ids hb]
  rfl

/-! ## Operations stay what they are -/

end Constructing

/-- Where the edit moves a place. -/
def Edit.moves (fb : FunctionBuilder) (e : Edit) (t : SourceTarget) : SourceTarget :=
  if e.isHoist then fb.hoisted t else t

namespace Constructing

variable {fb fb' : FunctionBuilder} {e : Edit}

theorem moves_instruction (h : Constructing fb) (hb : b ∈ fb.func.blocks) (i : Nat) :
    e.moves fb (.instruction fb.func.id b.id i) =
      .instruction fb.func.id b.id (e.index fb b i) := by
  unfold Edit.moves Edit.index FunctionBuilder.hoisted
  by_cases hhoist : e.isHoist = true
  · by_cases hentry : b.id = fb.func.entry
    · rw [h.entryAllocas_eq hb hentry]
      simp only [hhoist, hentry, true_and, if_true]
      split <;> rfl
    · simp [hhoist, hentry]
  · simp [hhoist]

/-- A block of another function is not the entry block. -/
theorem moves_other (h : Constructing fb) {f : Function} (hf : f ∈ fb.mb.module.functions)
    (hb : b ∈ f.blocks) (i : Nat) :
    e.moves fb (.instruction f.id b.id i) = .instruction f.id b.id i := by
  obtain ⟨entry, hmem, hentry⟩ := h.entry
  have hne : b.id ≠ fb.func.entry := by
    rw [← hentry]
    exact eq_of_blockIds h.blocks.nodup hf hb hmem
  unfold Edit.moves FunctionBuilder.hoisted
  simp [hne]

theorem moves_terminator (function : FunctionId) (block : BlockId) :
    e.moves fb (.terminator function block) = .terminator function block := by
  unfold Edit.moves
  split <;> rfl

theorem blockAt_current (h : Constructing fb) (hb : b ∈ fb.func.blocks) :
    blockAt fb.functions fb.func.id b.id = some b :=
  (blockAt_eq_some_iff h.blocks.nodup).mpr
    ⟨fb.func, List.mem_append_right _ List.mem_cons_self, rfl, hb, rfl⟩

theorem blockAt_effect (h : Constructing fb) (he : Effect e fb fb') (h' : Constructing fb')
    (hb : b ∈ fb.func.blocks) : blockAt fb'.functions fb.func.id b.id = some (e.block fb b) := by
  have hmem : e.block fb b ∈ fb'.func.blocks := by
    rw [h.blocks_eq he]
    exact List.mem_append_left _ (List.mem_map_of_mem hb)
  have hat := h'.blockAt_current hmem
  rwa [he.id, Edit.block_id] at hat

theorem blockAt_other (he : Effect e fb fb') (h' : Constructing fb') {f : Function}
    (hf : f ∈ fb.mb.module.functions) (hb : b ∈ f.blocks) :
    blockAt fb'.functions f.id b.id = some b := by
  refine (blockAt_eq_some_iff h'.blocks.nodup).mpr ⟨f, List.mem_append_left _ ?_, rfl, hb, rfl⟩
  rw [he.module]
  exact hf

/-- The operation at a place is the one at the place where the edit moves it. -/
theorem operationAt_moves (h : Constructing fb) (he : Effect e fb fb') (h' : Constructing fb')
    {t : SourceTarget} {o : Operation} (ho : operationAt fb.functions t = some o) :
    operationAt fb'.functions (e.moves fb t) = some o := by
  cases t with
  | global id => cases ho
  | instruction function block i =>
      obtain ⟨ins, hins, rfl⟩ := Option.map_eq_some_iff.mp ho
      obtain ⟨b, hb, hi⟩ := Option.bind_eq_some_iff.mp hins
      obtain ⟨f, hf, rfl, hmem, rfl⟩ := (blockAt_eq_some_iff h.blocks.nodup).mp hb
      rcases List.mem_append.mp hf with hf | hf
      · rw [h.moves_other hf hmem]
        rw [operationAt, blockAt_other he h' hf hmem, Option.bind_some, hi]
        rfl
      · obtain rfl := List.mem_singleton.mp hf
        rw [h.moves_instruction hmem]
        rw [operationAt, h.blockAt_effect he h' hmem, Option.bind_some,
          Edit.block_instruction b i hi]
        rfl
  | terminator function block =>
      obtain ⟨t, ht, rfl⟩ := Option.map_eq_some_iff.mp ho
      obtain ⟨b, hb, hterminator⟩ := Option.bind_eq_some_iff.mp ht
      obtain ⟨f, hf, rfl, hmem, rfl⟩ := (blockAt_eq_some_iff h.blocks.nodup).mp hb
      rw [moves_terminator]
      rw [operationAt]
      rcases List.mem_append.mp hf with hf | hf
      · rw [blockAt_other he h' hf hmem, Option.bind_some, hterminator]
        rfl
      · obtain rfl := List.mem_singleton.mp hf
        rw [h.blockAt_effect he h' hmem, Option.bind_some,
          Edit.block_terminator h.ids he.allowed hmem hterminator]
        rfl

end Constructing

theorem FunctionBuilder.hoisted_injective (fb : FunctionBuilder) :
    Function.Injective fb.hoisted := by
  intro s t heq
  cases s with
  | instruction f b i =>
      cases t with
      | instruction f' b' i' =>
          simp only [FunctionBuilder.hoisted] at heq
          split at heq <;> split at heq <;>
            (rw [SourceTarget.instruction.injEq] at heq ⊢; obtain ⟨rfl, rfl, hi⟩ := heq)
          · exact ⟨rfl, rfl, Nat.succ.inj hi⟩
          · rename_i hin hout
            exact absurd ⟨hin.1, hin.2.1, by omega⟩ hout
          · rename_i hout hin
            exact absurd ⟨hin.1, hin.2.1, by omega⟩ hout
          · exact ⟨rfl, rfl, hi⟩
      | _ =>
          simp only [FunctionBuilder.hoisted] at heq
          split at heq <;> cases heq
  | _ =>
      cases t with
      | instruction f' b' i' =>
          simp only [FunctionBuilder.hoisted] at heq
          split at heq <;> cases heq
      | _ => exact heq

/-- What an edit does to the instructions of a block. -/
theorem Edit.block_cases {fb : FunctionBuilder} {e : Edit} (hok : e.Allowed fb) (b : BasicBlock) :
    ((e.block fb b).instructions = b.instructions ∧ ∀ i, e.index fb b i = i) ∨
      (∃ ins, e.block fb b = b.push ins ∧ ∀ i, e.index fb b i = i) ∨
      ∃ ins, isAlloca ins = true ∧ e.block fb b = b.hoist ins ∧ b.id = fb.func.entry ∧
        ∀ i, e.index fb b i = if b.allocas ≤ i then i + 1 else i := by
  have hstay : e.isHoist = false → ∀ i, e.index fb b i = i := by
    intro hhoist i
    rw [Edit.index, if_neg fun h => by rw [hhoist] at h; cases h.1]
  cases e with
  | keep | create name => exact Or.inl ⟨rfl, hstay rfl⟩
  | push i =>
      by_cases hid : b.id = fb.insertBlock
      · exact Or.inr (Or.inl ⟨i, if_pos hid, hstay rfl⟩)
      · have hblock : (Edit.push i).block fb b = b := if_neg hid
        exact Or.inl ⟨by rw [hblock], hstay rfl⟩
  | terminate t =>
      refine Or.inl ⟨?_, hstay rfl⟩
      show (if b.id = fb.insertBlock then b.terminate t else b).instructions = _
      split <;> rfl
  | hoist i =>
      by_cases hid : b.id = fb.func.entry
      · refine Or.inr (Or.inr ⟨i, hok, if_pos hid, hid, fun k => ?_⟩)
        simp [Edit.index, Edit.isHoist, hid]
      · have hblock : (Edit.hoist i).block fb b = b := if_neg hid
        exact Or.inl ⟨by rw [hblock], fun k => if_neg fun h => hid h.2.1⟩

/-! ## Targets -/

theorem mem_blockTargets_instruction {function f : FunctionId} {bb : BlockId} {i : Nat} :
    .instruction f bb i ∈ blockTargets function b ↔
      f = function ∧ bb = b.id ∧ i < b.instructions.length := by
  unfold blockTargets
  constructor
  · intro h
    rcases List.mem_append.mp h with h | h
    · obtain ⟨k, hk, heq⟩ := List.mem_map.mp h
      cases heq
      exact ⟨rfl, rfl, List.mem_range.mp hk⟩
    · split at h
      · cases List.mem_singleton.mp h
      · cases h
  · rintro ⟨rfl, rfl, hi⟩
    exact List.mem_append_left _ (List.mem_map.mpr ⟨i, List.mem_range.mpr hi, rfl⟩)

theorem mem_blockTargets_terminator {function f : FunctionId} {bb : BlockId} :
    .terminator f bb ∈ blockTargets function b ↔
      f = function ∧ bb = b.id ∧ b.terminator.isSome = true := by
  unfold blockTargets
  constructor
  · intro h
    rcases List.mem_append.mp h with h | h
    · obtain ⟨k, -, heq⟩ := List.mem_map.mp h
      cases heq
    · split at h
      · rename_i hterminator
        cases List.mem_singleton.mp h
        exact ⟨rfl, rfl, hterminator⟩
      · cases h
  · rintro ⟨rfl, rfl, hterminator⟩
    refine List.mem_append_right _ ?_
    rw [if_pos hterminator]
    exact List.mem_cons_self

variable {function : FunctionId}

theorem not_mem_blockTargets_global {id : GlobalId} : .global id ∉ blockTargets function b := by
  unfold blockTargets
  intro h
  rcases List.mem_append.mp h with h | h
  · obtain ⟨k, -, heq⟩ := List.mem_map.mp h
    cases heq
  · split at h
    · cases List.mem_singleton.mp h
    · cases h

section

variable {f : Function} (hids : (f.blocks.map BasicBlock.id).Nodup)

include hids

theorem mem_targets_instruction (hb : b ∈ f.blocks) {i : Nat} :
    .instruction f.id b.id i ∈ f.targets ↔ i < b.instructions.length := by
  constructor
  · intro h
    obtain ⟨b', hb', hmem⟩ := List.mem_flatMap.mp h
    obtain ⟨-, hid, hi⟩ := mem_blockTargets_instruction.mp hmem
    rwa [List.inj_on_of_nodup_map hids hb hb' hid]
  · intro hi
    exact List.mem_flatMap.mpr ⟨b, hb, mem_blockTargets_instruction.mpr ⟨rfl, rfl, hi⟩⟩

theorem mem_targets_terminator (hb : b ∈ f.blocks) :
    .terminator f.id b.id ∈ f.targets ↔ b.terminator.isSome = true := by
  constructor
  · intro h
    obtain ⟨b', hb', hmem⟩ := List.mem_flatMap.mp h
    obtain ⟨-, hid, hterminator⟩ := mem_blockTargets_terminator.mp hmem
    rwa [List.inj_on_of_nodup_map hids hb hb' hid]
  · intro hterminator
    exact List.mem_flatMap.mpr ⟨b, hb, mem_blockTargets_terminator.mpr ⟨rfl, rfl, hterminator⟩⟩

end

/-- The targets of a function are those of its operations. -/
theorem operationAt_of_mem_targets (hnodup : (blockIds functions).Nodup) {f : Function}
    (hf : f ∈ functions) {t : SourceTarget} (ht : t ∈ f.targets) :
    (operationAt functions t).isSome = true := by
  obtain ⟨b, hb, hmem⟩ := List.mem_flatMap.mp ht
  have hat : blockAt functions f.id b.id = some b :=
    (blockAt_eq_some_iff hnodup).mpr ⟨f, hf, rfl, hb, rfl⟩
  cases t with
  | instruction function block i =>
      obtain ⟨rfl, rfl, hi⟩ := mem_blockTargets_instruction.mp hmem
      rw [operationAt, hat, Option.bind_some, List.getElem?_eq_getElem hi]
      rfl
  | terminator function block =>
      obtain ⟨rfl, rfl, hterminator⟩ := mem_blockTargets_terminator.mp hmem
      obtain ⟨t, ht⟩ := Option.isSome_iff_exists.mp hterminator
      rw [operationAt, hat, Option.bind_some, ht]
      rfl
  | global id => exact absurd hmem not_mem_blockTargets_global

theorem nodup_blockTargets (function : FunctionId) (b : BasicBlock) :
    (blockTargets function b).Nodup := by
  unfold blockTargets
  refine List.nodup_append.mpr ⟨?_, ?_, ?_⟩
  · refine List.nodup_range.map fun i j heq => ?_
    cases heq
    rfl
  · split
    · exact List.nodup_singleton _
    · exact List.nodup_nil
  · rintro t ht t' ht' rfl
    obtain ⟨i, -, rfl⟩ := List.mem_map.mp ht
    split at ht'
    · cases List.mem_singleton.mp ht'
    · cases ht'

theorem nodup_targets {f : Function} (hids : (f.blocks.map BasicBlock.id).Nodup) :
    f.targets.Nodup := by
  refine List.nodup_flatMap.mpr ⟨fun b _ => nodup_blockTargets f.id b, ?_⟩
  rw [List.Nodup, List.pairwise_map] at hids
  refine hids.imp fun {b b'} hne t ht ht' => hne ?_
  cases t with
  | instruction function block i =>
      exact (mem_blockTargets_instruction.mp ht).2.1.symm.trans
        (mem_blockTargets_instruction.mp ht').2.1
  | terminator function block =>
      exact (mem_blockTargets_terminator.mp ht).2.1.symm.trans
        (mem_blockTargets_terminator.mp ht').2.1
  | global id => exact absurd ht not_mem_blockTargets_global

/-! ## Checkpoints -/

/-- A row of a checkpoint tells what is old in the block. -/
structure Remembers (f : Function) (row : Nat × Nat × Bool) (old : List SourceTarget)
    (b : BasicBlock) : Prop where
  front : row.2.1 ≤ row.1
  length : row.1 ≤ b.instructions.length
  entry : b.id = f.entry →
    row.2.1 ≤ b.allocas ∧ row.1 + (b.allocas - row.2.1) ≤ b.instructions.length
  instruction : ∀ i, .instruction f.id b.id i ∈ old ↔
    i < b.instructions.length ∧ isNew (b.id = f.entry) row.1 row.2.1 b.allocas i = false
  terminator : .terminator f.id b.id ∈ old ↔ row.2.2 = true

/-- A checkpoint tells what stood when it was taken. -/
structure Checkpointed (fb : FunctionBuilder) (before : SourceCheckpoint)
    (old : List SourceTarget) : Prop where
  rows : ∀ b ∈ fb.func.blocks, Remembers fb.func (before.row b.id) old b
  unknown : ∀ bb, bb ∉ fb.func.blocks.map BasicBlock.id → before.row bb = (0, 0, false)
  stands : ∀ t ∈ old, (operationAt fb.functions t).isSome = true

/-- Old instructions of a block without a change of its front. -/
theorem isNew_entry {len front allocas i : Nat} :
    isNew true len front allocas i = false ↔
      (i < front ∨ allocas ≤ i) ∧ i < len + (allocas - front) := by
  simp only [isNew, if_true, decide_eq_false_iff_not, not_or, not_and]
  omega

theorem isNew_other {len front allocas i : Nat} :
    isNew false len front allocas i = false ↔ i < len := by
  simp [isNew]

section

variable {fb fb' : FunctionBuilder} {e : Edit}

theorem moves_eq_instruction {t : SourceTarget} {block : BlockId} {j : Nat}
    (h : e.moves fb t = .instruction function block j) :
    ∃ i, t = .instruction function block i := by
  unfold Edit.moves FunctionBuilder.hoisted at h
  cases t with
  | instruction f b i =>
      split at h
      · simp only at h
        split at h <;> cases h <;> exact ⟨_, rfl⟩
      · cases h
        exact ⟨_, rfl⟩
  | _ => split at h <;> cases h

theorem mem_map_moves_terminator {old : List SourceTarget} {block : BlockId} :
    .terminator function block ∈ old.map (e.moves fb) ↔
      .terminator function block ∈ old := by
  constructor
  · intro h
    obtain ⟨t, ht, heq⟩ := List.mem_map.mp h
    cases t with
    | terminator f b =>
        rw [Constructing.moves_terminator] at heq
        exact heq ▸ ht
    | instruction f b i =>
        unfold Edit.moves FunctionBuilder.hoisted at heq
        split at heq
        · simp only at heq
          split at heq <;> cases heq
        · cases heq
    | global id =>
        unfold Edit.moves at heq
        split at heq <;> cases heq
  · intro h
    rw [← @Constructing.moves_terminator fb e function block]
    exact List.mem_map_of_mem h

theorem mem_map_moves_instruction (h : Constructing fb) {old : List SourceTarget}
    (hb : b ∈ fb.func.blocks) {j : Nat} :
    .instruction fb.func.id b.id j ∈ old.map (e.moves fb) ↔
      ∃ i, .instruction fb.func.id b.id i ∈ old ∧ e.index fb b i = j := by
  constructor
  · intro hmem
    obtain ⟨t, ht, heq⟩ := List.mem_map.mp hmem
    obtain ⟨i, rfl⟩ := moves_eq_instruction heq
    rw [h.moves_instruction hb, SourceTarget.instruction.injEq] at heq
    exact ⟨i, ht, heq.2.2⟩
  · rintro ⟨i, hi, rfl⟩
    rw [← h.moves_instruction hb]
    exact List.mem_map_of_mem hi

end

namespace Remembers

variable {fb fb' : FunctionBuilder} {e : Edit}

/-- An edit moves old instructions, and what it adds is new. -/
theorem effect (h : Constructing fb) (he : Effect e fb fb') {row : Nat × Nat × Bool}
    {old : List SourceTarget} (hb : b ∈ fb.func.blocks) (hr : Remembers fb.func row old b) :
    Remembers fb'.func row (old.map (e.moves fb)) (e.block fb b) := by
  obtain ⟨len, front, ended⟩ := row
  have hfront : front ≤ len := hr.front
  have hlength : len ≤ b.instructions.length := hr.length
  have hallocas := b.allocas_le
  have hterminator : .terminator fb'.func.id (e.block fb b).id ∈ old.map (e.moves fb) ↔
      ended = true := by
    rw [he.id, Edit.block_id, mem_map_moves_terminator]
    exact hr.terminator
  have hinstruction : ∀ j, .instruction fb'.func.id (e.block fb b).id j ∈ old.map (e.moves fb) ↔
      ∃ i, (i < b.instructions.length ∧
        isNew (b.id = fb.func.entry) len front b.allocas i = false) ∧ e.index fb b i = j := by
    intro j
    rw [he.id, Edit.block_id, mem_map_moves_instruction h hb]
    exact exists_congr fun i => and_congr_left fun _ => hr.instruction i
  have hentry : (e.block fb b).id = fb'.func.entry ↔ b.id = fb.func.entry := by
    rw [Edit.block_id, he.entry]
  -- The block is untouched, grows at its end, or takes an alloca behind its first ones.
  rcases Edit.block_cases he.allowed b with ⟨hsame, hindex⟩ | ⟨ins, hblock, hindex⟩ |
    ⟨ins, hins, hblock, hid, hindex⟩
  · have hsameAllocas : (e.block fb b).allocas = b.allocas := by
      unfold BasicBlock.allocas
      rw [hsame]
    refine ⟨hfront, ?_, ?_, fun j => ?_, hterminator⟩
    · rw [hsame]
      exact hlength
    · rw [hentry, hsame, hsameAllocas]
      exact hr.entry
    · rw [hinstruction, hsame, hsameAllocas]
      simp only [hentry, hindex, exists_eq_right]
  · -- The appended instruction is behind all old ones.
    have hlen : (b.push ins).instructions.length = b.instructions.length + 1 := by
      simp [BasicBlock.push]
    obtain ⟨hle, hsame⟩ := b.allocas_push ins
    have hle' := (b.push ins).allocas_le
    refine ⟨hfront, ?_, fun hid => ?_, fun j => ?_, hterminator⟩
    · rw [hblock, hlen]
      show len ≤ _
      omega
    · obtain ⟨hfrontAllocas, hmoved⟩ := hr.entry (hentry.mp hid)
      rw [hblock, hlen]
      show front ≤ _ ∧ len + (_ - front) ≤ _
      simp only at hfrontAllocas hmoved
      omega
    · rw [hinstruction]
      simp only [hentry, hindex, exists_eq_right]
      rw [hblock, hlen]
      by_cases hid : b.id = fb.func.entry
      · obtain ⟨hfrontAllocas, hmoved⟩ := hr.entry hid
        simp only [hid, decide_true, isNew_entry]
        simp only at hfrontAllocas hmoved
        omega
      · simp only [hid, decide_false, isNew_other]
        omega
  · -- The allocation stands behind the old ones and pushes the rest back.
    have hlen : (b.hoist ins).instructions.length = b.instructions.length + 1 :=
      length_insertAlloca ins b.instructions
    have hmore : (b.hoist ins).allocas = b.allocas + 1 := takeWhile_insertAlloca hins _
    obtain ⟨hfrontAllocas, hmoved⟩ := hr.entry hid
    simp only at hfrontAllocas hmoved
    refine ⟨hfront, ?_, fun _ => ?_, fun j => ?_, hterminator⟩
    · rw [hblock, hlen]
      show len ≤ _
      omega
    · rw [hblock, hlen, hmore]
      show front ≤ _ ∧ len + (_ - front) ≤ _
      omega
    · rw [hinstruction]
      simp only [hentry, hindex, hid, decide_true, isNew_entry]
      rw [hblock, hlen, hmore]
      constructor
      · rintro ⟨i, hi, rfl⟩
        split <;> omega
      · intro hj
        by_cases hlow : j < b.allocas + 1
        · exact ⟨j, by omega, if_neg (by omega)⟩
        · exact ⟨j - 1, by omega, by rw [if_pos (by omega)]; omega⟩

theorem created {f : Function} {old : List SourceTarget} (hempty : b.instructions = [])
    (hold : ∀ i, .instruction f.id b.id i ∉ old) (hterminator : .terminator f.id b.id ∉ old) :
    Remembers f (0, 0, false) old b where
  front := Nat.le_refl _
  length := Nat.zero_le _
  entry := fun _ => by
    have hallocas := b.allocas_le
    exact ⟨Nat.zero_le _, by simpa using hallocas⟩
  instruction := fun i => by
    rw [hempty]
    exact iff_of_false (hold i) fun h => absurd h.1 (Nat.not_lt_zero i)
  terminator := iff_of_false hterminator nofun

end Remembers

theorem mem_blockIds_of_instruction (hnodup : (blockIds functions).Nodup) {block : BlockId}
    {i : Nat} (h : (operationAt functions (.instruction function block i)).isSome = true) :
    block ∈ blockIds functions := by
  obtain ⟨o, ho⟩ := Option.isSome_iff_exists.mp h
  obtain ⟨ins, hins, -⟩ := Option.map_eq_some_iff.mp ho
  obtain ⟨b, hb, -⟩ := Option.bind_eq_some_iff.mp hins
  obtain ⟨f, hf, -, hmem, rfl⟩ := (blockAt_eq_some_iff hnodup).mp hb
  exact List.mem_flatMap.mpr ⟨f, hf, List.mem_map_of_mem hmem⟩

theorem mem_blockIds_of_terminator (hnodup : (blockIds functions).Nodup) {block : BlockId}
    (h : (operationAt functions (.terminator function block)).isSome = true) :
    block ∈ blockIds functions := by
  obtain ⟨o, ho⟩ := Option.isSome_iff_exists.mp h
  obtain ⟨t, ht, -⟩ := Option.map_eq_some_iff.mp ho
  obtain ⟨b, hb, -⟩ := Option.bind_eq_some_iff.mp ht
  obtain ⟨f, hf, -, hmem, rfl⟩ := (blockAt_eq_some_iff hnodup).mp hb
  exact List.mem_flatMap.mpr ⟨f, hf, List.mem_map_of_mem hmem⟩

namespace Checkpointed

variable {fb fb' : FunctionBuilder} {e : Edit} {before : SourceCheckpoint}
  {old : List SourceTarget}

theorem effect (h : Constructing fb) (he : Effect e fb fb') (h' : Constructing fb')
    (hc : Checkpointed fb before old) :
    Checkpointed fb' before (old.map (e.moves fb)) where
  rows := by
    intro b' hb'
    rw [h.blocks_eq he] at hb'
    -- Only a block just created has no row to remember.
    rcases List.mem_append.mp hb' with hb' | hb'
    · obtain ⟨b, hb, rfl⟩ := List.mem_map.mp hb'
      rw [Edit.block_id]
      exact (hc.rows b hb).effect h he hb
    · -- A new block is in no function, so nothing old stands in it.
      have hids := h'.blocks.nodup
      rw [h.blockIds_eq he] at hids
      have hnew : b'.id ∉ blockIds fb.functions := fun hold =>
        List.disjoint_of_nodup_append hids hold (List.mem_map_of_mem hb')
      have hcurrent : b'.id ∉ fb.func.blocks.map BasicBlock.id := fun hold => by
        rw [blockIds_functions] at hnew
        exact hnew (List.mem_append_right _ hold)
      have hempty : b'.instructions = [] := by
        cases e with
        | create name =>
            rw [List.mem_singleton.mp hb']
            rfl
        | _ => cases hb'
      rw [hc.unknown b'.id hcurrent]
      refine Remembers.created hempty (fun i hmem => ?_) fun hmem => ?_
      · obtain ⟨t, ht, heq⟩ := List.mem_map.mp hmem
        obtain ⟨k, rfl⟩ := moves_eq_instruction heq
        exact hnew (mem_blockIds_of_instruction h.blocks.nodup (hc.stands _ ht))
      · exact hnew (mem_blockIds_of_terminator h.blocks.nodup
          (hc.stands _ (mem_map_moves_terminator.mp hmem)))
  unknown := by
    intro bb hbb
    refine hc.unknown bb fun hmem => hbb ?_
    rw [h.blocks_eq he, List.map_append, Edit.map_block_id]
    exact List.mem_append_left _ hmem
  stands := by
    intro t ht
    obtain ⟨t', ht', rfl⟩ := List.mem_map.mp ht
    obtain ⟨o, ho⟩ := Option.isSome_iff_exists.mp (hc.stands t' ht')
    rw [h.operationAt_moves he h' ho]
    rfl

/-- A new checkpoint tells what stands now. -/
theorem take (h : Constructing fb) : Checkpointed fb ⟨fb.func.blocks.map fun b =>
    (b.id, b.instructions.length, b.allocas, b.terminator.isSome)⟩ fb.func.targets := by
  have hunique : AssocMap.UniqueKeys (fb.func.blocks.map fun b =>
      (b.id, b.instructions.length, b.allocas, b.terminator.isSome)) := by
    unfold AssocMap.UniqueKeys
    rw [List.map_map]
    exact h.ids
  refine ⟨fun b hb => ?_, fun bb hbb => ?_, fun t ht => ?_⟩
  · have hrow : (SourceCheckpoint.mk (fb.func.blocks.map fun b =>
        (b.id, b.instructions.length, b.allocas, b.terminator.isSome))).row b.id =
        (b.instructions.length, b.allocas, b.terminator.isSome) := by
      unfold SourceCheckpoint.row
      rw [AssocMap.get_extend hunique, AssocMap.get_nil, Option.or_none,
        AssocMap.get_of_mem hunique (List.mem_map.mpr ⟨b, hb, rfl⟩)]
      rfl
    rw [hrow]
    have hallocas := b.allocas_le
    refine ⟨hallocas, Nat.le_refl _, fun _ => ⟨Nat.le_refl _, by simp⟩, fun i => ?_, ?_⟩
    · rw [mem_targets_instruction h.ids hb]
      by_cases hid : b.id = fb.func.entry
      · simp only [hid, decide_true, isNew_entry]
        omega
      · simp only [hid, decide_false, isNew_other]
        omega
    · exact mem_targets_terminator h.ids hb
  · unfold SourceCheckpoint.row
    rw [AssocMap.get_extend hunique, AssocMap.get_nil, Option.or_none,
      AssocMap.get_eq_none_iff.mpr (by rw [List.map_map]; exact hbb)]
    rfl
  · exact operationAt_of_mem_targets h.blocks.nodup (List.mem_append_right _ List.mem_cons_self) ht

end Checkpointed

/-- What is new since a checkpoint is what did not stand when it was taken. -/
theorem newTargets_eq {fb : FunctionBuilder} {before : SourceCheckpoint}
    {old : List SourceTarget} (hc : Checkpointed fb before old) :
    fb.func.blocks.flatMap (newTargets fb.func before) =
      fb.func.targets.filter fun t => t ∉ old := by
  unfold Function.targets
  rw [List.filter_flatMap]
  refine List.flatMap_congr fun b hb => ?_
  have hr := hc.rows b hb
  unfold newTargets blockTargets
  rw [List.filter_append, List.filter_map]
  refine congrArg₂ (· ++ ·) (congrArg _ (List.filter_congr fun i hi => ?_)) ?_
  · have hiff := hr.instruction i
    rw [and_iff_right (List.mem_range.mp hi)] at hiff
    show isNew _ _ _ _ _ = decide (_ ∉ old)
    cases hnew : isNew (decide (b.id = fb.func.entry)) (before.row b.id).1 (before.row b.id).2.1
        b.allocas i with
    | true =>
        rw [eq_comm, decide_eq_true_eq]
        intro hmem
        rw [hiff.mp hmem] at hnew
        cases hnew
    | false =>
        rw [eq_comm, decide_eq_false_iff_not]
        exact not_not.mpr (hiff.mpr hnew)
  · have hiff := hr.terminator
    by_cases hterminator : b.terminator.isSome = true
    · simp only [hterminator, true_and, if_true]
      by_cases hended : (before.row b.id).2.2 = true
      · have hmem := hiff.mpr hended
        simp [hended, hmem]
      · have hmem : .terminator fb.func.id b.id ∉ old := fun h => hended (hiff.mp h)
        simp [hended, hmem]
    · simp [hterminator]

end Whale
