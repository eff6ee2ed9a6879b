import Whale.Builder.Checkpoints

set_option autoImplicit false

/-! # Mappings and pending shifts

The stored mappings are out of date by the pending shift of the function under construction. With
the shift they are the records, and every edit keeps it so. -/

namespace Whale

/-! ## Mappings -/

/-- Move the places of a block from `first` on. -/
def shiftTarget (function : FunctionId) (entry : BlockId) (first count : Nat) :
    SourceTarget → SourceTarget
  | .instruction f b index =>
      if f = function ∧ b = entry ∧ first ≤ index then .instruction f b (index + count)
      else .instruction f b index
  | t => t

/-- The pending shift of the function under construction. -/
def FunctionBuilder.pending (fb : FunctionBuilder) (t : SourceTarget) : SourceTarget :=
  match fb.mb.sourceShifts.get fb.func.id with
  | none => t
  | some (first, count) => shiftTarget fb.func.id fb.func.entry first count t

def SourceMapping.move (f : SourceTarget → SourceTarget) (m : SourceMapping) : SourceMapping :=
  { m with target := f m.target }

/-- The flushed builder. -/
def FunctionBuilder.flushed (fb : FunctionBuilder) : ModuleBuilder :=
  fb.mb.flushSourceShifts fb.func.id fb.func.entry

theorem flushed_mappings (fb : FunctionBuilder) : fb.flushed.module.sources.mappings =
    fb.mb.module.sources.mappings.map (SourceMapping.move fb.pending) := by
  unfold FunctionBuilder.flushed ModuleBuilder.flushSourceShifts FunctionBuilder.pending
  cases hget : fb.mb.sourceShifts.get fb.func.id with
  | none => exact (List.map_id _).symm
  | some shift =>
      obtain ⟨first, count⟩ := shift
      refine List.map_congr_left fun m _ => ?_
      obtain ⟨target, original⟩ := m
      cases target with
      | instruction f b index =>
          simp only [SourceMapping.move, shiftTarget]
          split <;> rfl
      | _ => rfl

/-- The mappings with the pending shift are the records, and the pending shift says where the
front of the entry block was. -/
structure Mapped (fb : FunctionBuilder) (m : Marks) : Prop where
  mappings : fb.mb.module.sources.mappings.map (SourceMapping.move fb.pending) =
    m.records.map Record.mapping
  operations : ∀ r ∈ m.records, operationAt fb.functions r.target = some r.operation
  nodup : (m.records.map Record.target).Nodup
  front : ∀ first count, fb.mb.sourceShifts.get fb.func.id = some (first, count) →
    first ≤ fb.entryAllocas ∧ ∀ mapping ∈ fb.mb.module.sources.mappings, ∀ i,
      mapping.target = .instruction fb.func.id fb.func.entry i → first ≤ i →
        first + count = fb.entryAllocas
  unmapped : fb.func.id ∉ fb.mb.sourceMappedFunctions → ∀ r ∈ m.records, ∀ i,
    r.target ≠ .instruction fb.func.id fb.func.entry i
  others : ∀ f, f ≠ fb.func.id → fb.mb.sourceShifts.get f = none

namespace Mapped

variable {fb fb' : FunctionBuilder} {e : Edit} {m : Marks}

/-- With the pending shift, a mapping is one of a record. -/
theorem exists_record (hm : Mapped fb m) {mapping : SourceMapping}
    (hmapping : mapping ∈ fb.mb.module.sources.mappings) :
    ∃ r ∈ m.records, r.target = fb.pending mapping.target := by
  have hmem : mapping.move fb.pending ∈ m.records.map Record.mapping := by
    rw [← hm.mappings]
    exact List.mem_map_of_mem hmapping
  obtain ⟨r, hr, heq⟩ := List.mem_map.mp hmem
  exact ⟨r, hr, congrArg SourceMapping.target heq⟩

/-- A mapping of the entry block leads to an instruction of it. -/
theorem pending_lt (h : Constructing fb) (hm : Mapped fb m) {mapping : SourceMapping}
    (hmapping : mapping ∈ fb.mb.module.sources.mappings) {j : Nat}
    (hpending : fb.pending mapping.target = .instruction fb.func.id fb.func.entry j)
    {entry : BasicBlock} (hentry : entry ∈ fb.func.blocks) (hid : entry.id = fb.func.entry) :
    j < entry.instructions.length := by
  obtain ⟨r, hr, htarget⟩ := hm.exists_record hmapping
  rw [hpending] at htarget
  have hop := hm.operations r hr
  rw [htarget, ← hid, operationAt, h.blockAt_current hentry, Option.bind_some] at hop
  obtain ⟨ins, hins, -⟩ := Option.map_eq_some_iff.mp hop
  exact (List.getElem?_eq_some_iff.mp hins).1

/-- Records move with their operations. -/
theorem operations_effect (h : Constructing fb) (he : Effect e fb fb') (h' : Constructing fb')
    (hm : Mapped fb m) : ∀ r ∈ (m.move (e.moves fb)).records,
      operationAt fb'.functions r.target = some r.operation := by
  intro r' hr'
  obtain ⟨r, hr, rfl⟩ := List.mem_map.mp hr'
  exact h.operationAt_moves he h' (hm.operations r hr)

theorem moves_injective : Function.Injective (e.moves fb) := by
  unfold Edit.moves
  cases e.isHoist with
  | true => exact fb.hoisted_injective
  | false => exact fun s t heq => heq

theorem nodup_effect (hm : Mapped fb m) :
    ((m.move (e.moves fb)).records.map Record.target).Nodup := by
  have hmap : (m.move (e.moves fb)).records.map Record.target =
      (m.records.map Record.target).map (e.moves fb) := by
    unfold Marks.move
    rw [List.map_map, List.map_map]
    rfl
  rw [hmap]
  exact hm.nodup.map moves_injective

theorem effect_stay (h : Constructing fb) (he : Effect e fb fb') (h' : Constructing fb')
    (hhoist : e.isHoist = false) (hm : Mapped fb m) : Mapped fb' (m.move (e.moves fb)) := by
  have hshifts : fb'.mb.sourceShifts = fb.mb.sourceShifts := by
    rw [he.shifts]
    cases e with
    | hoist i => cases hhoist
    | _ => rfl
  have hmove : e.moves fb = id := by
    funext t
    rw [Edit.moves, hhoist]
    rfl
  have hrecords : (m.move (e.moves fb)).records = m.records := by
    rw [hmove]
    exact List.map_id _
  have hpending : fb'.pending = fb.pending := by
    funext t
    unfold FunctionBuilder.pending
    rw [hshifts, he.id, he.entry]
  obtain ⟨entry, hentry, hid⟩ := h.entry
  have hentry' : e.block fb entry ∈ fb'.func.blocks := by
    rw [h.blocks_eq he]
    exact List.mem_append_left _ (List.mem_map_of_mem hentry)
  have hallocas := h.entryAllocas_eq hentry hid
  have hallocas' := h'.entryAllocas_eq hentry' (by rw [Edit.block_id, hid, he.entry])
  have hgrows : fb.entryAllocas ≤ fb'.entryAllocas ∧
      (fb.entryAllocas < entry.instructions.length → fb'.entryAllocas = fb.entryAllocas) := by
    rw [hallocas, hallocas']
    rcases Edit.block_cases he.allowed entry with ⟨hsame, -⟩ | ⟨ins, hblock, -⟩ |
      ⟨ins, -, -, -, hindex⟩
    · unfold BasicBlock.allocas
      rw [hsame]
      exact ⟨Nat.le_refl _, fun _ => rfl⟩
    · rw [hblock]
      exact entry.allocas_push ins
    · have hstay := hindex entry.allocas
      rw [Edit.index, hhoist, if_pos (Nat.le_refl _)] at hstay
      simp at hstay
  refine ⟨?_, operations_effect h he h' hm, nodup_effect hm, ?_, ?_, ?_⟩
  · rw [hpending, he.module, hrecords]
    exact hm.mappings
  · intro first count hget
    rw [hshifts, he.id] at hget
    obtain ⟨hfirst, hall⟩ := hm.front first count hget
    refine ⟨Nat.le_trans hfirst hgrows.1, ?_⟩
    rw [he.module, he.id, he.entry]
    intro mapping hmapping i ht hi
    have hcount := hall mapping hmapping i ht hi
    have hpend : fb.pending mapping.target =
        .instruction fb.func.id fb.func.entry (i + count) := by
      unfold FunctionBuilder.pending
      rw [hget, ht]
      exact if_pos ⟨rfl, rfl, hi⟩
    have hlt := hm.pending_lt h hmapping hpend hentry hid
    rw [hgrows.2 (by omega)]
    exact hcount
  · rw [he.mapped, he.id, he.entry, hrecords]
    exact hm.unmapped
  · rw [hshifts, he.id]
    exact hm.others

theorem pending_ne (hm : Mapped fb m) (hunmapped : fb.func.id ∉ fb.mb.sourceMappedFunctions)
    {mapping : SourceMapping} (hmapping : mapping ∈ fb.mb.module.sources.mappings) (i : Nat) :
    fb.pending mapping.target ≠ .instruction fb.func.id fb.func.entry i := by
  obtain ⟨r, hr, htarget⟩ := hm.exists_record hmapping
  rw [← htarget]
  exact hm.unmapped hunmapped r hr i

theorem shifts_hoist (fb : FunctionBuilder) (ins : Instruction) :
    (Edit.hoist ins).shifts fb =
      if fb.func.id ∈ fb.mb.sourceMappedFunctions then
        fb.mb.sourceShifts.insert fb.func.id
          (match fb.mb.sourceShifts.get fb.func.id with
            | some (first, count) => (first, count + 1)
            | none => (fb.entryAllocas, 1))
      else fb.mb.sourceShifts := by
  show (fb.mb.shiftSources fb.func.id fb.entryAllocas).sourceShifts = _
  unfold ModuleBuilder.shiftSources
  split <;> rfl

/-- An insertion adds to the pending shift, or there is nothing to shift. -/
theorem effect_hoist (h : Constructing fb) {ins : Instruction}
    (he : Effect (.hoist ins) fb fb') (h' : Constructing fb') (hm : Mapped fb m) :
    Mapped fb' (m.move ((Edit.hoist ins).moves fb)) := by
  obtain ⟨entry, hentry, hid⟩ := h.entry
  have hentry' : (Edit.hoist ins).block fb entry ∈ fb'.func.blocks := by
    rw [h.blocks_eq he]
    exact List.mem_append_left _ (List.mem_map_of_mem hentry)
  have hmore : fb'.entryAllocas = fb.entryAllocas + 1 := by
    rw [h'.entryAllocas_eq hentry' (by rw [Edit.block_id, hid, he.entry]),
      h.entryAllocas_eq hentry hid, show (Edit.hoist ins).block fb entry = entry.hoist ins from
        if_pos hid]
    exact takeWhile_insertAlloca he.allowed entry.instructions
  have hshifts := he.shifts.trans (shifts_hoist fb ins)
  have hpending : ∀ mapping ∈ fb.mb.module.sources.mappings,
      fb'.pending mapping.target = fb.hoisted (fb.pending mapping.target) := by
    intro mapping hmapping
    -- A mapped function counts the hoist in its shift; an unmapped one has nothing to move.
    by_cases hmapped : fb.func.id ∈ fb.mb.sourceMappedFunctions
    · rw [if_pos hmapped] at hshifts
      unfold FunctionBuilder.pending
      rw [he.id, he.entry, hshifts, AssocMap.get_insert_self]
      cases hget : fb.mb.sourceShifts.get fb.func.id with
      | none => rfl
      | some shift =>
          obtain ⟨first, count⟩ := shift
          obtain ⟨hfirst, hall⟩ := hm.front first count hget
          cases ht : mapping.target with
          | instruction f b i =>
              by_cases hin : f = fb.func.id ∧ b = fb.func.entry
              · obtain ⟨rfl, rfl⟩ := hin
                have hcount := hall mapping hmapping i ht
                simp only [shiftTarget, true_and]
                -- Below `first` neither the shift nor the hoist moves the index.
                by_cases hi : first ≤ i
                · rw [if_pos hi, if_pos hi]
                  exact (if_pos ⟨rfl, rfl, by rw [← hcount hi]; omega⟩).symm
                · rw [if_neg hi, if_neg hi]
                  exact (if_neg fun hle => hi (by have := hle.2.2; omega)).symm
              · simp only [shiftTarget, FunctionBuilder.hoisted, ← and_assoc, hin, false_and,
                  if_false]
          | _ => rfl
    · rw [if_neg hmapped] at hshifts
      have hsame : fb'.pending = fb.pending := by
        funext t
        unfold FunctionBuilder.pending
        rw [hshifts, he.id, he.entry]
      rw [hsame]
      have hnone := hm.pending_ne hmapped hmapping
      cases hp : fb.pending mapping.target with
      | instruction f b i =>
          refine (if_neg fun hin => hnone i ?_).symm
          rw [hp, hin.1, hin.2.1]
      | _ => rfl
  have hfront : ∀ first count, fb'.mb.sourceShifts.get fb.func.id = some (first, count) →
      first ≤ fb.entryAllocas + 1 ∧ ∀ mapping ∈ fb.mb.module.sources.mappings, ∀ i,
        mapping.target = .instruction fb.func.id fb.func.entry i → first ≤ i →
          first + count = fb.entryAllocas + 1 := by
    intro first count hget
    by_cases hmapped : fb.func.id ∈ fb.mb.sourceMappedFunctions
    · rw [hshifts, if_pos hmapped, AssocMap.get_insert_self] at hget
      cases hold : fb.mb.sourceShifts.get fb.func.id with
      | none =>
          rw [hold] at hget
          cases hget
          exact ⟨Nat.le_succ _, fun _ _ _ _ _ => rfl⟩
      | some shift =>
          obtain ⟨first', count'⟩ := shift
          rw [hold] at hget
          cases hget
          obtain ⟨hfirst, hall⟩ := hm.front first count' hold
          refine ⟨Nat.le_succ_of_le hfirst, fun mapping hmapping i ht hi => ?_⟩
          rw [← hall mapping hmapping i ht hi]
          rfl
    · rw [hshifts, if_neg hmapped] at hget
      refine ⟨Nat.le_succ_of_le (hm.front first count hget).1, fun mapping hmapping i ht hi => ?_⟩
      refine absurd ?_ (hm.pending_ne hmapped hmapping (i + count))
      unfold FunctionBuilder.pending
      rw [hget, ht]
      exact if_pos ⟨rfl, rfl, hi⟩
  refine ⟨?_, operations_effect h he h' hm, nodup_effect hm, ?_, ?_, ?_⟩
  · rw [he.module]
    calc fb.mb.module.sources.mappings.map (SourceMapping.move fb'.pending)
        = fb.mb.module.sources.mappings.map
            (SourceMapping.move fb.hoisted ∘ SourceMapping.move fb.pending) :=
          List.map_congr_left fun mapping hmapping =>
            congrArg (SourceMapping.mk · mapping.original) (hpending mapping hmapping)
      _ = (m.records.map Record.mapping).map (SourceMapping.move fb.hoisted) := by
          rw [← List.map_map, hm.mappings]
      _ = (m.move ((Edit.hoist ins).moves fb)).records.map Record.mapping := by
          show _ = (m.records.map (Record.move fb.hoisted)).map Record.mapping
          rw [List.map_map, List.map_map]
          rfl
  · rw [he.id, he.entry, he.module, hmore]
    exact hfront
  · rw [he.id, he.entry, he.mapped]
    intro hunmapped r' hr' i heq
    obtain ⟨r, hr, rfl⟩ := List.mem_map.mp hr'
    obtain ⟨j, hj⟩ := moves_eq_instruction (e := .hoist ins) (t := r.target) heq
    exact hm.unmapped hunmapped r hr j hj
  · rw [he.id]
    intro f hf
    rw [hshifts]
    split
    · rw [AssocMap.get_insert_ne hf]
      exact hm.others f hf
    · exact hm.others f hf

end Mapped

/-! ## Flushing and annotating -/

/-- The builder with its shifts applied. -/
def FunctionBuilder.flush (fb : FunctionBuilder) : FunctionBuilder := { fb with mb := fb.flushed }

/-- Flushing changes the mappings and the shift of the function. -/
structure Flushed (mb mb' : ModuleBuilder) (function : FunctionId) : Prop where
  functions : mb'.module.functions = mb.module.functions
  globals : mb'.module.globalIds = mb.module.globalIds
  nextBlock : mb'.nextBlock = mb.nextBlock
  mapped : mb'.sourceMappedFunctions = mb.sourceMappedFunctions
  files : mb'.module.sources.files = mb.module.sources.files
  originals : mb'.module.sources.originals = mb.module.sources.originals
  known : mb'.module.sources.mappings.map SourceMapping.original =
    mb.module.sources.mappings.map SourceMapping.original
  shift : mb'.sourceShifts.get function = none
  others : ∀ f, f ≠ function → mb'.sourceShifts.get f = mb.sourceShifts.get f

theorem flushed_spec (fb : FunctionBuilder) : Flushed fb.mb fb.flushed fb.func.id := by
  have hknown : fb.flushed.module.sources.mappings.map SourceMapping.original =
      fb.mb.module.sources.mappings.map SourceMapping.original := by
    rw [flushed_mappings, List.map_map]
    rfl
  unfold FunctionBuilder.flushed ModuleBuilder.flushSourceShifts at hknown ⊢
  cases hget : fb.mb.sourceShifts.get fb.func.id with
  | none => exact ⟨rfl, rfl, rfl, rfl, rfl, rfl, rfl, hget, fun _ _ => rfl⟩
  | some shift =>
      rw [hget] at hknown
      refine ⟨rfl, rfl, rfl, rfl, rfl, rfl, hknown, ?_, fun f hf => AssocMap.get_erase_ne hf _⟩
      exact AssocMap.get_eq_none_iff.mpr (AssocMap.not_mem_erase _ _)

theorem functions_flush (fb : FunctionBuilder) : fb.flush.functions = fb.functions := by
  unfold FunctionBuilder.functions FunctionBuilder.flush
  rw [(flushed_spec fb).functions]

theorem Constructing.same {fb fb' : FunctionBuilder} (h : Constructing fb)
    (hfunctions : fb'.functions = fb.functions) (hfunc : fb'.func = fb.func)
    (hnext : fb'.mb.nextBlock = fb.mb.nextBlock) : Constructing fb' where
  blocks := by
    rw [hfunctions, hnext]
    exact h.blocks
  entry := by
    rw [hfunc]
    exact h.entry

theorem Checkpointed.same {fb fb' : FunctionBuilder} {before : SourceCheckpoint}
    {old : List SourceTarget} (h : Checkpointed fb before old)
    (hfunctions : fb'.functions = fb.functions) (hfunc : fb'.func = fb.func) :
    Checkpointed fb' before old where
  rows := by
    rw [hfunc]
    exact h.rows
  unknown := by
    rw [hfunc]
    exact h.unknown
  stands := by
    rw [hfunctions]
    exact h.stands

theorem pending_of_none {fb : FunctionBuilder}
    (h : fb.mb.sourceShifts.get fb.func.id = none) : fb.pending = id := by
  funext t
  unfold FunctionBuilder.pending
  rw [h]
  rfl

theorem map_move_id (mappings : List SourceMapping) :
    mappings.map (SourceMapping.move id) = mappings := List.map_id _

theorem Mapped.flush {fb : FunctionBuilder} {m : Marks} (h : Mapped fb m) :
    Mapped fb.flush m where
  mappings := by
    rw [pending_of_none (flushed_spec fb).shift, map_move_id]
    exact (flushed_mappings fb).trans h.mappings
  operations := by
    rw [functions_flush]
    exact h.operations
  nodup := h.nodup
  front := fun _ _ hget => nomatch (flushed_spec fb).shift.symm.trans hget
  unmapped := by
    show fb.func.id ∉ fb.flushed.sourceMappedFunctions → _
    rw [(flushed_spec fb).mapped]
    exact h.unmapped
  others := fun f hf => ((flushed_spec fb).others f hf).trans (h.others f hf)

/-- The operations of the function itself. -/
theorem Constructing.operationAt_current {fb : FunctionBuilder} (h : Constructing fb)
    {t : SourceTarget} (ht : t ∈ fb.func.targets) :
    operationAt fb.functions t = operationAt [fb.func] t := by
  obtain ⟨b, hb, hmem⟩ := List.mem_flatMap.mp ht
  have hids : (blockIds [fb.func]).Nodup := by
    unfold blockIds
    rw [List.flatMap_singleton]
    exact h.ids
  have hown : blockAt [fb.func] fb.func.id b.id = some b :=
    (blockAt_eq_some_iff hids).mpr ⟨fb.func, List.mem_cons_self, rfl, hb, rfl⟩
  cases t with
  | instruction function block i =>
      obtain ⟨rfl, rfl, -⟩ := mem_blockTargets_instruction.mp hmem
      rw [operationAt, operationAt, h.blockAt_current hb, hown]
  | terminator function block =>
      obtain ⟨rfl, rfl, -⟩ := mem_blockTargets_terminator.mp hmem
      rw [operationAt, operationAt, h.blockAt_current hb, hown]
  | global id => rfl

/-- Each covered operation gets a record. -/
theorem recorded_mapping {fb : FunctionBuilder} (h : Constructing fb) (m : Marks)
    (old : List SourceTarget) (original : UInt64) :
    (m.recorded fb.func old original).map Record.mapping =
      (m.covered fb.func old).map (⟨·, original⟩) := by
  unfold Marks.recorded
  rw [List.map_filterMap]
  refine List.filterMap_eq_map_iff_forall_eq_some.mpr fun t ht => ?_
  have htarget := (List.mem_filter.mp ht).1
  obtain ⟨o, ho⟩ := Option.isSome_iff_exists.mp (operationAt_of_mem_targets h.blocks.nodup
    (List.mem_append_right _ List.mem_cons_self) htarget)
  rw [h.operationAt_current htarget] at ho
  rw [ho]
  rfl

/-- The builder with other metadata, after an annotation of the function. -/
def FunctionBuilder.annotated (fb : FunctionBuilder) (sources : SourceMetadata) :
    FunctionBuilder :=
  { fb with
    mb := { fb.mb with
      module := { fb.mb.module with sources := sources }
      sourceMappedFunctions := fb.func.id :: fb.mb.sourceMappedFunctions } }

/-- What the builder adds is what the annotation covers. -/
theorem Mapped.covered_eq {fb : FunctionBuilder} {m : Marks} (hm : Mapped fb m)
    (hnone : fb.mb.sourceShifts.get fb.func.id = none) {before : SourceCheckpoint}
    {old : List SourceTarget} (hc : Checkpointed fb before old) :
    (fb.func.blocks.flatMap (newTargets fb.func before)).filter
        (· ∉ fb.mb.module.sources.mappings.map SourceMapping.target) =
      m.covered fb.func old := by
  have hrecords : fb.mb.module.sources.mappings.map SourceMapping.target =
      m.records.map Record.target := by
    have hmappings := hm.mappings
    rw [pending_of_none hnone, map_move_id] at hmappings
    rw [hmappings, List.map_map]
    rfl
  rw [newTargets_eq hc, hrecords, List.filter_filter]
  refine List.filter_congr fun t _ => ?_
  rw [Bool.decide_and]
  exact Bool.and_comm _ _

theorem Mapped.annotate {fb : FunctionBuilder} {m : Marks} (h : Constructing fb)
    (hm : Mapped fb m) (hnone : fb.mb.sourceShifts.get fb.func.id = none)
    {old : List SourceTarget} {original : UInt64} {sources : SourceMetadata}
    (hsources : sources.mappings = fb.mb.module.sources.mappings ++
      (m.covered fb.func old).map (⟨·, original⟩)) (before : List (List SourceTarget)) :
    Mapped (fb.annotated sources)
      ⟨m.records ++ m.recorded fb.func old original, before⟩ where
  mappings := by
    have hpending : (fb.annotated sources).pending = id := pending_of_none hnone
    have hmappings := hm.mappings
    rw [pending_of_none hnone, map_move_id] at hmappings
    rw [hpending, map_move_id, List.map_append, recorded_mapping h, ← hmappings]
    exact hsources
  operations := by
    intro r hr
    rcases List.mem_append.mp hr with hr | hr
    · exact hm.operations r hr
    · obtain ⟨t, ht, hsome⟩ := List.mem_filterMap.mp hr
      obtain ⟨o, ho, rfl⟩ := Option.map_eq_some_iff.mp hsome
      exact (h.operationAt_current (List.mem_filter.mp ht).1).trans ho
  nodup := by
    have htargets : (m.recorded fb.func old original).map Record.target =
        m.covered fb.func old := by
      have hmapping := congrArg (List.map SourceMapping.target)
        (recorded_mapping h m old original)
      rw [List.map_map, List.map_map] at hmapping
      exact hmapping.trans (List.map_id _)
    rw [List.map_append, htargets]
    refine List.nodup_append.mpr ⟨hm.nodup, (nodup_targets h.ids).filter _, ?_⟩
    rintro t ht t' ht' rfl
    have hcovered := (List.mem_filter.mp ht').2
    simp only [decide_eq_true_eq] at hcovered
    exact hcovered.2 ht
  front := fun _ _ hget => nomatch hnone.symm.trans hget
  unmapped := fun hunmapped => absurd List.mem_cons_self hunmapped
  others := hm.others

end Whale
