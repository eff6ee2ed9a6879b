import Whale.Builder.SourceInvariant
import Whale.Lib.Collect

set_option autoImplicit false

/-! # Source mappings in every session

Each step of a session keeps the mappings in agreement with the marks, and so does a whole run, by
induction on its operations. Marks are only added; a mark that is there moves with its operation
(`track`). -/

namespace Whale

open Frontend (AstLimitError)

/-! ## Steps on a function under construction -/

theorem Marks.move_self (m : Marks) : m.move (fun t => t) = m := by
  have hrecords : m.records.map (Record.move fun t => t) = m.records := List.map_id _
  have hbefore : m.before.map (fun old => old.map fun t => t) = m.before := by simp
  unfold Marks.move
  rw [hrecords, hbefore]

/-- The annotations of an operation come from a checked program. -/
def SourceOp.Checked : SourceOp → Prop
  | .annotate note _ => note.Checked
  | _ => True

variable {s : SourceState}

namespace SourceState

/-- An operation goes on from `s` to `s'` and changes the marks by `mark`. -/
def Advances (s s' : SourceState) (mark : Marks → Marks) : Prop :=
  ∀ total m, s.Inv total m → s'.Inv total (mark m)

variable {s' : SourceState}

theorem advances_emit {op : FunctionOp} (h : (SourceOp.emit op).step s = some s') :
    s.Advances s' ((SourceOp.emit op).mark s) := by
  cases hrun : op.run s.builder.fb with
  | ok u fb =>
      simp only [SourceOp.step, hrun] at h
      by_cases hcounts : fb.Counts
      · rw [if_pos hcounts] at h
        cases h
        have hmark : (SourceOp.emit op).mark s = fun m => m.move (op.moves s.builder.fb) := by
          funext m
          refine congrArg m.move (funext fun t => ?_)
          simp only [SourceOp.moves, hrun]
        rw [hmark]
        exact fun total m hinv => hinv.emit hrun (Nat.le_of_lt hcounts.2)
      · rw [if_neg hcounts] at h
        cases h
  | error e fb =>
      have hmark : (SourceOp.emit op).mark s = fun m => m := by
        funext m
        refine Eq.trans (congrArg m.move (funext fun t => ?_)) m.move_self
        simp only [SourceOp.moves, hrun]
      rw [hmark]
      simp only [SourceOp.step, hrun] at h
      by_cases hpanic : e = .panic
      · rw [if_pos hpanic] at h
        cases h
      · rw [if_neg hpanic] at h
        cases h
        rw [((sound_functionOp op).error _ _ _ hrun).resolve_left hpanic]
        exact fun total m hinv => hinv

theorem advances_checkpoint (h : SourceOp.checkpoint.step s = some s') :
    s.Advances s' (SourceOp.checkpoint.mark s) := by
  cases hrun : s.builder.sourceCheckpoint with
  | error e =>
      simp only [SourceOp.step, hrun] at h
      cases h
  | ok result =>
      simp only [SourceOp.step, hrun] at h
      cases h
      exact fun total m hinv => hinv.checkpoint hrun

theorem advances_annotate {note : SourceAnnotation} (ha : note.Checked) {k : Nat}
    (h : (SourceOp.annotate note k).step s = some s') :
    s.Advances s' ((SourceOp.annotate note k).mark s) := by
  cases hbefore : s.checkpoints[k]? with
  | none =>
      simp only [SourceOp.step, hbefore] at h
      cases h
  | some before =>
      cases hrun : s.builder.annotateSource note before with
      | error e =>
          simp only [SourceOp.step, hbefore, hrun] at h
          cases h
      | ok builder =>
          simp only [SourceOp.step, hbefore, hrun] at h
          cases h
          intro total m hinv
          obtain ⟨old, hold, hc⟩ := forall₂_getElem? hinv.checkpoints hbefore
          have hafter := hinv.annotate ha hc hrun
          rw [SourceOp.mark, hold, Option.getD_some]
          exact { hafter with
            mapped := { hafter.mapped with }
            checkpoints := forall₂_eraseIdx hafter.checkpoints k }

theorem advances_finishMapping (h : SourceOp.finishMapping.step s = some s') :
    s.Advances s' (SourceOp.finishMapping.mark s) := by
  cases hrun : s.builder.finishSourceMapping with
  | error e =>
      simp only [SourceOp.step, hrun] at h
      cases h
  | ok builder =>
      simp only [SourceOp.step, hrun] at h
      cases h
      unfold SourceBuilder.finishSourceMapping at hrun
      split at hrun
      · obtain ⟨b, hcharge, h₁⟩ := bind_ok_iff.mp hrun
        cases h₁
        exact fun total m hinv => (hinv.charge hcharge).flush
      · cases hrun
        exact fun total m hinv => hinv

theorem advances_step {op : SourceOp} (hchecked : op.Checked) (h : op.step s = some s') :
    s.Advances s' (op.mark s) := by
  cases op with
  | emit op => exact advances_emit h
  | checkpoint => exact advances_checkpoint h
  | annotate note k => exact advances_annotate hchecked h
  | finishMapping => exact advances_finishMapping h

end SourceState

/-! ## Between functions -/

/-- Outside functions nothing is pending. -/
structure Settled (total : Nat) (mb : ModuleBuilder) (work : Nat) (m : Marks) : Prop where
  blocks : BlocksInv mb.module.functions mb.nextBlock
  mappings : mb.module.sources.mappings = m.records.map Record.mapping
  operations : ∀ r ∈ m.records, operationAt mb.module.functions r.target = some r.operation
  nodup : (m.records.map Record.target).Nodup
  shifts : ∀ f, mb.sourceShifts.get f = none
  spent : work ≤ total
  table : mb.module.sources.Table (total - work)

variable {t : SourceTarget}

/-- What a function has stays where it is when functions are added. -/
theorem operationAt_append {fs gs : List Function} (hnodup : (blockIds (fs ++ gs)).Nodup)
    {o : Operation} (h : operationAt fs t = some o) : operationAt (fs ++ gs) t = some o := by
  have hfs : (blockIds fs).Nodup := by
    rw [blockIds_append] at hnodup
    exact (List.nodup_append.mp hnodup).1
  have hblock : ∀ {function : FunctionId} {block : BlockId} {b : BasicBlock},
      blockAt fs function block = some b → blockAt (fs ++ gs) function block = some b := by
    intro function block b hb
    obtain ⟨f, hf, hid, hmem, hbid⟩ := (blockAt_eq_some_iff hfs).mp hb
    exact (blockAt_eq_some_iff hnodup).mpr ⟨f, List.mem_append_left _ hf, hid, hmem, hbid⟩
  cases t with
  | instruction function block i | terminator function block =>
      obtain ⟨x, hx, rfl⟩ := Option.map_eq_some_iff.mp h
      obtain ⟨b, hb, hin⟩ := Option.bind_eq_some_iff.mp hx
      rw [operationAt, hblock hb, Option.bind_some, hin]
      rfl
  | global id => cases h

namespace Settled

variable {total work : Nat} {mb : ModuleBuilder} {m : Marks}

theorem begin (h : Settled total mb work m) (id : FunctionId) (name : String)
    (params : List (String × Ty)) (retTy : Ty) (hbound : mb.nextBlock < 2 ^ 32) :
    SourceState.Inv total ⟨⟨mb.buildFunction id name params retTy, work⟩, []⟩
      { m with before := [] } := by
  obtain ⟨hmb, hid, hentry, hblocks⟩ :=
    ModuleBuilder.buildFunction_entry mb id name params retTy
  have hfresh := h.blocks.fresh hbound
  generalize mb.buildFunction id name params retTy = fb at hmb hid hentry hblocks
  have hmodule : fb.mb.module = mb.module := by rw [hmb]
  have hshifts : fb.mb.sourceShifts = mb.sourceShifts := by rw [hmb]
  have hids : blockIds fb.functions =
      blockIds mb.module.functions ++ [⟨UInt32.ofNat mb.nextBlock⟩] := by
    rw [blockIds_functions, hmodule, hblocks]
    rfl
  have hconstructing : Constructing fb := by
    refine ⟨⟨?_, ?_⟩, ?_⟩
    · rw [hids]
      refine List.nodup_append.mpr ⟨h.blocks.nodup, List.nodup_singleton _, ?_⟩
      rintro b hb b' hb' rfl
      rw [List.mem_singleton.mp hb'] at hb
      exact hfresh hb
    · rw [hids, hmb]
      intro b hb
      rcases List.mem_append.mp hb with hb | hb
      · exact Nat.lt_succ_of_lt (h.blocks.below b hb)
      · rw [List.mem_singleton.mp hb]
        show (UInt32.ofNat mb.nextBlock).toNat < mb.nextBlock + 1
        rw [UInt32.toNat_ofNat']
        exact Nat.lt_succ_of_le (Nat.mod_le _ _)
    · rw [hblocks, hentry]
      exact ⟨_, List.mem_cons_self, rfl⟩
  have hnone : fb.mb.sourceShifts.get fb.func.id = none := by
    rw [hshifts]
    exact h.shifts _
  refine ⟨hconstructing, ⟨?_, ?_, h.nodup, ?_, ?_, ?_⟩, .nil, h.spent, ?_⟩
  · show fb.mb.module.sources.mappings.map (SourceMapping.move fb.pending) = _
    rw [pending_of_none hnone, map_move_id, hmodule]
    exact h.mappings
  · intro r hr
    refine operationAt_append hconstructing.blocks.nodup ?_
    rw [hmodule]
    exact h.operations r hr
  · intro first count hget
    exact nomatch hnone.symm.trans hget
  · intro _ r hr i htarget
    have hop := h.operations r hr
    rw [htarget, hentry] at hop
    exact hfresh (mem_blockIds_of_instruction h.blocks.nodup (Option.isSome_of_eq_some hop))
  · intro f _
    exact (congrArg (AssocMap.get f) hshifts).trans (h.shifts f)
  · show fb.mb.module.sources.Table _
    rw [hmodule]
    exact h.table

/-- A finished function has its mappings where they belong. -/
theorem finish (h : s.Inv total m) :
    Settled total s.builder.fb.finish s.builder.sourceWork { m with before := [] } where
  blocks := h.flush.constructing.blocks
  mappings := by
    rw [← h.mapped.mappings]
    exact flushed_mappings s.builder.fb
  operations := h.flush.mapped.operations
  nodup := h.mapped.nodup
  shifts := by
    intro f
    by_cases hf : f = s.builder.fb.func.id
    · rw [hf]
      exact (flushed_spec s.builder.fb).shift
    · exact h.flush.mapped.others f hf
  spent := h.work
  table := h.flush.table

end Settled

/-! ## Sessions -/

theorem Settled.grow {total work : Nat} {mb mb' : ModuleBuilder} {m : Marks}
    (h : Settled total mb work m) (hgrow : mb.Grows mb') : Settled total mb' work m := by
  obtain ⟨_, _, _, _, rfl⟩ := hgrow
  exact ⟨h.blocks, h.mappings, h.operations, h.nodup, h.shifts, h.spent, h.table⟩

theorem Settled.forget {total work : Nat} {mb : ModuleBuilder} {m : Marks}
    (h : Settled total mb work m) : Settled total mb work { m with before := [] } := { h with }

def SessionOp.Checked : SessionOp → Prop
  | .source op => op.Checked
  | _ => True

namespace SourceSession

def Inv (total : Nat) : SourceSession → Marks → Prop
  | idle mb work, m => Settled total mb work m
  | building s, m => s.Inv total m

/-- The function under construction can be finished at any time. -/
theorem Inv.settled {total : Nat} {s : SourceSession} {m : Marks} (h : s.Inv total m) :
    ∃ mb work, mb.module = s.module ∧ Settled total mb work { m with before := [] } := by
  cases s with
  | idle mb work => exact ⟨mb, work, rfl, Settled.forget h⟩
  | building s => exact ⟨_, _, rfl, Settled.finish h⟩

def Advances (s s' : SourceSession) (mark : Marks → Marks) : Prop :=
  ∀ total m, s.Inv total m → s'.Inv total (mark m)

theorem advances_begin {mb mb' : ModuleBuilder} (hgrow : mb.Grows mb') (work : Nat)
    (id : FunctionId) (name : String) (params : List (String × Ty)) (retTy : Ty)
    (hcounts : (mb'.buildFunction id name params retTy).Counts) :
    (idle mb work).Advances (building ⟨⟨mb'.buildFunction id name params retTy, work⟩, []⟩)
      fun m => { m with before := [] } := by
  intro total m hinv
  have hnext := hcounts.2
  rw [(ModuleBuilder.buildFunction_entry mb' id name params retTy).1] at hnext
  exact (Settled.grow hinv hgrow).begin id name params retTy (Nat.lt_of_succ_lt hnext)

theorem advances_step {op : SessionOp} (hchecked : op.Checked) {s s' : SourceSession}
    (h : op.step s = some s') : s.Advances s' (op.mark s) := by
  cases s with
  | idle mb work =>
      cases op with
      | module op =>
          have hop := growing_moduleOp op
          cases hrun : op.run mb with
          | ok u mb' =>
              simp only [SessionOp.step, hrun] at h
              cases h
              exact fun total m hinv => (Settled.grow hinv (hop.ok mb u mb' hrun)).forget
          | error e mb' =>
              simp only [SessionOp.step, hrun] at h
              by_cases hpanic : e = .panic
              · rw [if_pos hpanic] at h
                cases h
              · rw [if_neg hpanic] at h
                cases h
                rw [hop.error mb e mb' hrun]
                exact fun total m hinv => Settled.forget hinv
      | beginFunction name params retTy =>
          simp only [SessionOp.step] at h
          by_cases hcounts : (mb.beginFunction name params retTy).Counts
          · rw [if_pos hcounts] at h
            cases h
            exact advances_begin ⟨_, _, _, _, rfl⟩ work _ name params retTy hcounts
          · rw [if_neg hcounts] at h
            cases h
      | beginDeclaredFunction id names =>
          cases hbegin : mb.beginDeclaredFunction id names with
          | error e =>
              simp only [SessionOp.step, hbegin] at h
              cases h
              exact fun total m hinv => Settled.forget hinv
          | ok fb =>
              simp only [SessionOp.step, hbegin] at h
              by_cases hcounts : fb.Counts
              · rw [if_pos hcounts] at h
                cases h
                obtain ⟨name, params, retTy, rfl⟩ := beginDeclaredFunction_ok hbegin
                exact advances_begin ⟨_, _, _, _, rfl⟩ work id name params retTy hcounts
              · rw [if_neg hcounts] at h
                cases h
      | source op => cases h
      | finish => cases h
  | building st =>
      cases op with
      | source op =>
          obtain ⟨st', hstep, rfl⟩ := Option.map_eq_some_iff.mp h
          exact SourceState.advances_step hchecked hstep
      | finish =>
          cases h
          exact fun total m hinv => Settled.finish hinv
      | module op => cases h
      | beginFunction name params retTy => cases h
      | beginDeclaredFunction id names => cases h

/-- A whole run, by induction on its operations. -/
theorem run_inv {ops : List SessionOp} {s s' : SourceSession} {m m' : Marks}
    (hchecked : ∀ op ∈ ops, op.Checked) (h : runSession ops s m = some (s', m')) {total : Nat}
    (hinv : s.Inv total m) : s'.Inv total m' := by
  induction ops generalizing s m with
  | nil =>
      cases h
      exact hinv
  | cons op ops ih =>
      obtain ⟨hop, hops⟩ := List.forall_mem_cons.mp hchecked
      obtain ⟨t, hstep, hrest⟩ := Option.bind_eq_some_iff.mp h
      exact ih hops hrest (advances_step hop hstep total m hinv)

end SourceSession

/-! ## Records through a run -/

/-- An operation moves the records and adds some. -/
theorem SessionOp.mark_records (op : SessionOp) (s : SourceSession) (m : Marks) :
    ∃ added, (op.mark s m).records = m.records.map (Record.move (op.moves s)) ++ added := by
  have hstay : m.records.map (Record.move fun t => t) = m.records := List.map_id _
  cases s with
  | idle mb work =>
      refine ⟨[], ?_⟩
      have hmoves : op.moves (.idle mb work) = fun t => t := by cases op <;> rfl
      rw [hmoves, hstay, List.append_nil]
      cases op <;> rfl
  | building st =>
      cases op with
      | source op =>
          cases op with
          | emit op => exact ⟨[], (List.append_nil _).symm⟩
          | annotate note k => exact ⟨_, congrArg (· ++ _) hstay.symm⟩
          | checkpoint | finishMapping => exact ⟨[], by rw [List.append_nil]; exact hstay.symm⟩
      | module op | beginFunction name params retTy | beginDeclaredFunction id names | finish =>
          exact ⟨[], by rw [List.append_nil]; exact hstay.symm⟩

/-- A record stays, and its place moves with its operation. -/
theorem record_track {ops : List SessionOp} {s s' : SourceSession} {m m' : Marks}
    (h : runSession ops s m = some (s', m')) {r : Record} (hr : r ∈ m.records) :
    r.move (track ops s) ∈ m'.records := by
  induction ops generalizing s m r with
  | nil =>
      cases h
      exact hr
  | cons op ops ih =>
      obtain ⟨t, hstep, hrest⟩ := Option.bind_eq_some_iff.mp h
      obtain ⟨added, hadded⟩ := op.mark_records s m
      have hmoved : r.move (op.moves s) ∈ (op.mark s m).records := by
        rw [hadded]
        exact List.mem_append_left _ (List.mem_map_of_mem hr)
      have htrack : track (op :: ops) s = fun target => track ops t (op.moves s target) := by
        funext target
        rw [track, hstep]
      rw [htrack]
      exact ih hrest hmoved

theorem runSession_append {xs ys : List SessionOp} {s : SourceSession} {m : Marks} :
    runSession (xs ++ ys) s m =
      (runSession xs s m).bind fun reached => runSession ys reached.1 reached.2 := by
  induction xs generalizing s m with
  | nil => rfl
  | cons op xs ih =>
      rw [List.cons_append, runSession, runSession]
      cases op.step s with
      | none => rfl
      | some t => exact ih

/-! ## Mappings -/

theorem SourceTarget.exists_of_operationAt {functions : List Function} {globals : List GlobalId}
    {o : Operation} (h : operationAt functions t = some o) : t.exists functions globals = true := by
  cases t with
  | instruction function block i =>
      obtain ⟨ins, hins, -⟩ := Option.map_eq_some_iff.mp h
      obtain ⟨b, hb, hin⟩ := Option.bind_eq_some_iff.mp hins
      rw [SourceTarget.exists, hb, Option.any_some, decide_eq_true_eq]
      exact (List.getElem?_eq_some_iff.mp hin).1
  | terminator function block =>
      obtain ⟨t, ht, -⟩ := Option.map_eq_some_iff.mp h
      obtain ⟨b, hb, hin⟩ := Option.bind_eq_some_iff.mp ht
      rw [SourceTarget.exists, hb, Option.any_some]
      exact Option.isSome_of_eq_some hin
  | global id => cases h

/-- There are too few files for two of them to have one number: each was paid for. -/
theorem SourceMetadata.Table.nodup {m : SourceMetadata} {spent : Nat} (h : m.Table spent)
    (hspent : spent < 2 ^ 64) : (m.files.map SourceFile.id).Nodup := by
  have hlength : m.files.length < 2 ^ 32 := by
    by_contra hlong
    have hsquare : 2 ^ 32 * (2 ^ 32 + 1) ≤ m.files.length * (m.files.length + 1) :=
      Nat.mul_le_mul (Nat.le_of_not_lt hlong) (Nat.succ_le_succ (Nat.le_of_not_lt hlong))
    have hpaid := h.paid
    omega
  rw [h.ids]
  refine List.Nodup.map_on (fun i hi j hj heq => ?_) List.nodup_range
  have hnum := congrArg UInt32.toNat heq
  rw [UInt32.toNat_ofNat', UInt32.toNat_ofNat'] at hnum
  have hi' := List.mem_range.mp hi
  have hj' := List.mem_range.mp hj
  rwa [Nat.mod_eq_of_lt (by omega), Nat.mod_eq_of_lt (by omega)] at hnum

/-- The table of a module with settled mappings passes its validation. -/
theorem Settled.validate {total work : Nat} {mb : ModuleBuilder} {m : Marks}
    (h : Settled total mb work m) (htotal : total < 2 ^ 64) :
    mb.module.sources.validate mb.module = .ok () := by
  refine SourceMetadata.Valid.validate ⟨h.table.names, h.table.nodup (by omega),
    h.table.originals, h.table.spans, ?_,
    fun mapping hmapping => ⟨h.table.known mapping hmapping, ?_⟩⟩
  · rw [h.mappings, List.map_map]
    exact h.nodup
  · rw [h.mappings] at hmapping
    obtain ⟨r, hr, rfl⟩ := List.mem_map.mp hmapping
    exact SourceTarget.exists_of_operationAt (h.operations r hr)

/-- An annotation records the operations that are new and have no record yet. -/
theorem mem_recorded {fb : FunctionBuilder} (h : Constructing fb) {m : Marks}
    {old : List SourceTarget} (ht : t ∈ fb.func.targets) (hold : t ∉ old)
    (hfree : t ∉ m.records.map Record.target) (original : UInt64) :
    ∃ r ∈ m.recorded fb.func old original, r.target = t ∧ r.original = original := by
  have hids : (blockIds [fb.func]).Nodup := by
    unfold blockIds
    rw [List.flatMap_singleton]
    exact h.ids
  obtain ⟨o, ho⟩ := Option.isSome_iff_exists.mp
    (operationAt_of_mem_targets hids List.mem_cons_self ht)
  refine ⟨⟨t, original, o⟩, List.mem_filterMap.mpr ⟨t, ?_, ?_⟩, rfl, rfl⟩
  · exact List.mem_filter.mpr ⟨ht, decide_eq_true ⟨hold, hfree⟩⟩
  · rw [ho]
    rfl

/-- The builder before anything is built. -/
def startSession (target : String) (layout : DataLayout) (work : Nat) : SourceSession :=
  .idle (.new target layout) work

theorem settled_start (target : String) (layout : DataLayout) (work : Nat) :
    Settled work (.new target layout) work ⟨[], []⟩ := by
  refine ⟨⟨List.nodup_nil, fun _ h => (nomatch h)⟩, rfl, fun _ h => (nomatch h), List.nodup_nil,
    fun _ => rfl, Nat.le_refl _, ?_⟩
  exact ⟨fun _ h => (nomatch h), rfl, List.nodup_nil, fun _ h => (nomatch h),
    fun _ h => (nomatch h), Nat.zero_le _⟩

/-- After every session, with the pending shifts applied: the mappings are the records, each of
which names the operation it was made for, and no two mappings have one target. A record keeps its
original from then on, wherever its operation moves, and an annotation maps what is new since its
checkpoint and has no record, so that of nested annotations the innermost one wins. The table
passes its own validation. -/
theorem sourceMappings_exact (target : String) (layout : DataLayout) (work : Nat)
    (ops : List SessionOp) (s : SourceSession) (marks : Marks) (hwork : work < 2 ^ 64)
    (hchecked : ∀ op ∈ ops, op.Checked)
    (hrun : runSession ops (startSession target layout work) ⟨[], []⟩ = some (s, marks)) :
    s.module.sources.mappings = marks.records.map Record.mapping ∧
      (∀ r ∈ marks.records, operationAt s.module.functions r.target = some r.operation) ∧
      (s.module.sources.mappings.map SourceMapping.target).Nodup ∧
      (∀ xs ys sx mx, ops = xs ++ ys →
        runSession xs (startSession target layout work) ⟨[], []⟩ = some (sx, mx) →
          ∀ r ∈ mx.records, r.move (track ys sx) ∈ marks.records) ∧
      (∀ xs note k ys st mx, ops = xs ++ .source (.annotate note k) :: ys →
        runSession xs (startSession target layout work) ⟨[], []⟩ = some (.building st, mx) →
          ∀ t ∈ st.builder.fb.func.targets, t ∉ (mx.before[k]?).getD [] →
            t ∉ mx.records.map Record.target →
              ⟨track (.source (.annotate note k) :: ys) (.building st) t, note.id⟩ ∈
                s.module.sources.mappings) ∧
      s.module.sources.validate s.module = .ok () := by
  have hstart : (startSession target layout work).Inv work ⟨[], []⟩ :=
    settled_start target layout work
  have hinv := SourceSession.run_inv hchecked hrun hstart
  obtain ⟨mb, left, hmodule, hsettled⟩ := hinv.settled
  have hpersist : ∀ xs ys sx mx, ops = xs ++ ys →
      runSession xs (startSession target layout work) ⟨[], []⟩ = some (sx, mx) →
        runSession ys sx mx = some (s, marks) := by
    rintro xs ys sx mx rfl hreach
    rwa [runSession_append, hreach, Option.bind_some] at hrun
  rw [← hmodule]
  refine ⟨hsettled.mappings, hsettled.operations, ?_, ?_, ?_, hsettled.validate hwork⟩
  · rw [hsettled.mappings, List.map_map]
    exact hsettled.nodup
  · intro xs ys sx mx hops hreach r hr
    exact record_track (hpersist xs ys sx mx hops hreach) hr
  · intro xs note k ys st mx hops hreach t ht hold hfree
    have hrest := hpersist xs _ _ mx hops hreach
    have hst : st.Inv work mx := SourceSession.run_inv
      (fun op hop => hchecked op (hops ▸ List.mem_append_left _ hop)) hreach hstart
    obtain ⟨r, hr, rfl, horiginal⟩ := mem_recorded hst.constructing ht hold hfree note.id
    obtain ⟨after, hstep, hafter⟩ := Option.bind_eq_some_iff.mp hrest
    have hrecord := record_track hafter (List.mem_append_right mx.records hr)
    have htrack : track (.source (.annotate note k) :: ys) (.building st) r.target =
        track ys after r.target := by
      rw [track, hstep]
      rfl
    rw [hsettled.mappings, htrack, ← horiginal]
    exact List.mem_map_of_mem (f := Record.mapping) hrecord

/-- Two nested annotations: the inner one is about the second constant, and allocations are
inserted between the annotations and after them. -/
def nestedSession : List SessionOp :=
  [.beginFunction "f" [] .void, .source .checkpoint, .source (.emit (.tryConstBool true)),
    .source .checkpoint, .source (.emit (.tryConstBool false)),
    .source (.annotate ⟨2, some ⟨"a.wave", 1, 1, 1, 4⟩⟩ 0),
    .source (.emit (.tryAllocaInEntry .i32 4)), .source (.annotate ⟨1, none⟩ 0),
    .source (.emit (.allocaInEntry .i64 8)), .source (.emit (.tryRet none)), .finish]

def nestedState : SourceSession × Marks :=
  (runSession nestedSession (startSession "x86_64-whale-linux" ⟨64, .little⟩ 1000) ⟨[], []⟩).getD
    (startSession "" ⟨64, .little⟩ 0, ⟨[], []⟩)

example : nestedState.1.module.sources.mappings =
    [⟨.instruction ⟨0⟩ ⟨0⟩ 3, 2⟩, ⟨.instruction ⟨0⟩ ⟨0⟩ 0, 1⟩, ⟨.instruction ⟨0⟩ ⟨0⟩ 2, 1⟩] := by
  decide +kernel

theorem sourceMappings_exact_nested :
    nestedState.1.module.sources.mappings = nestedState.2.records.map Record.mapping ∧
      (∀ r ∈ nestedState.2.records,
        operationAt nestedState.1.module.functions r.target = some r.operation) ∧
      (nestedState.1.module.sources.mappings.map SourceMapping.target).Nodup ∧
      nestedState.1.module.sources.validate nestedState.1.module = .ok () := by
  have hinner : SourceAnnotation.Checked ⟨2, some ⟨"a.wave", 1, 1, 1, 4⟩⟩ := by
    intro source hsource
    cases hsource
    decide
  have houter : SourceAnnotation.Checked ⟨1, none⟩ := fun source hsource => nomatch hsource
  have hchecked : ∀ op ∈ nestedSession, op.Checked := by
    simpa [nestedSession, SessionOp.Checked, SourceOp.Checked] using And.intro hinner houter
  obtain ⟨hmappings, hoperations, hnodup, -, -, hvalid⟩ :=
    sourceMappings_exact "x86_64-whale-linux" ⟨64, .little⟩ 1000 nestedSession nestedState.1
      nestedState.2 (by decide) hchecked rfl
  exact ⟨hmappings, hoperations, hnodup, hvalid⟩

end Whale
