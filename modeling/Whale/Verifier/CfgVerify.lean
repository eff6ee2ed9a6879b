import Whale.Verifier.CfgSpec

set_option autoImplicit false

/-! # Uses and definitions

A use is accepted exactly if every walk from the entry to it has come past the definition. The
input of a phi is used at the end of its predecessor. -/

namespace Whale

/-! ## Definitions -/

/-- Value `v` is a parameter, or the result of an instruction. -/
def Function.DefinedAt (f : Function) (v : ValueId) : Option (Nat × Nat) → Prop
  | none => ∃ p ∈ f.params, p.id = v
  | some (block, position) => ∃ b ins ty, f.blocks[block]? = some b ∧
      b.instructions[position]? = some ins ∧ instrResult ins = some (v, ty)

/-- What is defined at `site` was executed on every way to a position of a block. -/
def Function.DominatesUse (f : Function) : Option (Nat × Nat) → Nat → Nat → Prop
  | none, _, _ => True
  | some (defBlock, defPosition), block, position => ∀ before, f.flow.Walk before block →
      defBlock ∈ before ∨ defBlock = block ∧ defPosition < position

/-- The definition of `v` dominates a position of a block. -/
def Function.Available (f : Function) (v : ValueId) (block position : Nat) : Prop :=
  ∃ site, f.DefinedAt v site ∧ f.DominatesUse site block position

/-! ## What is accepted -/

def Instruction.isPhi : Instruction → Bool
  | .phi .. => true
  | _ => false

/-- A phi has one input for each predecessor; the input is available at its end. -/
structure Function.PhiInputs (f : Function) (block : Nat) (ty : Ty)
    (incomings : List (ValueId × BlockId)) : Prop where
  nodup : (incomings.map Prod.snd).Nodup
  inputs : ∀ input ∈ incomings, ∃ pred source, f.blocks[pred]? = some source ∧
    source.id = input.2 ∧ f.Goes pred block ∧ f.valueType input.1 = some ty ∧
    f.Available input.1 pred source.instructions.length
  complete : ∀ pred source, f.Goes pred block → f.blocks[pred]? = some source →
    source.id ∈ incomings.map Prod.snd

/-- The rules for an instruction at a position of a block. -/
def Function.Accepts (f : Function) (block : Nat) (b : BasicBlock) (position : Nat) :
    Instruction → Prop
  | .phi _ ty incomings =>
      (∀ j < position, ∀ ins, b.instructions[j]? = some ins → ins.isPhi = true) ∧
        b.id ≠ f.entry ∧ incomings ≠ [] ∧ ty.isStorable = true ∧ f.PhiInputs block ty incomings
  | ins => ∀ v ∈ instrUses ins, f.Available v block position

structure Function.AcceptsBlock (f : Function) (block : Nat) (b : BasicBlock) : Prop where
  instructions : ∀ position ins, b.instructions[position]? = some ins →
    f.Accepts block b position ins
  terminator : ∀ t v, b.terminator = some t → t.uses = some v →
    f.Available v block b.instructions.length

/-- No branch to the entry, and every use in a block dominated by its definition. -/
structure Function.Dominated (f : Function) : Prop where
  entry : ∀ i, ¬ f.Goes i f.flow.entry
  blocks : ∀ block b, f.blocks[block]? = some b → f.AcceptsBlock block b

namespace Cfg

variable {f : Function}

/-- The definitions of block `i`. -/
def siteEntries (b : BasicBlock) (i : Nat) : List (ValueId × Option (Nat × Nat)) :=
  b.instructions.zipIdx.filterMap fun ins =>
    (instrResult ins.1).map fun r => (r.1, some (i, ins.2))

theorem map_fst_siteEntries (b : BasicBlock) (i : Nat) : (siteEntries b i).map Prod.fst =
    b.instructions.filterMap fun ins => (instrResult ins).map Prod.fst := by
  have hgen : ∀ (instructions : List Instruction) (k : Nat),
      ((instructions.zipIdx k).filterMap fun ins =>
        (instrResult ins.1).map fun r => (r.1, some (i, ins.2))).map Prod.fst =
      instructions.filterMap fun ins => (instrResult ins).map Prod.fst := by
    intro instructions
    induction instructions with
    | nil => exact fun _ => rfl
    | cons ins instructions ih =>
      intro k
      rw [List.zipIdx_cons, List.filterMap_cons, List.filterMap_cons]
      cases instrResult ins with
      | none => exact ih (k + 1)
      | some r => exact congrArg _ (ih (k + 1))
  exact hgen b.instructions 0

/-- All definitions in order, the parameters first. -/
def allEntries (f : Function) : List (ValueId × Option (Nat × Nat)) :=
  (f.params.map fun p => (p.id, none)) ++ f.blocks.zipIdx.flatMap fun b => siteEntries b.1 b.2

theorem uniqueKeys_allEntries (hf : f.Structured) : AssocMap.UniqueKeys (allEntries f) := by
  have hblocks : ∀ (blocks : List BasicBlock) (k : Nat),
      ((blocks.zipIdx k).flatMap fun b => siteEntries b.1 b.2).map Prod.fst =
      (blocks.flatMap BasicBlock.instructions).filterMap fun ins =>
        (instrResult ins).map Prod.fst := by
    intro blocks
    induction blocks with
    | nil => exact fun _ => rfl
    | cons b blocks ih =>
      intro k
      rw [List.zipIdx_cons, List.flatMap_cons, List.flatMap_cons, List.map_append,
        List.filterMap_append, map_fst_siteEntries, ih]
  have hparams : (f.params.map fun p => (p.id, (none : Option (Nat × Nat)))).map Prod.fst =
      f.params.map Param.id := by
    rw [List.map_map]
    rfl
  rw [AssocMap.UniqueKeys, allEntries, List.map_append, hblocks, hparams]
  exact hf.values

theorem mem_allEntries {v : ValueId} {site : Option (Nat × Nat)} :
    (v, site) ∈ allEntries f ↔ f.DefinedAt v site := by
  rw [allEntries, List.mem_append, List.mem_map, List.mem_flatMap]
  constructor
  · rintro (⟨p, hp, heq⟩ | ⟨⟨b, i⟩, hb, hmem⟩)
    · cases heq
      exact ⟨p, hp, rfl⟩
    · obtain ⟨⟨ins, j⟩, hins, heq⟩ := List.mem_filterMap.mp hmem
      obtain ⟨⟨v', ty⟩, hr, heq⟩ := Option.map_eq_some_iff.mp heq
      cases heq
      exact ⟨b, ins, ty, List.mem_zipIdx_iff_getElem?.mp hb,
        List.mem_zipIdx_iff_getElem?.mp hins, hr⟩
  · intro hdef
    cases site with
    | none =>
      obtain ⟨p, hp, rfl⟩ := hdef
      exact Or.inl ⟨p, hp, rfl⟩
    | some site =>
      obtain ⟨i, j⟩ := site
      obtain ⟨b, ins, ty, hb, hins, hr⟩ := hdef
      refine Or.inr ⟨(b, i), List.mem_zipIdx_iff_getElem?.mpr hb, List.mem_filterMap.mpr ?_⟩
      refine ⟨(ins, j), List.mem_zipIdx_iff_getElem?.mpr hins, ?_⟩
      rw [hr]
      rfl

theorem get_definitionsOf (hf : f.Structured) {v : ValueId} {site : Option (Nat × Nat)} :
    (definitionsOf f).get v = some site ↔ f.DefinedAt v site := by
  have hu := uniqueKeys_allEntries hf
  have happend : definitionsOf f = AssocMap.extend [] (allEntries f) :=
    (List.foldl_append ..).symm
  rw [happend, AssocMap.get_extend hu, AssocMap.get_nil, Option.or_none, ← mem_allEntries]
  exact ⟨AssocMap.mem_of_get, AssocMap.get_of_mem hu⟩

/-! ## Dominance of a use -/

/-- What it takes for a definition in another block, or earlier in the same one. -/
theorem dominatesUse_iff {d i block position : Nat} (hreach : f.flow.Reachable block) :
    f.DominatesUse (some (d, i)) block position ↔
      if d = block then i < position else f.flow.Dominates d block := by
  by_cases hd : d = block
  · rw [if_pos hd]
    refine ⟨fun h => ?_, fun hlt before _ => Or.inr ⟨hd, hlt⟩⟩
    -- Some walk comes to the block for the first time.
    obtain ⟨before, hwalk, hnew⟩ := hreach.first
    rcases h before hwalk with hmem | ⟨_, hlt⟩
    · exact absurd (hd ▸ hmem) hnew
    · exact hlt
  · rw [if_neg hd]
    refine ⟨fun h before hwalk => ?_, fun h before hwalk => Or.inl ?_⟩
    · exact Or.inr ((h before hwalk).resolve_right fun heq => hd heq.1)
    · exact (h before hwalk).resolve_left hd

/-- A rejection: the condition fails, and it is not a panic. -/
def Rejects (R : Prop) (e : Abort) : Prop := ¬ R ∧ e ≠ .panic

/-- `x` succeeds exactly if `R` holds, unless the budget is used up. -/
abbrev Decides {α : Type} (k : Nat) (R : Prop) (x : Analysis α) : Prop :=
  Costs meter IsExhausted k (fun _ => R) (Rejects R) x

theorem Rejects.mono {R S : Prop} {e : Abort} (h : Rejects R e) (hS : S → R) : Rejects S e :=
  ⟨fun hs => h.1 (hS hs), h.2⟩

theorem Decides.ok_iff {α : Type} {k : Nat} {R : Prop} {x : Analysis α} (h : Decides k R x)
    {s : AnalysisBudget} (hleft : s.work + k ≤ s.limit) : (∃ a t, x s = .ok a t) ↔ R := by
  refine ⟨fun ⟨a, t, hrun⟩ => (h s).result hrun, fun hR => ?_⟩
  obtain ⟨a, t, hrun, _⟩ := (h s).ok (fun e he => he.1 hR) hleft
  exact ⟨a, t, hrun⟩

variable {cfg : Cfg}

theorem dominates_costs (h : IsCfg f cfg) {a b : Nat} (ha : a < f.blocks.length)
    (hb : b < f.blocks.length) :
    Costs meter IsExhausted 1 (fun r => r = true ↔
      f.flow.Reachable a ∧ f.flow.Reachable b ∧ f.flow.Dominates a b) (fun _ => False)
      (cfg.dominates a b) := by
  obtain ⟨i, hi, hireach⟩ := h.intervals a ha
  obtain ⟨j, hj, hjreach⟩ := h.intervals b hb
  have hcount : Costs meter IsExhausted 0 (fun _ => True) (fun _ => False)
      (modify fun b => { b with queries := b.queries + 1 } : Analysis PUnit) :=
    Costs.modify fun _ => ⟨rfl, rfl⟩
  unfold Cfg.dominates
  refine charge_bind ?_
  refine hcount.bind (l := 0) fun _ _ => ?_
  rw [hi, hj, unwrap_some_bind, unwrap_some_bind]
  cases i with
  | none =>
    refine Costs.pure (iff_of_false Bool.false_ne_true fun hr => ?_)
    exact absurd (hireach.mpr hr.1) Bool.false_ne_true
  | some i =>
    cases j with
    | none =>
      refine Costs.pure (iff_of_false Bool.false_ne_true fun hr => ?_)
      exact absurd (hjreach.mpr hr.2.1) Bool.false_ne_true
    | some j =>
      refine Costs.pure ?_
      rw [Bool.and_eq_true, decide_eq_true_eq, decide_eq_true_eq, h.nested a b i j hi hj]
      exact ⟨fun hdom => ⟨hireach.mp rfl, hjreach.mp rfl, hdom⟩, fun hr => hr.2.2⟩

theorem available_decides (hf : f.Structured) (h : IsCfg f cfg) (v : ValueId)
    {block : Nat} (hblock : block < f.blocks.length) (position : Nat) :
    Decides 1 (f.Available v block position) (available f cfg v block position) := by
  unfold available
  cases hget : (definitionsOf f).get v with
  | none =>
    refine (Costs.throw ⟨?_, nofun⟩).mono (Nat.zero_le _) (fun _ => id) fun _ => id
    rintro ⟨site, hsite, _⟩
    rw [(get_definitionsOf hf).mpr hsite] at hget
    cases hget
  | some site =>
    have hsite := (get_definitionsOf hf).mp hget
    have hiff : f.Available v block position ↔ f.DominatesUse site block position := by
      refine ⟨fun ⟨site', hsite', hdom⟩ => ?_, fun hdom => ⟨site, hsite, hdom⟩⟩
      rw [(get_definitionsOf hf).mpr hsite'] at hget
      exact Option.some_inj.mp hget ▸ hdom
    obtain ⟨dominator, hdominator, hreach⟩ := h.idom block hblock
    show Decides 1 _ (unwrap cfg.idom[block]? >>= _)
    rw [hdominator, unwrap_some_bind]
    by_cases hnone : dominator = none
    · rw [if_pos hnone]
      refine Costs.pure (hiff.mpr ?_)
      -- No walk leads to the block.
      have hunreachable : ¬ f.flow.Reachable block := fun hr => by
        rw [hnone] at hreach
        exact absurd (hreach.mpr hr) Bool.false_ne_true
      cases site with
      | none => trivial
      | some site => exact fun before hwalk => absurd ⟨before, hwalk⟩ hunreachable
    · rw [if_neg hnone]
      have hr := hreach.mp (Option.isSome_iff_ne_none.mpr hnone)
      cases site with
      | none => exact Costs.pure (hiff.mpr trivial)
      | some site =>
        obtain ⟨d, i⟩ := site
        have hd : d < f.blocks.length := by
          obtain ⟨b, ins, ty, hb, _⟩ := hsite
          exact (List.getElem?_eq_some_iff.mp hb).1
        obtain ⟨b, hb⟩ : ∃ b, f.blocks[block]? = some b := ⟨_, List.getElem?_eq_getElem hblock⟩
        rw [dominatesUse_iff hr] at hiff
        let judge : Bool → Analysis Unit := fun valid =>
          if valid = true then pure () else
            unwrap f.blocks[block]? >>= fun b => fail (.nonDominatingValue f.name v b.id)
        have hjudge : ∀ valid, (valid = true ↔ f.Available v block position) →
            Decides 0 (f.Available v block position) (judge valid) := by
          intro valid hv
          cases valid with
          | true => exact Costs.pure (hv.mp rfl)
          | false =>
            show Decides 0 _ (unwrap f.blocks[block]? >>= _)
            rw [hb, unwrap_some_bind]
            exact Costs.throw ⟨fun hav => Bool.false_ne_true (hv.mpr hav), nofun⟩
        show Decides 1 _ (if d = block then (pure (decide (i < position)) >>= judge)
          else (cfg.dominates d block >>= judge))
        by_cases hsame : d = block
        · rw [if_pos hsame] at hiff ⊢
          refine (hjudge (decide (i < position)) ?_).mono (Nat.zero_le _) (fun _ => id) fun _ => id
          rw [decide_eq_true_eq, hiff]
        · rw [if_neg hsame] at hiff ⊢
          refine ((dominates_costs h hd hblock).mono (Nat.le_refl _) (fun _ => id)
            fun _ => False.elim).bind fun valid hres => hjudge valid ?_
          rw [hres, hiff]
          refine ⟨fun hall => hall.2.2, fun hdom => ⟨?_, hr, hdom⟩⟩
          obtain ⟨before, hwalk⟩ := hr
          obtain ⟨before', hwalk', _⟩ := hwalk.part ((hdom before hwalk).resolve_left hsame)
          exact ⟨before', hwalk'⟩

/-! ## The checks -/

/-- A check before the rest. -/
theorem Decides.bind {α β : Type} {k l : Nat} {R S : Prop} {Q : β → Prop} {x : Analysis α}
    {y : α → Analysis β} (hx : Decides k R x) (hS : S → R)
    (hy : R → ∀ a, Costs meter IsExhausted l Q (Rejects S) (y a)) :
    Costs meter IsExhausted (k + l) Q (Rejects S) (x >>= y) :=
  (hx.mono (Nat.le_refl _) (fun _ => id) fun _ he => he.mono hS).bind fun a hR => hy hR a

theorem require_decides (R : Prop) [Decidable R] (e : VerifyError) :
    Decides 0 R (require R (Abort.error e) : Analysis Unit) :=
  Costs.require fun hR => ⟨hR, nofun⟩

theorem verifyOperand_decides (v : ValueId) (ty : Ty) :
    Decides 0 (f.valueType v = some ty) (verifyOperand f v ty) := by
  unfold verifyOperand
  cases hget : f.valueType v with
  | none => exact Costs.throw ⟨nofun, nofun⟩
  | some got =>
    refine (require_decides (got = ty) _).mono (Nat.le_refl _) (fun _ heq => by rw [heq]) ?_
    exact fun _ he => he.mono Option.some_inj.mp

theorem orThrow_some_bind {α β : Type} (a : α) (e : Abort) (g : α → Analysis β) :
    (orThrow (some a) e >>= g) = g a :=
  rfl

/-- What the inputs of a phi have to satisfy when the predecessors `seen` have one. -/
structure InputsLeft (f : Function) (block : Nat) (ty : Ty) (incomings : List (ValueId × BlockId))
    (seen : List Nat) : Prop where
  nodup : (incomings.map Prod.snd).Nodup
  inputs : ∀ input ∈ incomings, ∃ pred source, f.blocks[pred]? = some source ∧
    source.id = input.2 ∧ f.Goes pred block ∧ f.valueType input.1 = some ty ∧
    f.Available input.1 pred source.instructions.length
  unseen : ∀ input ∈ incomings, ∀ pred ∈ seen, (indicesOf f).get input.2 ≠ some pred

/-- All predecessors are seen once as many are seen as there are. -/
theorem phiInputs_iff (hf : f.Structured) {block : Nat} {ty : Ty}
    {incomings : List (ValueId × BlockId)} {seen preds : List Nat}
    (hleft : InputsLeft f block ty incomings []) (hseen : seen.Nodup)
    (hmem : ∀ p, p ∈ seen ↔ ∃ input ∈ incomings, (indicesOf f).get input.2 = some p)
    (hnodup : preds.Nodup) (hpreds : ∀ i, i ∈ preds ↔ f.Goes i block) :
    f.PhiInputs block ty incomings ↔ seen.length = preds.length := by
  have hsub : seen ⊆ preds := by
    intro p hp
    obtain ⟨input, hinput, hget⟩ := (hmem p).mp hp
    obtain ⟨pred, source, hsource, hid, hgoes, _⟩ := hleft.inputs input hinput
    rw [(get_indicesOf hf).mpr ⟨source, hsource, hid⟩] at hget
    exact (hpreds p).mpr (Option.some_inj.mp hget ▸ hgoes)
  constructor
  · intro hphi
    refine Nat.le_antisymm (hseen.length_le_of_subset hsub) (hnodup.length_le_of_subset ?_)
    intro p hp
    have hgoes := (hpreds p).mp hp
    have hsource := List.getElem?_eq_getElem hgoes.lt.1
    obtain ⟨input, hinput, hid⟩ := List.mem_map.mp (hphi.complete p _ hgoes hsource)
    exact (hmem p).mpr ⟨input, hinput, (get_indicesOf hf).mpr ⟨_, hsource, hid.symm⟩⟩
  · intro hlength
    have hperm := (List.subperm_of_subset hseen hsub).perm_of_length_le (Nat.le_of_eq hlength.symm)
    refine ⟨hleft.nodup, hleft.inputs, fun pred source hgoes hsource => ?_⟩
    obtain ⟨input, hinput, hget⟩ := (hmem pred).mp (hperm.mem_iff.mpr ((hpreds pred).mpr hgoes))
    obtain ⟨source', hsource', hid⟩ := (get_indicesOf hf).mp hget
    rw [hsource] at hsource'
    cases hsource'
    exact List.mem_map.mpr ⟨input, hinput, hid.symm⟩

section

variable (hf : f.Structured) (h : IsCfg f cfg) {block : Nat} (hblock : block < f.blocks.length)

include hf h hblock

theorem verifyUses_decides (position : Nat) (values : List ValueId) :
    Decides values.length (∀ v ∈ values, f.Available v block position)
      (verifyUses f cfg block position values) := by
  induction values with
  | nil => exact Costs.pure fun v hv => absurd hv List.not_mem_nil
  | cons v values ih =>
    rw [List.length_cons, Nat.add_comm]
    unfold verifyUses
    refine (available_decides hf h v hblock position).bind (fun hall => hall v List.mem_cons_self)
      fun hv _ => ?_
    refine ih.mono (Nat.le_refl _) (fun _ hrest => List.forall_mem_cons.mpr ⟨hv, hrest⟩)
      fun _ he => he.mono fun hall => (List.forall_mem_cons.mp hall).2

theorem verifyIncomings_costs (b : BasicBlock) (dst : ValueId) (ty : Ty)
    (incomings : List (ValueId × BlockId)) {seen : List Nat} (hseen : seen.Nodup) :
    Costs meter IsExhausted (2 * incomings.length)
      (fun seen' => InputsLeft f block ty incomings seen ∧ seen'.Nodup ∧ ∀ p, p ∈ seen' ↔
        p ∈ seen ∨ ∃ input ∈ incomings, (indicesOf f).get input.2 = some p)
      (Rejects (InputsLeft f block ty incomings seen))
      (verifyIncomings f cfg block b dst ty incomings seen) := by
  induction incomings generalizing seen with
  | nil =>
    refine Costs.pure ⟨⟨List.nodup_nil, ?_, ?_⟩, hseen, fun p => ?_⟩
    · exact fun input hinput => absurd hinput List.not_mem_nil
    · exact fun input hinput => absurd hinput List.not_mem_nil
    · simp
  | cons input incomings ih =>
    obtain ⟨v, predecessor⟩ := input
    have hcost : 2 * ((v, predecessor) :: incomings).length =
        0 + (1 + 2 * incomings.length) + 1 := by
      rw [List.length_cons]
      omega
    rw [hcost]
    unfold verifyIncomings
    refine charge_bind ?_
    obtain ⟨preds, hpreds, _, hmem⟩ := h.predecessors block hblock
    rw [h.indices, h.predecessorSets, hpreds]
    -- What the first input has to satisfy.
    have hfirst : InputsLeft f block ty ((v, predecessor) :: incomings) seen →
        ∃ pred source, f.blocks[pred]? = some source ∧ (indicesOf f).get predecessor = some pred ∧
          pred ∈ preds ∧ pred ∉ seen ∧ f.valueType v = some ty ∧
          f.Available v pred source.instructions.length := by
      intro hall
      obtain ⟨pred, source, hsource, hid, hgoes, hty, hav⟩ := hall.inputs _ List.mem_cons_self
      have hget := (get_indicesOf hf).mpr ⟨source, hsource, hid⟩
      exact ⟨pred, source, hsource, hget, (hmem pred).mpr hgoes,
        fun hs => hall.unseen _ List.mem_cons_self pred hs hget, hty, hav⟩
    cases hget : (indicesOf f).get predecessor with
    | none =>
      refine (Costs.throw ⟨fun hall => ?_, by rintro ⟨⟩⟩).mono (Nat.zero_le _) (fun _ => id)
        fun _ => id
      obtain ⟨pred, source, _, hget', _⟩ := hfirst hall
      rw [hget] at hget'
      cases hget'
    | some pred =>
      obtain ⟨source, hsource, hid⟩ := (get_indicesOf hf).mp hget
      have hfirst' : InputsLeft f block ty ((v, predecessor) :: incomings) seen →
          pred ∈ preds ∧ pred ∉ seen ∧ f.valueType v = some ty ∧
            f.Available v pred source.instructions.length := by
        intro hall
        obtain ⟨pred', source', hsource', hget', hrest⟩ := hfirst hall
        rw [hget] at hget'
        cases hget'
        rw [hsource] at hsource'
        cases hsource'
        exact hrest
      rw [orThrow_some_bind, unwrap_some_bind]
      refine (require_decides (pred ∈ preds) _).bind (fun hall => (hfirst' hall).1)
        fun hpred _ => ?_
      rw [← Nat.zero_add (1 + _)]
      refine (require_decides (pred ∉ seen) _).bind (fun hall => (hfirst' hall).2.1)
        fun hnew _ => ?_
      rw [← Nat.zero_add (1 + _)]
      refine (verifyOperand_decides v ty).bind (fun hall => (hfirst' hall).2.2.1)
        fun hty _ => ?_
      rw [hsource, unwrap_some_bind]
      have hlt : pred < f.blocks.length := (List.getElem?_eq_some_iff.mp hsource).1
      refine (available_decides hf h v hlt _).bind (fun hall => (hfirst' hall).2.2.2)
        fun hav _ => ?_
      have hindex : ∀ q : BlockId, (indicesOf f).get q = some pred → q = predecessor := by
        intro q hq
        obtain ⟨source', hsource', hid'⟩ := (get_indicesOf hf).mp hq
        rw [hsource] at hsource'
        cases hsource'
        rw [← hid', hid]
      have hsplit : InputsLeft f block ty ((v, predecessor) :: incomings) seen ↔
          InputsLeft f block ty incomings (pred :: seen) := by
        constructor
        · intro hall
          have hnodup := hall.nodup
          rw [List.map_cons, List.nodup_cons] at hnodup
          refine ⟨hnodup.2, fun input hinput => hall.inputs input (List.mem_cons_of_mem _ hinput),
            fun input hinput p hp hgetp => ?_⟩
          rcases List.mem_cons.mp hp with rfl | hp
          · exact hnodup.1 (List.mem_map.mpr ⟨input, hinput, hindex _ hgetp⟩)
          · exact hall.unseen input (List.mem_cons_of_mem _ hinput) p hp hgetp
        · intro hrest
          refine ⟨?_, ?_, ?_⟩
          · rw [List.map_cons, List.nodup_cons]
            refine ⟨fun hmem' => ?_, hrest.nodup⟩
            obtain ⟨input, hinput, heq⟩ := List.mem_map.mp hmem'
            exact hrest.unseen input hinput pred List.mem_cons_self (heq ▸ hget)
          · refine List.forall_mem_cons.mpr ⟨?_, hrest.inputs⟩
            exact ⟨pred, source, hsource, hid, (hmem pred).mp hpred, hty, hav⟩
          · refine List.forall_mem_cons.mpr ⟨fun p hp hgetp => ?_, fun input hinput p hp => ?_⟩
            · exact hnew (Option.some_inj.mp (hget.symm.trans hgetp) ▸ hp)
            · exact hrest.unseen input hinput p (List.mem_cons_of_mem _ hp)
      refine (ih (List.nodup_cons.mpr ⟨hnew, hseen⟩)).mono (Nat.le_refl _) ?_
        fun _ he => he.mono hsplit.mp
      rintro seen' ⟨hrest, hnodup, hseen'⟩
      refine ⟨hsplit.mpr hrest, hnodup, fun p => ?_⟩
      rw [hseen', List.exists_mem_cons_iff, List.mem_cons, hget, Option.some_inj]
      constructor
      · rintro ((rfl | hp) | hp)
        · exact Or.inr (Or.inl rfl)
        · exact Or.inl hp
        · exact Or.inr (Or.inr hp)
      · rintro (hp | rfl | hp)
        · exact Or.inl (Or.inr hp)
        · exact Or.inl (Or.inl rfl)
        · exact Or.inr hp

/-- The rules for a phi, when `pastPhi` tells whether another instruction came before it. -/
def PhiRules (f : Function) (block : Nat) (b : BasicBlock) (ty : Ty)
    (incomings : List (ValueId × BlockId)) (pastPhi : Bool) : Prop :=
  pastPhi = false ∧ b.id ≠ f.entry ∧ incomings ≠ [] ∧ ty.isStorable = true ∧
    f.PhiInputs block ty incomings

theorem verifyPhi_decides (b : BasicBlock) (dst : ValueId) (ty : Ty)
    (incomings : List (ValueId × BlockId)) (pastPhi : Bool) :
    Decides (2 * incomings.length) (PhiRules f block b ty incomings pastPhi)
      (verifyPhi f cfg block b dst ty incomings pastPhi) := by
  have hleft : f.PhiInputs block ty incomings → InputsLeft f block ty incomings [] := fun hphi =>
    ⟨hphi.nodup, hphi.inputs, fun _ _ _ hp => absurd hp List.not_mem_nil⟩
  obtain ⟨preds, hpreds, hnodup, hmem⟩ := h.predecessors block hblock
  rw [← Nat.zero_add (2 * _)]
  unfold verifyPhi
  refine (require_decides (pastPhi = false) _).bind (fun hall => hall.1) fun hfirst _ => ?_
  rw [← Nat.zero_add (2 * _)]
  refine (require_decides (b.id ≠ f.entry) _).bind (fun hall => hall.2.1) fun hentry _ => ?_
  rw [← Nat.zero_add (2 * _)]
  refine (require_decides (incomings ≠ []) _).bind (fun hall => hall.2.2.1) fun hne _ => ?_
  rw [← Nat.zero_add (2 * _)]
  refine (require_decides (ty.isStorable = true) _).bind (fun hall => hall.2.2.2.1) fun hty _ => ?_
  refine ((verifyIncomings_costs hf h hblock b dst ty incomings List.nodup_nil).mono
    (Nat.le_refl _) (fun _ => id) fun _ he => he.mono fun hall => hleft hall.2.2.2.2).bind
    (l := 0) ?_
  rintro seen ⟨hinputs, hseen, hmemSeen⟩
  have hiff := phiInputs_iff hf hinputs hseen (fun p => by simpa using hmemSeen p)
    hnodup hmem
  rw [hpreds, unwrap_some_bind]
  refine (require_decides (seen.length = preds.length) _).mono (Nat.le_refl _)
    (fun _ hlength => ⟨hfirst, hentry, hne, hty, hiff.mpr hlength⟩) fun _ he => he.mono ?_
  exact fun hall => hiff.mp hall.2.2.2.2

/-- The cost of checking an instruction. -/
def instructionCost : Instruction → Nat
  | .phi _ _ incomings => 2 * incomings.length
  | ins => (instrUses ins).length

def instructionsCost (instructions : List Instruction) : Nat :=
  (instructions.map fun ins => instructionCost ins + 1).sum

/-- Another instruction came before position `p`. -/
def PastPhi (b : BasicBlock) (p : Nat) : Prop :=
  ∃ j < p, ∃ ins, b.instructions[j]? = some ins ∧ ins.isPhi = false

theorem verifyInstructions_decides (b : BasicBlock) {p : Nat} {instructions : List Instruction}
    (hdrop : b.instructions.drop p = instructions) {pastPhi : Bool}
    (hpast : pastPhi = true ↔ PastPhi b p) :
    Decides (instructionsCost instructions)
      (∀ j ins, instructions[j]? = some ins → f.Accepts block b (p + j) ins)
      (verifyInstructions f cfg block b p instructions pastPhi) := by
  induction instructions generalizing p pastPhi with
  | nil => exact Costs.pure fun j ins hins => by cases hins
  | cons ins instructions ih =>
    obtain ⟨hins, hrest⟩ := getElem?_of_drop_eq_cons hdrop
    have hnext : PastPhi b (p + 1) ↔ PastPhi b p ∨ ins.isPhi = false := by
      constructor
      · rintro ⟨j, hj, ins', hget, hphi⟩
        rcases Nat.lt_succ_iff_lt_or_eq.mp hj with hlt | rfl
        · exact Or.inl ⟨j, hlt, ins', hget, hphi⟩
        · rw [hins] at hget
          cases hget
          exact Or.inr hphi
      · rintro (⟨j, hj, h⟩ | hphi)
        · exact ⟨j, Nat.lt_succ_of_lt hj, h⟩
        · exact ⟨p, Nat.lt_succ_self p, ins, hins, hphi⟩
    have hcost : instructionsCost (ins :: instructions) =
        instructionCost ins + instructionsCost instructions + 1 := by
      simp only [instructionsCost, List.map_cons, List.sum_cons]
      omega
    rw [hcost, forall_getElem?_cons]
    -- A `phi` reads its inputs at the ends of the predecessors, any other instruction here.
    cases hphi : ins.isPhi with
    | true =>
      rw [hphi] at hnext
      cases ins with
      | phi dst ty incomings =>
        have hrules : f.Accepts block b p (.phi dst ty incomings) ↔
            PhiRules f block b ty incomings pastPhi := by
          refine and_congr_left' ?_
          rw [← Bool.not_eq_true, hpast]
          constructor
          · rintro hall ⟨j, hj, ins, hget, hne⟩
            rw [hall j hj ins hget] at hne
            cases hne
          · intro hno j hj ins hget
            refine Bool.of_not_eq_false fun hne => hno ⟨j, hj, ins, hget, hne⟩
        unfold verifyInstructions
        refine charge_bind ?_
        refine (verifyPhi_decides hf h hblock b dst ty incomings pastPhi).bind
          (fun hboth => hrules.mp hboth.1) fun hfirst _ => ?_
        refine (ih hrest ?_).mono (Nat.le_refl _) (fun _ hlast => ⟨hrules.mpr hfirst, hlast⟩)
          fun _ he => he.mono And.right
        rw [hpast, hnext]
        simp
      | _ => cases hphi
    | false =>
      have hrules : f.Accepts block b p ins ↔ ∀ v ∈ instrUses ins, f.Available v block p := by
        cases ins with
        | phi => cases hphi
        | _ => exact Iff.rfl
      have hrun : verifyInstructions f cfg block b p (ins :: instructions) pastPhi =
          (charge >>= fun _ => verifyUses f cfg block p (instrUses ins) >>= fun _ =>
            verifyInstructions f cfg block b (p + 1) instructions true) := by
        cases ins with
        | phi => cases hphi
        | _ => rfl
      have huses : instructionCost ins = (instrUses ins).length := by
        cases ins with
        | phi => cases hphi
        | _ => rfl
      rw [hrun, huses]
      refine charge_bind ?_
      refine (verifyUses_decides hf h hblock p (instrUses ins)).bind
        (fun hboth => hrules.mp hboth.1) fun hfirst _ => ?_
      refine (ih hrest ?_).mono (Nat.le_refl _) (fun _ hlast => ⟨hrules.mpr hfirst, hlast⟩)
        fun _ he => he.mono And.right
      rw [hnext]
      exact iff_of_true rfl (Or.inr hphi)

end

/-- The operand of a terminator is used at the end of its block. -/
theorem verifyUse_decides (hf : f.Structured) (h : IsCfg f cfg) {block : Nat}
    (hblock : block < f.blocks.length) (position : Nat) (use : Option ValueId) :
    Decides 1 (∀ v, use = some v → f.Available v block position)
      (verifyUse f cfg block position use) := by
  cases use with
  | none => exact Costs.pure fun v hv => by cases hv
  | some value =>
    refine (available_decides hf h value hblock position).mono (Nat.le_refl _)
      (fun _ hv v heq => ?_) fun _ he => he.mono fun hall => hall value rfl
    cases heq
    exact hv

def blocksCost (blocks : List BasicBlock) : Nat :=
  (blocks.map fun b => instructionsCost b.instructions + 1).sum

theorem verifyBlocks_decides (hf : f.Structured) (h : IsCfg f cfg) {i : Nat}
    {blocks : List BasicBlock} (hdrop : f.blocks.drop i = blocks) :
    Decides (blocksCost blocks) (∀ j b, blocks[j]? = some b → f.AcceptsBlock (i + j) b)
      (verifyBlocks f cfg i blocks) := by
  induction blocks generalizing i with
  | nil => exact Costs.pure fun j b hb => by cases hb
  | cons b blocks ih =>
    obtain ⟨hb, hrest⟩ := getElem?_of_drop_eq_cons hdrop
    have hlt : i < f.blocks.length := (List.getElem?_eq_some_iff.mp hb).1
    obtain ⟨t, ht⟩ := Option.isSome_iff_exists.mp (hf.terminated b (List.mem_of_getElem? hb))
    have hnone : false = true ↔ PastPhi b 0 :=
      iff_of_false Bool.false_ne_true fun ⟨_, hj, _⟩ => Nat.not_lt_zero _ hj
    have hinstructions := verifyInstructions_decides hf h hlt b (List.drop_zero (l := _)) hnone
    simp only [Nat.zero_add] at hinstructions
    have hcost : blocksCost (b :: blocks) =
        instructionsCost b.instructions + (1 + blocksCost blocks) := by
      simp only [blocksCost, List.map_cons, List.sum_cons]
      omega
    rw [hcost, forall_getElem?_cons]
    unfold verifyBlocks
    refine hinstructions.bind (fun hall => hall.1.instructions) fun hins _ => ?_
    rw [ht, unwrap_some_bind]
    refine (verifyUse_decides hf h hlt b.instructions.length t.uses).bind
      (fun hall v hv => hall.1.terminator t v ht hv) fun huse _ => ?_
    refine (ih hrest).mono (Nat.le_refl _) (fun _ hlast => ⟨⟨hins, fun t' v ht' hv => ?_⟩, hlast⟩)
      fun _ he => he.mono And.right
    rw [ht] at ht'
    cases ht'
    exact huse v hv

/-- The cost of the checks. -/
def verifyCost (f : Function) : Nat := newCost f + blocksCost f.blocks

theorem verify_decides (hf : f.Structured) :
    Decides (verifyCost f) f.Dominated (Cfg.verify f) := by
  unfold Cfg.verify verifyCost
  refine ((new_costs hf).mono (Nat.le_refl _) (fun _ => id) ?_).bind fun cfg h => ?_
  · rintro e ⟨i, b, hgoes, _, rfl⟩
    exact ⟨fun hd => hd.entry i hgoes, nofun⟩
  · have hblocks := verifyBlocks_decides hf h (List.drop_zero (l := _))
    simp only [Nat.zero_add] at hblocks
    refine hblocks.mono (Nat.le_refl _) (fun _ hall => ⟨h.entry, hall⟩) fun _ he => he.mono ?_
    exact Function.Dominated.blocks

/-! ## Results -/

theorem reachable_lt (hf : f.Structured) {b : Nat} (h : f.flow.Reachable b) :
    b < f.blocks.length := by
  obtain ⟨before, hwalk⟩ := h
  cases hwalk with
  | entry =>
    obtain ⟨b, hb, _⟩ := (get_indicesOf hf).mp (get_entry hf)
    exact (List.getElem?_eq_some_iff.mp hb).1
  | step _ hedge => exact (Function.Goes.lt hedge).2

/-- The construction always ends: with the dominators, at a branch to the entry, or when the
budget is used up. A use is accepted, at the end of a predecessor for a phi, exactly if its
definition dominates it. -/
theorem verify_dominance {f : Function} (hf : f.Structured) :
    (∀ s, (∃ cfg t, Cfg.new f s = .ok cfg t) ∨ ∃ e t, Cfg.new f s = .error e t ∧
      (EntersEntry f e ∨ IsExhausted e ∧ s.limit < s.work + newCost f)) ∧
    (∀ s cfg t, Cfg.new f s = .ok cfg t →
      (∀ a b, f.flow.Reachable a → f.flow.Reachable b → ∀ u : AnalysisBudget, u.work < u.limit →
        ∃ r t, cfg.dominates a b u = .ok r t ∧ (r = true ↔ f.flow.Dominates a b)) ∧
      ∀ v block position, block < f.blocks.length → ∀ u : AnalysisBudget, u.work < u.limit →
        ((∃ r t, available f cfg v block position u = .ok r t) ↔
          f.Available v block position)) ∧
    (∀ s r t, Cfg.verify f s = .ok r t → f.Dominated) ∧
    ∀ s : AnalysisBudget, s.work + verifyCost f ≤ s.limit →
      ((∃ r t, Cfg.verify f s = .ok r t) ↔ f.Dominated) := by
  refine ⟨fun s => ?_, fun s cfg t hrun => ?_, fun s r t hrun => ?_, fun s hs => ?_⟩
  · refine (new_costs hf s).outcome.imp_left ?_
    exact fun ⟨cfg, t, hrun, _⟩ => ⟨cfg, t, hrun⟩
  · have h : IsCfg f cfg := (new_costs hf s).result hrun
    refine ⟨fun a b ha hb u hu => ?_, fun v block position hblock u hu => ?_⟩
    · have hdominates := dominates_costs h (reachable_lt hf ha) (reachable_lt hf hb)
      obtain ⟨r, t, hres, hr⟩ := (hdominates u).ok (fun _ => id) hu
      exact ⟨r, t, hres, hr.trans ⟨fun hall => hall.2.2, fun hdom => ⟨ha, hb, hdom⟩⟩⟩
    · exact (available_decides hf h v hblock position).ok_iff hu
  · exact (verify_decides hf s).result hrun
  · exact (verify_decides hf).ok_iff hs

/-- A loop with two entries and a block that no way leads to. -/
def irreducible : Function where
  id := ⟨0⟩
  name := "irreducible"
  params := [⟨"again", ⟨0⟩, .bool⟩]
  retTy := .bool
  blocks := [
    ⟨⟨10⟩, "entry", [.not ⟨1⟩ .bool ⟨0⟩], some (.cBr ⟨0⟩ ⟨11⟩ ⟨12⟩)⟩,
    ⟨⟨11⟩, "left", [.phi ⟨2⟩ .bool [(⟨1⟩, ⟨10⟩), (⟨3⟩, ⟨12⟩)]], some (.br ⟨12⟩)⟩,
    ⟨⟨12⟩, "right", [.not ⟨3⟩ .bool ⟨1⟩], some (.cBr ⟨3⟩ ⟨11⟩ ⟨13⟩)⟩,
    ⟨⟨13⟩, "exit", [], some (.ret .bool (some ⟨3⟩))⟩,
    ⟨⟨14⟩, "dead", [], some (.br ⟨14⟩)⟩]
  entry := ⟨10⟩
  valueTypes := [(⟨0⟩, .bool), (⟨1⟩, .bool), (⟨2⟩, .bool), (⟨3⟩, .bool)]

theorem irreducible_structured : irreducible.Structured where
  blocks := by decide
  entry := by decide
  terminated := by decide
  targets := by decide
  values := by decide

/-- Whether a computation succeeds. -/
def Succeeds {α : Type} (x : Analysis α) (s : AnalysisBudget) : Bool :=
  match x s with
  | .ok .. => true
  | .error .. => false

theorem exists_of_succeeds {α : Type} {x : Analysis α} {s : AnalysisBudget}
    (h : Succeeds x s = true) : ∃ r t, x s = .ok r t := by
  unfold Succeeds at h
  cases hrun : x s with
  | ok r t => exact ⟨r, t, rfl⟩
  | error e t =>
    rw [hrun] at h
    cases h

theorem verify_dominance_irreducible :
    irreducible.Dominated ∧ ∃ cfg t r u, Cfg.new irreducible ⟨1000, 0, 0⟩ = .ok cfg t ∧
      cfg.dominates 1 2 ⟨1000, 0, 0⟩ = .ok r u ∧ (r = true ↔ irreducible.flow.Dominates 1 2) := by
  obtain ⟨_, hnew, hverify, _⟩ := verify_dominance irreducible_structured
  obtain ⟨r, t, hrun⟩ : ∃ r t, Cfg.verify irreducible ⟨1000, 0, 0⟩ = .ok r t :=
    exists_of_succeeds (by decide +kernel)
  -- Both entries of the loop are reachable.
  have hleft : irreducible.flow.Walk [0] 1 :=
    FlowGraph.Walk.entry.step ⟨_, _, _, rfl, rfl, rfl, by decide⟩
  have hright : irreducible.flow.Walk [0] 2 :=
    FlowGraph.Walk.entry.step ⟨_, _, _, rfl, rfl, rfl, by decide⟩
  obtain ⟨cfg, t', hcfg⟩ : ∃ cfg t', Cfg.new irreducible ⟨1000, 0, 0⟩ = .ok cfg t' :=
    exists_of_succeeds (by decide +kernel)
  obtain ⟨r, u, hres, hiff⟩ := (hnew _ cfg t' hcfg).1 1 2 ⟨_, hleft⟩ ⟨_, hright⟩ ⟨1000, 0, 0⟩
    (by decide)
  exact ⟨hverify _ _ _ hrun, cfg, t', r, u, hcfg, hres, hiff⟩

end Cfg

end Whale
