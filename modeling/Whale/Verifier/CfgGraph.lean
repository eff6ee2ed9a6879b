import Whale.Lib.Collect
import Whale.Lib.Dominance
import Whale.Lib.Meter
import Whale.Verifier.Cfg

set_option autoImplicit false

/-! # The graph of blocks

What structural validation promises, the graph a function stands for, and the tables of
successors and predecessors that represent it. -/

namespace Whale

/-! ## Functions as graphs -/

/-- What structural validation has established: identities are unique, there is an entry, and
terminators lead to blocks of the function. -/
structure Function.Structured (f : Function) : Prop where
  blocks : (f.blocks.map BasicBlock.id).Nodup
  entry : ∃ b ∈ f.blocks, b.id = f.entry
  terminated : ∀ b ∈ f.blocks, b.terminator.isSome
  targets : ∀ b ∈ f.blocks, ∀ t, b.terminator = some t → ∀ target ∈ t.targets,
    ∃ b' ∈ f.blocks, b'.id = target
  values : (f.params.map Param.id ++
    f.instructions.filterMap fun ins => (instrResult ins).map Prod.fst).Nodup

/-- Control goes from block `i` to block `j`. -/
def Function.Goes (f : Function) (i j : Nat) : Prop :=
  ∃ b t b', f.blocks[i]? = some b ∧ b.terminator = some t ∧ f.blocks[j]? = some b' ∧
    b'.id ∈ t.targets

/-- The graph of the blocks, by index. -/
def Function.flow (f : Function) : FlowGraph Nat where
  entry := f.blocks.findIdx fun b => b.id = f.entry
  Edge := f.Goes

theorem Function.Goes.lt {f : Function} {i j : Nat} (h : f.Goes i j) :
    i < f.blocks.length ∧ j < f.blocks.length := by
  obtain ⟨b, t, b', hi, _, hj, _⟩ := h
  exact ⟨(List.getElem?_eq_some_iff.mp hi).1, (List.getElem?_eq_some_iff.mp hj).1⟩

namespace Cfg

/-! ## The budget -/

def meter : Meter AnalysisBudget where
  spent := AnalysisBudget.work
  limit := AnalysisBudget.limit

def IsExhausted (e : Abort) : Prop := ∃ limit, e = exhausted limit

section

variable {α β : Type} {k fuel : Nat} {Q : α → Prop} {E : Abort → Prop}

theorem charge_run_of_lt {s : AnalysisBudget} (h : s.work < s.limit) :
    charge s = .ok () { s with work := s.work + 1 } := by
  show ((require (s.work < s.limit) (exhausted s.limit) : Analysis Unit) >>= fun _ => _) s = _
  rw [bind_run_ok (by rw [require_run, if_pos h])]
  rfl

theorem charge_run_of_not_lt {s : AnalysisBudget} (h : ¬ s.work < s.limit) :
    charge s = .error (exhausted s.limit) s := by
  show ((require (s.work < s.limit) (exhausted s.limit) : Analysis Unit) >>= fun _ => _) s = _
  rw [bind_run_error (by rw [require_run, if_neg h])]

/-- A charge uses up a unit, and an iteration. -/
theorem charge_bind_at {f : Unit → Analysis α} {s : AnalysisBudget}
    (hf : s.work < s.limit →
      CostsAt meter IsExhausted k Q E (f ()) { s with work := s.work + 1 }) :
    CostsAt meter IsExhausted (k + 1) Q E (charge >>= f) s := by
  by_cases h : s.work < s.limit
  · have hrun := hf h
    unfold CostsAt at hrun ⊢
    rw [bind_run_ok (charge_run_of_lt h)]
    cases hres : f () { s with work := s.work + 1 } with
    | ok a t =>
      rw [hres] at hrun
      obtain ⟨ha, hlimit, hle, hbound⟩ := hrun
      exact ⟨ha, hlimit, Nat.le_of_succ_le hle, by simp only [meter] at hbound ⊢; omega⟩
    | error e t =>
      rw [hres] at hrun
      rcases hrun with he | ⟨he, hlt⟩
      · exact Or.inl he
      · exact Or.inr ⟨he, by simp only [meter] at hlt ⊢; omega⟩
  · unfold CostsAt
    rw [bind_run_error (charge_run_of_not_lt h)]
    exact Or.inr ⟨⟨s.limit, rfl⟩, by simp only [meter]; omega⟩

theorem charge_bind {f : Unit → Analysis α} (hf : Costs meter IsExhausted k Q E (f ())) :
    Costs meter IsExhausted (k + 1) Q E (charge >>= f) :=
  fun _ => charge_bind_at fun _ => hf _

theorem charge_bind_within {f : Unit → Analysis α}
    (hf : CostsWithin meter IsExhausted fuel k Q E (f ())) :
    CostsWithin meter IsExhausted (fuel + 1) (k + 1) Q E (charge >>= f) := by
  intro s hs
  refine charge_bind_at fun h => hf _ ?_
  simp only [Meter.left, meter] at hs ⊢
  omega

theorem overrun_within (hk : 0 < k) :
    CostsWithin meter IsExhausted 0 k Q E (overrun : Analysis α) := by
  intro s hs
  refine Or.inr ⟨⟨s.limit, rfl⟩, ?_⟩
  simp only [Meter.left, meter] at hs ⊢
  omega

theorem withBudget_costs {loop : Nat → Analysis α}
    (h : ∀ fuel, CostsWithin meter IsExhausted fuel k Q E (loop fuel)) :
    Costs meter IsExhausted k Q E (withBudget loop) :=
  Costs.of_within (fun _ => Nat.le_refl _) h

@[simp] theorem unwrap_some_bind (a : α) (f : α → Analysis β) : (unwrap (some a) >>= f) = f a := rfl

end

/-! ## Edges -/

section

variable {f : Function} (hf : f.Structured)

include hf

theorem get_indicesOf {id : BlockId} {i : Nat} :
    (indicesOf f).get id = some i ↔ ∃ b, f.blocks[i]? = some b ∧ b.id = id :=
  AssocMap.get_positions hf.blocks

theorem get_entry : (indicesOf f).get f.entry = some f.flow.entry := by
  obtain ⟨b, hb, hid⟩ := hf.entry
  let isEntry : BasicBlock → Bool := fun b => decide (b.id = f.entry)
  have hlt : f.blocks.findIdx isEntry < f.blocks.length :=
    List.findIdx_lt_length_of_exists ⟨b, hb, decide_eq_true hid⟩
  have hentry : isEntry f.blocks[f.blocks.findIdx isEntry] = true := List.findIdx_getElem
  exact (get_indicesOf hf).mpr ⟨_, List.getElem?_eq_getElem hlt, of_decide_eq_true hentry⟩

end

/-- Add the edges from `index` to `js`. -/
def Edges.add (index : Nat) (edges : Edges) (j : Nat) : Edges where
  successors := edges.successors.modify index (· ++ [j])
  predecessors := edges.predecessors.modify j (· ++ [index])

/-- Targets already seen are passed over. -/
theorem addTargets_costs {indices : AssocMap BlockId Nat} (index : Nat) {targets : List BlockId}
    (hknown : ∀ t ∈ targets, (indices.get t).isSome) (seen : List Nat) (edges : Edges) :
    Costs meter IsExhausted targets.length (fun edges' => ∃ js : List Nat, js.Nodup ∧
      (∀ j, j ∈ js ↔ j ∉ seen ∧ ∃ t ∈ targets, indices.get t = some j) ∧
      edges' = js.foldl (Edges.add index) edges) (fun _ => False)
      (addTargets indices index targets seen edges) := by
  induction targets generalizing seen edges with
  | nil =>
    refine Costs.pure ⟨[], List.nodup_nil, fun j => ?_, rfl⟩
    simp
  | cons t targets ih =>
    have hrest : ∀ t ∈ targets, (indices.get t).isSome := fun t ht =>
      hknown t (List.mem_cons_of_mem _ ht)
    obtain ⟨j, hj⟩ := Option.isSome_iff_exists.mp (hknown t List.mem_cons_self)
    unfold addTargets
    refine charge_bind ?_
    rw [hj, unwrap_some_bind]
    -- `seen` keeps a block that is named twice from being added twice.
    by_cases hseen : j ∈ seen
    · rw [if_pos hseen]
      refine (ih hrest seen edges).mono (Nat.le_refl _) ?_ fun _ => id
      rintro edges' ⟨js, hnodup, hmem, rfl⟩
      refine ⟨js, hnodup, fun i => ?_, rfl⟩
      rw [hmem, List.exists_mem_cons_iff, hj, Option.some_inj]
      constructor
      · rintro ⟨hnew, h⟩
        exact ⟨hnew, Or.inr h⟩
      · rintro ⟨hnew, rfl | h⟩
        · exact absurd hseen hnew
        · exact ⟨hnew, h⟩
    · rw [if_neg hseen]
      refine (ih hrest (j :: seen) (edges.add index j)).mono (Nat.le_refl _) ?_ fun _ => id
      rintro edges' ⟨js, hnodup, hmem, rfl⟩
      have hnotMem : j ∉ js := fun h => ((hmem j).mp h).1 List.mem_cons_self
      refine ⟨j :: js, List.nodup_cons.mpr ⟨hnotMem, hnodup⟩, fun i => ?_, rfl⟩
      rw [List.mem_cons, hmem, List.exists_mem_cons_iff, hj, Option.some_inj, List.mem_cons, not_or]
      constructor
      · rintro (rfl | ⟨⟨_, hnew⟩, h⟩)
        · exact ⟨hseen, Or.inl rfl⟩
        · exact ⟨hnew, Or.inr h⟩
      · rintro ⟨hnew, rfl | h⟩
        · exact Or.inl rfl
        · by_cases hij : i = j
          · exact Or.inl hij
          · exact Or.inr ⟨⟨hij, hnew⟩, h⟩

theorem foldl_add (index : Nat) {js : List Nat} (hnodup : js.Nodup) (edges : Edges) :
    (∀ k, (js.foldl (Edges.add index) edges).successors[k]? =
      if k = index then edges.successors[k]?.map (· ++ js) else edges.successors[k]?) ∧
    ∀ k, (js.foldl (Edges.add index) edges).predecessors[k]? =
      if k ∈ js then edges.predecessors[k]?.map (· ++ [index]) else edges.predecessors[k]? := by
  induction js generalizing edges with
  | nil =>
    refine ⟨fun k => ?_, fun k => rfl⟩
    split <;> simp
  | cons j js ih =>
    obtain ⟨hnotMem, hnodup⟩ := List.nodup_cons.mp hnodup
    obtain ⟨hsucc, hpred⟩ := ih hnodup (edges.add index j)
    rw [List.foldl_cons]
    refine ⟨fun k => ?_, fun k => ?_⟩
    · rw [hsucc]
      simp only [Edges.add, List.getElem?_modify]
      by_cases hk : k = index
      · subst hk
        simp [Function.comp_def]
      · simp [hk, Ne.symm hk]
    · rw [hpred]
      simp only [Edges.add, List.getElem?_modify]
      by_cases hk : k = j
      · subst hk
        simp [hnotMem]
      · simp [hk, Ne.symm hk]

/-- The tables have the edges of the graph that come from blocks before `i`. -/
structure Represents (f : Function) (i : Nat) (edges : Edges) : Prop where
  successors_length : edges.successors.length = f.blocks.length
  predecessors_length : edges.predecessors.length = f.blocks.length
  successors : ∀ k l, edges.successors[k]? = some l → l.Nodup ∧ ∀ j, j ∈ l ↔ k < i ∧ f.Goes k j
  predecessors : ∀ j l, edges.predecessors[j]? = some l →
    l.Nodup ∧ ∀ k, k ∈ l ↔ k < i ∧ f.Goes k j

theorem represents_zero (f : Function) : Represents f 0
    ⟨List.replicate f.blocks.length [], List.replicate f.blocks.length []⟩ where
  successors_length := List.length_replicate
  predecessors_length := List.length_replicate
  successors k l h := by
    obtain rfl := List.eq_of_mem_replicate (List.mem_of_getElem? h)
    simp
  predecessors j l h := by
    obtain rfl := List.eq_of_mem_replicate (List.mem_of_getElem? h)
    simp

/-- What one block with its terminator adds. -/
theorem Represents.add {f : Function} {i : Nat} {edges : Edges} (h : Represents f i edges)
    {js : List Nat} (hnodup : js.Nodup) (hmem : ∀ j, j ∈ js ↔ f.Goes i j) :
    Represents f (i + 1) (js.foldl (Edges.add i) edges) := by
  obtain ⟨hsucc, hpred⟩ := foldl_add i hnodup edges
  have hlength : ∀ {l l' : List (List Nat)},
      (∀ k : Nat, l'[k]? = none ↔ l[k]? = none) → l'.length = l.length := by
    intro l l' hnone
    refine Nat.le_antisymm ?_ ?_
    · exact List.getElem?_eq_none_iff.mp ((hnone _).mpr (List.getElem?_eq_none (Nat.le_refl _)))
    · exact List.getElem?_eq_none_iff.mp ((hnone _).mp (List.getElem?_eq_none (Nat.le_refl _)))
  refine ⟨?_, ?_, ?_, ?_⟩
  · rw [← h.successors_length]
    refine hlength fun k => ?_
    rw [hsucc]
    split <;> simp
  · rw [← h.predecessors_length]
    refine hlength fun k => ?_
    rw [hpred]
    split <;> simp
  · intro k l hl
    rw [hsucc] at hl
    -- Only row `i` has new successors.
    by_cases hk : k = i
    · subst hk
      rw [if_pos rfl] at hl
      obtain ⟨l', hl', rfl⟩ := Option.map_eq_some_iff.mp hl
      have hnil : l' = [] := by
        refine List.eq_nil_iff_forall_not_mem.mpr fun j hj => ?_
        exact Nat.lt_irrefl _ (((h.successors k l' hl').2 j).mp hj).1
      rw [hnil, List.nil_append]
      refine ⟨hnodup, fun j => ?_⟩
      rw [hmem]
      exact ⟨fun hgoes => ⟨Nat.lt_succ_self _, hgoes⟩, fun h => h.2⟩
    · rw [if_neg hk] at hl
      obtain ⟨hl', hiff⟩ := h.successors k l hl
      refine ⟨hl', fun j => ?_⟩
      rw [hiff, Nat.lt_succ_iff_lt_or_eq]
      simp only [hk, or_false]
  · intro j l hl
    rw [hpred] at hl
    -- A successor of `i` gains `i` as its last predecessor.
    by_cases hj : j ∈ js
    · rw [if_pos hj] at hl
      obtain ⟨l', hl', rfl⟩ := Option.map_eq_some_iff.mp hl
      obtain ⟨hnodup', hiff⟩ := h.predecessors j l' hl'
      have hnew : i ∉ l' := fun hi => Nat.lt_irrefl _ ((hiff i).mp hi).1
      refine ⟨?_, fun k => ?_⟩
      · refine List.nodup_append.mpr ⟨hnodup', List.nodup_singleton i, fun a ha b hb hab => ?_⟩
        rw [List.mem_singleton.mp hb] at hab
        exact hnew (hab ▸ ha)
      · rw [List.mem_append, List.mem_singleton, hiff, Nat.lt_succ_iff_lt_or_eq]
        constructor
        · rintro (⟨hlt, hgoes⟩ | rfl)
          · exact ⟨Or.inl hlt, hgoes⟩
          · exact ⟨Or.inr rfl, (hmem j).mp hj⟩
        · rintro ⟨hlt | rfl, hgoes⟩
          · exact Or.inl ⟨hlt, hgoes⟩
          · exact Or.inr rfl
    · rw [if_neg hj] at hl
      obtain ⟨hl', hiff⟩ := h.predecessors j l hl
      refine ⟨hl', fun k => ?_⟩
      rw [hiff, Nat.lt_succ_iff_lt_or_eq]
      constructor
      · exact fun ⟨hlt, hgoes⟩ => ⟨Or.inl hlt, hgoes⟩
      · rintro ⟨hlt | rfl, hgoes⟩
        · exact ⟨hlt, hgoes⟩
        · exact absurd ((hmem j).mpr hgoes) hj

/-- The cost of reading the terminators. -/
def edgesCost : List BasicBlock → Nat
  | [] => 0
  | b :: blocks => (b.terminator.map fun t => t.targets.length).getD 0 + edgesCost blocks + 1

theorem addBlocks_costs {f : Function} (hf : f.Structured) {i : Nat} {blocks : List BasicBlock}
    (hblocks : f.blocks.drop i = blocks) {edges : Edges} (h : Represents f i edges) :
    Costs meter IsExhausted (edgesCost blocks) (Represents f f.blocks.length) (fun _ => False)
      (addBlocks (indicesOf f) i blocks edges) := by
  induction blocks generalizing i edges with
  | nil =>
    refine Costs.pure ?_
    have hle : f.blocks.length ≤ i := List.drop_eq_nil_iff.mp hblocks
    have hiff : ∀ k j, (k < i ∧ f.Goes k j) ↔ k < f.blocks.length ∧ f.Goes k j := fun k j =>
      ⟨fun ⟨_, hgoes⟩ => ⟨hgoes.lt.1, hgoes⟩, fun ⟨hlt, hgoes⟩ => ⟨by omega, hgoes⟩⟩
    exact ⟨h.successors_length, h.predecessors_length,
      fun k l hl =>
        ⟨(h.successors k l hl).1, fun j => ((h.successors k l hl).2 j).trans (hiff k j)⟩,
      fun j l hl =>
        ⟨(h.predecessors j l hl).1, fun k => ((h.predecessors j l hl).2 k).trans (hiff k j)⟩⟩
  | cons b blocks ih =>
    obtain ⟨hb, hrest⟩ := getElem?_of_drop_eq_cons hblocks
    have hmem := List.mem_of_getElem? hb
    obtain ⟨t, ht⟩ := Option.isSome_iff_exists.mp (hf.terminated b hmem)
    have hknown : ∀ target ∈ t.targets, ((indicesOf f).get target).isSome := by
      intro target htarget
      obtain ⟨b', hb', hid⟩ := hf.targets b hmem t ht target htarget
      obtain ⟨j, hj⟩ := List.getElem?_of_mem hb'
      rw [(get_indicesOf hf).mpr ⟨b', hj, hid⟩]
      rfl
    have hcost : edgesCost (b :: blocks) = t.targets.length + edgesCost blocks + 1 := by
      rw [edgesCost, ht]
      rfl
    rw [hcost, addBlocks]
    refine charge_bind ?_
    rw [ht, unwrap_some_bind]
    refine (addTargets_costs i hknown [] edges).bind fun edges' hedges' => ?_
    obtain ⟨js, hnodup, hjs, rfl⟩ := hedges'
    refine ih hrest (h.add hnodup fun j => ?_)
    rw [hjs]
    constructor
    · rintro ⟨_, target, htarget, hget⟩
      obtain ⟨b', hj, rfl⟩ := (get_indicesOf hf).mp hget
      exact ⟨b, t, b', hb, ht, hj, htarget⟩
    · rintro ⟨b₁, t₁, b', hb₁, ht₁, hj, htarget⟩
      rw [hb] at hb₁
      cases hb₁
      rw [ht] at ht₁
      cases ht₁
      exact ⟨List.not_mem_nil, b'.id, htarget, (get_indicesOf hf).mpr ⟨b', hj, rfl⟩⟩

end Cfg

end Whale
