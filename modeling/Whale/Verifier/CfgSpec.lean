import Whale.Verifier.CfgIntervals

set_option autoImplicit false

/-! # What the construction finds

The tables of a constructed graph say which blocks are reachable and which dominate which. -/

namespace Whale

namespace Cfg

variable {f : Function}

/-- The dominators of the blocks of `f`. -/
structure IsCfg (f : Function) (cfg : Cfg) : Prop where
  entry : ∀ i, ¬ f.Goes i f.flow.entry
  indices : cfg.indices = indicesOf f
  predecessors : ∀ j < f.blocks.length, ∃ l, cfg.predecessors[j]? = some l ∧ l.Nodup ∧
    ∀ i, i ∈ l ↔ f.Goes i j
  predecessorSets : cfg.predecessorSets = cfg.predecessors
  idom : ∀ b < f.blocks.length, ∃ d, cfg.idom[b]? = some d ∧ (d.isSome ↔ f.flow.Reachable b)
  intervals : ∀ b < f.blocks.length, ∃ i, cfg.intervals[b]? = some i ∧
    (i.isSome ↔ f.flow.Reachable b)
  nested : ∀ a b i j, cfg.intervals[a]? = some (some i) → cfg.intervals[b]? = some (some j) →
    (i.1 ≤ j.1 ∧ j.2 ≤ i.2 ↔ f.flow.Dominates a b)

/-- The error for a branch to the entry. -/
def EntersEntry (f : Function) (e : Abort) : Prop :=
  ∃ i b, f.Goes i f.flow.entry ∧ f.blocks[i]? = some b ∧
    e = .error (.entryHasPredecessor f.name f.entry b.id)

/-- The cost of a search in a table. -/
def searchCost (n : Nat) : Nat := n * (n + 2) + 1

variable {n : Nat}

theorem pending_le {seen : List Bool} {table : List (List Nat)} (hrow : ∀ l ∈ table, l.length ≤ n) :
    pending seen table ≤ table.length * (n + 2) := by
  induction seen generalizing table with
  | nil => exact Nat.zero_le _
  | cons s seen ih =>
    cases table with
    | nil => exact Nat.zero_le _
    | cons l table =>
      have hrest := ih fun l' hl' => hrow l' (List.mem_cons_of_mem _ hl')
      have hl := hrow l List.mem_cons_self
      rw [pending, List.length_cons, Nat.succ_mul]
      split <;> omega

theorem length_le_of_nodup {l : List Nat} (hnodup : l.Nodup) (hlt : ∀ x ∈ l, x < n) :
    l.length ≤ n := by
  have hle := hnodup.length_le_of_subset fun x hx => List.mem_range.mpr (hlt x hx)
  rwa [List.length_range] at hle

/-- The cost of the construction. -/
def newCost (f : Function) : Nat :=
  let n := f.blocks.length
  edgesCost f.blocks + (searchCost n + (solveCost n + (n + searchCost n)))

variable {edges : Edges}

theorem Represents.table (h : Represents f f.blocks.length edges) :
    Table f.flow f.blocks.length edges.successors where
  length := h.successors_length
  mem k l hl j := by
    rw [(h.successors k l hl).2]
    exact ⟨fun h => h.2, fun hgoes => ⟨Function.Goes.lt hgoes |>.1, hgoes⟩⟩
  lt _ _ hgoes := (Function.Goes.lt hgoes).2

theorem Represents.mem_predecessors (h : Represents f f.blocks.length edges) {j : Nat}
    (hj : j < f.blocks.length) : ∃ l, edges.predecessors[j]? = some l ∧ l.Nodup ∧
      ∀ i, i ∈ l ↔ f.Goes i j := by
  refine ⟨_, List.getElem?_eq_getElem (h.predecessors_length.symm ▸ hj), ?_⟩
  obtain ⟨hnodup, hmem⟩ := h.predecessors j _
    (List.getElem?_eq_getElem (h.predecessors_length.symm ▸ hj))
  refine ⟨hnodup, fun i => ?_⟩
  rw [hmem]
  exact ⟨fun h => h.2, fun hgoes => ⟨hgoes.lt.1, hgoes⟩⟩

theorem Represents.preds (h : Represents f f.blocks.length edges) :
    Preds f.flow f.blocks.length edges.predecessors where
  get b hb := by
    obtain ⟨l, hl, hnodup, hmem⟩ := h.mem_predecessors hb
    exact ⟨l, hl, hmem, length_le_of_nodup hnodup fun x hx => ((hmem x).mp hx).lt.1⟩
  lt _ _ hgoes := (Function.Goes.lt hgoes).1

variable {g : FlowGraph Nat} {order : List Nat}

theorem Ordered.numbered (h : Ordered g order) (hentry : g.entry < n)
    (hlt : ∀ i j, g.Edge i j → j < n) : Numbered g n order := by
  have hreach : ∀ x ∈ order, x < n := by
    intro x hx
    obtain ⟨before, hwalk⟩ := (h.mem_iff x).mp hx
    cases hwalk with
    | entry => exact hentry
    | step _ hedge => exact hlt _ _ hedge
  refine ⟨h.numbering hreach, hreach, fun x hx => ?_⟩
  obtain ⟨i, hi⟩ := List.getElem?_of_mem hx
  rw [rankOf_getElem h.nodup hreach hi]
  have hlength := length_le_of_nodup h.nodup hreach
  exact Nat.lt_of_lt_of_le (List.getElem?_eq_some_iff.mp hi).1 hlength

theorem search_costs {table : List (List Nat)} (ht : Table g n table) (hentry : g.entry < n)
    (hrow : ∀ l ∈ table, l.length ≤ n) :
    Costs meter IsExhausted (searchCost n) (Ordered g) (fun _ => False)
      (withBudget fun fuel =>
        postorder table fuel [(g.entry, false)] (List.replicate n false) []) := by
  refine withBudget_costs fun fuel =>
    (postorder_costs ht (searching_start hentry)).mono ?_ (fun _ => id) fun _ => id
  have hle : pending (List.replicate n false) table ≤ table.length * (n + 2) := pending_le hrow
  rw [ht.length] at hle
  exact Nat.succ_le_succ hle

theorem children_costs {idom : List (Option Nat)}
    (hT : g.Ranked order (rankOf n order) (parents idom)) (hlt : ∀ x ∈ order, x < n)
    (hlength : idom.length = n) :
    Costs meter IsExhausted n (Children g n (parents idom)) (fun _ => False)
      (addChildren 0 idom (List.replicate n [])) := by
  have hzero : ChildrenUpTo n (parents idom) 0 (List.replicate n []) := by
    refine ⟨List.length_replicate, fun k l hl => ?_⟩
    obtain rfl := List.eq_of_mem_replicate (List.mem_of_getElem? hl)
    simp
  refine (addChildren_costs rfl hzero).mono (Nat.le_of_eq hlength) (fun children h => ?_)
    fun _ => id
  rw [List.drop_zero, hlength, Nat.zero_add] at h
  exact h.children hT hlt

theorem tour_start_costs {T : Nat → Option Nat} (hT : g.Ranked order (rankOf n order) T)
    (hlt : ∀ x ∈ order, x < n) (hentry : g.entry < n) {children : List (List Nat)}
    (hc : Children g n T children) :
    Costs meter IsExhausted (searchCost n) (Toured g n T) (fun _ => False)
      (withBudget fun fuel =>
        tour children fuel [(g.entry, false)] (List.replicate n none) 0) := by
  refine withBudget_costs fun fuel =>
    (tour_costs hT hlt hc (touring_start hentry)).mono ?_ (fun _ => id) fun _ => id
  have hrow : ∀ l ∈ children, l.length ≤ n := by
    intro l hl
    obtain ⟨k, hk⟩ := List.getElem?_of_mem hl
    obtain ⟨hnodup, hmem⟩ := hc.mem k l hk
    refine length_le_of_nodup hnodup fun x hx => hlt x (hT.mem x ?_)
    rw [((hmem x).mp hx).2]
    rfl
  have hle : pending ((List.replicate n (none : Option (Nat × Nat))).map Option.isSome) children ≤
      children.length * (n + 2) := pending_le hrow
  rw [hc.length] at hle
  exact Nat.succ_le_succ hle

/-- The tables of a solved iteration and of a walk around its tree. -/
theorem isCfg (h : Represents f f.blocks.length edges) (hentry : ∀ i, ¬ f.Goes i f.flow.entry)
    (ho : Ordered f.flow order) (hn : Numbered f.flow f.blocks.length order)
    {idom : List (Option Nat)} (hs : Solved f.flow f.blocks.length order idom)
    {intervals : Intervals} (ht : Toured f.flow f.blocks.length (parents idom) intervals) :
    IsCfg f ⟨indicesOf f, edges.predecessors, idom, intervals, edges.predecessors⟩ := by
  have hknown : ∀ b, (parents idom b).isSome ↔ f.flow.Reachable b := fun b =>
    ⟨fun hb => (ho.mem_iff b).mp (hs.complete.ranked.mem b hb),
      fun hb => hs.complete.known b ((ho.mem_iff b).mpr hb)⟩
  refine ⟨hentry, rfl, fun j hj => h.mem_predecessors hj, rfl, fun b hb => ?_, fun b hb => ?_, ?_⟩
  · have hget := List.getElem?_eq_getElem (hs.length.symm ▸ hb)
    refine ⟨_, hget, ?_⟩
    rw [← hknown b, parents, hget]
    rfl
  · have hget := List.getElem?_eq_getElem (ht.length.symm ▸ hb)
    refine ⟨_, hget, ?_⟩
    rw [← hknown b, ← ht.known b, interval, hget]
    rfl
  · intro a b i j hi hj
    have hi' : interval intervals a = some i := congrArg Option.join hi
    have hj' : interval intervals b = some j := congrArg Option.join hj
    have hb : (interval intervals b).isSome := by
      rw [hj']
      rfl
    rw [ht.nested a b i j hi' hj']
    exact hs.anc_iff_dominates hn (hs.complete.ranked.mem b ((ht.known b).mp hb))

theorem new_costs (hf : f.Structured) :
    Costs meter IsExhausted (newCost f) (IsCfg f) (EntersEntry f) (Cfg.new f) := by
  have hget := get_entry hf
  have hentry : f.flow.entry < f.blocks.length := by
    obtain ⟨b, hb, _⟩ := (get_indicesOf hf).mp hget
    exact (List.getElem?_eq_some_iff.mp hb).1
  have hedges : Costs meter IsExhausted (edgesCost f.blocks) (Represents f f.blocks.length)
      (EntersEntry f) (addBlocks (indicesOf f) 0 f.blocks
        ⟨List.replicate f.blocks.length [], List.replicate f.blocks.length []⟩) :=
    (addBlocks_costs hf rfl (represents_zero f)).mono (Nat.le_refl _) (fun _ => id)
      fun _ => False.elim
  unfold Cfg.new
  refine hedges.bind fun edges h => ?_
  obtain ⟨entering, hentering, _, hmem⟩ := h.mem_predecessors hentry
  rw [hget, unwrap_some_bind, hentering, unwrap_some_bind]
  -- An edge into the entry is an error of the source.
  cases entering with
  | cons i entering =>
    have hgoes : f.Goes i f.flow.entry := (hmem i).mp List.mem_cons_self
    obtain ⟨b, hb⟩ : ∃ b, f.blocks[i]? = some b :=
      ⟨_, List.getElem?_eq_getElem hgoes.lt.1⟩
    dsimp only
    rw [hb, unwrap_some_bind]
    refine (Costs.throw ?_).mono (Nat.zero_le _) (fun _ => id) fun _ => id
    exact ⟨i, b, hgoes, hb, rfl⟩
  | nil =>
    have hno : ∀ i, ¬ f.Goes i f.flow.entry := fun i hgoes =>
      List.not_mem_nil ((hmem i).mpr hgoes)
    have hrow : ∀ l ∈ edges.successors, l.length ≤ f.blocks.length := by
      intro l hl
      obtain ⟨k, hk⟩ := List.getElem?_of_mem hl
      obtain ⟨hnodup, hmem'⟩ := h.successors k l hk
      exact length_le_of_nodup hnodup fun x hx => (((hmem' x).mp hx).2).lt.2
    refine Costs.mono ?_ (Nat.le_refl _) (fun _ => id) fun _ => False.elim
    refine (search_costs h.table hentry hrow).bind fun order ho => ?_
    have hn := ho.numbered hentry h.table.lt
    refine (solve_costs hn h.preds ho.eq_cons).bind fun idom hs => ?_
    have hT := hs.complete.ranked
    refine (children_costs hT hn.lt hs.length).bind fun children hc => ?_
    have htour := (tour_start_costs hT hn.lt hentry hc).bind (l := 0) fun intervals ht =>
      Costs.pure (isCfg h hno ho hn hs ht)
    exact htour

end Cfg

end Whale
