import Mathlib.Algebra.Order.BigOperators.Group.List
import Mathlib.Algebra.Order.Group.Nat
import Whale.Verifier.CfgOrder

set_option autoImplicit false

/-! # The iteration for dominators

The loop that goes up from two blocks finds their nearest common ancestor, a pass keeps the
invariant of the iteration, and the heights of the blocks bound the number of passes. -/

namespace Whale

namespace Cfg

variable {g : FlowGraph Nat} {n : Nat} {order : List Nat} {idom : List (Option Nat)}

/-- The table as a map. -/
def parents (idom : List (Option Nat)) (b : Nat) : Option Nat := idom[b]?.join

theorem parents_set {b r : Nat} (hb : b < idom.length) :
    parents (idom.set b (some r)) = Function.update (parents idom) b (some r) := by
  funext x
  rw [parents, List.getElem?_set]
  by_cases hx : b = x
  · subst hx
    simp [hb]
  · rw [if_neg hx, Function.update_of_ne (Ne.symm hx)]
    rfl

theorem set_parents {b r : Nat} (h : parents idom b = some r) : idom.set b (some r) = idom := by
  refine set_of_getElem? ?_
  rw [parents] at h
  cases hb : idom[b]? with
  | none =>
    rw [hb] at h
    cases h
  | some p =>
    rw [hb] at h
    exact congrArg some h

/-! ## Common ancestors -/

/-- What the order and its ranks are to the graph. -/
structure Numbered (g : FlowGraph Nat) (n : Nat) (order : List Nat) : Prop where
  numbering : g.Numbering order (rankOf n order)
  lt : ∀ x ∈ order, x < n
  rank_lt : ∀ x ∈ order, rankOf n order x < n

section

variable (hn : Numbered g n order)

include hn

theorem intersect_costs (hT : g.Ranked order (rankOf n order) (parents idom)) {fuel a b : Nat}
    (ha : (parents idom a).isSome) (hb : (parents idom b).isSome) :
    CostsWithin meter IsExhausted fuel (rankOf n order a + rankOf n order b)
      (fun r => (parents idom r).isSome ∧ g.IsMeet (parents idom) (fun p => p = a ∨ p = b) r)
      (fun _ => False) (intersect (ranks n order) idom fuel a b) := by
  induction fuel generalizing a b with
  | zero =>
    unfold intersect
    by_cases hab : a = b
    · subst hab
      rw [if_pos rfl]
      exact (Costs.pure ⟨ha, FlowGraph.isMeet_self a⟩).within
    · rw [if_neg hab]
      refine overrun_within ?_
      have hne : rankOf n order a ≠ rankOf n order b := fun h =>
        hab (hn.numbering.rank_injective (hT.mem a ha) (hT.mem b hb) h)
      omega
  | succ fuel ih =>
    unfold intersect
    by_cases hab : a = b
    · subst hab
      rw [if_pos rfl]
      exact (Costs.pure ⟨ha, FlowGraph.isMeet_self a⟩).within
    · rw [if_neg hab]
      have hne : rankOf n order a ≠ rankOf n order b := fun h =>
        hab (hn.numbering.rank_injective (hT.mem a ha) (hT.mem b hb) h)
      have hup : ∀ x y, (parents idom x).isSome → (parents idom y).isSome →
          rankOf n order y < rankOf n order x → ∃ c, g.Up (parents idom) x c := by
        intro x y hx hy hlt
        obtain ⟨c, hc⟩ := Option.isSome_iff_exists.mp hx
        refine ⟨c, fun heq => ?_, hc⟩
        have hle := (hT.anc_entry hy).rank_le hT
        rw [← heq] at hle
        omega
      rw [getElem?_ranks (hn.lt a (hT.mem a ha)), getElem?_ranks (hn.lt b (hT.mem b hb))]
      simp only [unwrap_some_bind]
      by_cases hgt : rankOf n order a > rankOf n order b
      · obtain ⟨c, hc⟩ := hup a b ha hb hgt
        have hclt := hT.parent_lt a c hc
        rw [if_pos hgt, show idom[a]?.join = some c from hc.2, unwrap_some_bind]
        refine (charge_bind_within (ih (hT.parent_known a c hc) hb)).mono (by omega) ?_ fun _ => id
        exact fun r ⟨hr, hmeet⟩ => ⟨hr, hmeet.up hT hc hgt⟩
      · have hlt : rankOf n order a < rankOf n order b := by omega
        obtain ⟨c, hc⟩ := hup b a hb ha hlt
        have hclt := hT.parent_lt b c hc
        rw [if_neg hgt, show idom[b]?.join = some c from hc.2, unwrap_some_bind]
        refine (charge_bind_within (ih ha (hT.parent_known b c hc))).mono (by omega) ?_ fun _ => id
        rintro r ⟨hr, hmeet⟩
        have hcomm : ∀ x y : Nat, (fun p => p = x ∨ p = y) = fun p => p = y ∨ p = x := fun x y =>
          funext fun p => propext or_comm
        rw [hcomm] at hmeet ⊢
        exact ⟨hr, hmeet.up hT hc hlt⟩

/-- The nearest common ancestor of a set, or nothing for no nodes. -/
def MeetOf (g : FlowGraph Nat) (T : Nat → Option Nat) (S : Nat → Prop) : Option Nat → Prop
  | none => ∀ p, ¬ S p
  | some a => (T a).isSome ∧ g.IsMeet T S a

theorem meet_costs (hT : g.Ranked order (rankOf n order) (parents idom))
    (hlength : idom.length = n) {preds : List Nat} (hpreds : ∀ p ∈ preds, p < n)
    {S : Nat → Prop} {next : Option Nat} (hnext : MeetOf g (parents idom) S next) :
    Costs meter IsExhausted (preds.length * (2 * n + 1))
      (MeetOf g (parents idom) fun p => S p ∨ p ∈ preds ∧ (parents idom p).isSome)
      (fun _ => False) (meet (ranks n order) idom preds next) := by
  -- `S` holds the predecessors met so far.
  induction preds generalizing S next with
  | nil =>
    have hsame : (fun p => S p ∨ p ∈ [] ∧ (parents idom p).isSome) = S := by
      funext p
      simp
    rw [hsame]
    exact Costs.pure hnext
  | cons p preds ih =>
    have hrest : ∀ p ∈ preds, p < n := fun q hq => hpreds q (List.mem_cons_of_mem _ hq)
    obtain ⟨known, hknown⟩ : ∃ known, idom[p]? = some known :=
      ⟨_, List.getElem?_eq_getElem (hlength.symm ▸ hpreds p List.mem_cons_self)⟩
    have hparents : parents idom p = known := by
      rw [parents, hknown]
      rfl
    have hcost : (p :: preds).length * (2 * n + 1) = 2 * n + preds.length * (2 * n + 1) + 1 := by
      rw [List.length_cons, Nat.succ_mul]
      omega
    rw [hcost]
    unfold meet
    refine charge_bind ?_
    rw [hknown, unwrap_some_bind]
    -- Only a predecessor that has a parent takes part.
    by_cases hnone : known = none
    · rw [if_pos hnone]
      refine (ih hrest hnext).mono (by omega) (fun next' h => ?_) fun _ => id
      have hsame : (fun q => S q ∨ q ∈ p :: preds ∧ (parents idom q).isSome) =
          fun q => S q ∨ q ∈ preds ∧ (parents idom q).isSome := by
        funext q
        by_cases hq : q = p
        · subst hq
          simp [hparents, hnone]
        · simp [hq]
      rwa [hsame]
    · rw [if_neg hnone]
      have hpknown : (parents idom p).isSome := by
        rw [hparents]
        exact Option.isSome_iff_ne_none.mpr hnone
      have hsame : (fun q => S q ∨ q ∈ p :: preds ∧ (parents idom q).isSome) =
          fun q => (S q ∨ q = p) ∨ q ∈ preds ∧ (parents idom q).isSome := by
        funext q
        by_cases hq : q = p
        · subst hq
          simp [hpknown]
        · simp [hq]
      rw [hsame]
      cases next with
      | none =>
        have hfirst : MeetOf g (parents idom) (fun q => S q ∨ q = p) (some p) := by
          refine ⟨hpknown, fun q hq => ?_, fun x hx => hx p (Or.inr rfl)⟩
          rcases hq with hq | rfl
          · exact absurd hq (hnext q)
          · exact .refl q
        exact (ih hrest hfirst).mono (by omega) (fun _ => id) fun _ => id
      | some a =>
        obtain ⟨ha, hmeet⟩ := hnext
        have hinter : Costs meter IsExhausted (2 * n)
            (fun r => (parents idom r).isSome ∧
              g.IsMeet (parents idom) (fun q => q = a ∨ q = p) r) (fun _ => False)
            (withBudget fun fuel => intersect (ranks n order) idom fuel a p) := by
          refine withBudget_costs fun fuel => (intersect_costs hn hT ha hpknown).mono ?_
            (fun _ => id) fun _ => id
          have hra := hn.rank_lt a (hT.mem a ha)
          have hrp := hn.rank_lt p (hT.mem p hpknown)
          omega
        exact hinter.bind fun r ⟨hr, hrmeet⟩ => ih hrest ⟨hr, hmeet.add hrmeet⟩

end

/-! ## A pass -/

/-- A table of the predecessors of each node. -/
structure Preds (g : FlowGraph Nat) (n : Nat) (predecessors : List (List Nat)) : Prop where
  get : ∀ b < n, ∃ l, predecessors[b]? = some l ∧ (∀ p, p ∈ l ↔ g.Edge p b) ∧ l.length ≤ n
  lt : ∀ p b, g.Edge p b → p < n

/-- An invariant of the iteration: setting the parent of the next block to the nearest common
ancestor of its known predecessors keeps it. -/
structure Keeps (g : FlowGraph Nat) (n : Nat) (order : List Nat)
    (Inv : List Nat → List (Option Nat) → Bool → Prop) : Prop where
  length : ∀ before idom c, Inv before idom c → idom.length = n
  ranked : ∀ before idom c, Inv before idom c → g.Ranked order (rankOf n order) (parents idom)
  known : ∀ before idom c, Inv before idom c → ∀ b ∈ before, b ∈ order → (parents idom b).isSome
  step : ∀ before b after idom c r, order = before ++ b :: after → b ≠ g.entry →
    Inv before idom c → g.IsMeet (parents idom) (g.KnownPred (parents idom) b) r →
    Inv (before ++ [b]) (idom.set b (some r)) (c || decide (parents idom b ≠ some r))

section

variable (hn : Numbered g n order) {predecessors : List (List Nat)} (hp : Preds g n predecessors)
  {Inv : List Nat → List (Option Nat) → Bool → Prop} (hkeeps : Keeps g n order Inv)

include hn hp hkeeps

theorem update_costs {before after : List Nat} {b : Nat} {c : Bool}
    (horder : order = before ++ b :: after) (hentry : b ≠ g.entry) (hinv : Inv before idom c) :
    Costs meter IsExhausted (n * (2 * n + 1)) (fun r => Inv (before ++ [b]) r.1 r.2)
      (fun _ => False) (update (ranks n order) predecessors b idom c) := by
  have hT := hkeeps.ranked before idom c hinv
  have hlength := hkeeps.length before idom c hinv
  have hb : b ∈ order := horder ▸ List.mem_append_right _ List.mem_cons_self
  obtain ⟨preds, hpreds, hmem, hle⟩ := hp.get b (hn.lt b hb)
  unfold update
  rw [hpreds, unwrap_some_bind]
  have hnone : MeetOf g (parents idom) (fun _ => False) none := fun _ => id
  have hmeet := meet_costs hn hT hlength (fun p hp' => hp.lt p b ((hmem p).mp hp')) hnone
  refine Costs.mono (hmeet.bind (l := 0) (R := fun r => Inv (before ++ [b]) r.1 r.2)
    fun next hnext => ?_) (Nat.mul_le_mul_right _ hle) (fun _ => id) fun _ => id
  have hset : (fun p => False ∨ p ∈ preds ∧ (parents idom p).isSome) =
      g.KnownPred (parents idom) b := by
    funext p
    rw [false_or, hmem]
    rfl
  rw [hset] at hnext
  obtain ⟨old, hold⟩ : ∃ old, idom[b]? = some old :=
    ⟨_, List.getElem?_eq_getElem (hlength.symm ▸ hn.lt b hb)⟩
  have hparent : parents idom b = old := by
    rw [parents, hold]
    rfl
  rw [hold, unwrap_some_bind]
  cases next with
  | none =>
    -- The block has a predecessor before it.
    obtain ⟨p, hporder, hedge, hlt⟩ := hn.numbering.early b hb hentry
    have hpbefore := (hn.numbering.mem_before_iff horder hporder).mpr hlt
    exact absurd ⟨hedge, hkeeps.known before idom c hinv p hpbefore hporder⟩ (hnext p)
  | some r =>
    have hstep := hkeeps.step before b after idom c r horder hentry hinv hnext.2
    rw [hparent] at hstep
    by_cases hsame : some r = old
    · rw [if_neg (not_not.mpr hsame)]
      rw [set_parents (hparent.trans hsame.symm), decide_eq_false (not_not.mpr hsame.symm),
        Bool.or_false] at hstep
      exact Costs.pure hstep
    · rw [if_pos hsame]
      rw [decide_eq_true (Ne.symm hsame), Bool.or_true] at hstep
      exact Costs.pure hstep

theorem sweep_costs {before blocks : List Nat} {c : Bool} (horder : order = before ++ blocks)
    (hentry : ∀ b ∈ blocks, b ≠ g.entry) (hinv : Inv before idom c) :
    Costs meter IsExhausted (blocks.length * (n * (2 * n + 1) + 1)) (fun r => Inv order r.1 r.2)
      (fun _ => False) (sweep (ranks n order) predecessors blocks idom c) := by
  induction blocks generalizing before idom c with
  | nil =>
    rw [List.append_nil] at horder
    rw [← horder] at hinv
    exact Costs.pure (a := (idom, c)) hinv
  | cons b blocks ih =>
    have hcost : (b :: blocks).length * (n * (2 * n + 1) + 1) =
        n * (2 * n + 1) + blocks.length * (n * (2 * n + 1) + 1) + 1 := by
      rw [List.length_cons, Nat.succ_mul]
      omega
    rw [hcost]
    unfold sweep
    refine charge_bind ?_
    refine (update_costs hn hp hkeeps horder (hentry b List.mem_cons_self) hinv).bind
      fun r hr => ?_
    exact ih (by rw [List.append_assoc]; exact horder)
      (fun b' hb' => hentry b' (List.mem_cons_of_mem _ hb')) hr

end

/-! ## The two invariants -/

/-- The first pass; it changes every block it comes to. -/
structure First (g : FlowGraph Nat) (n : Nat) (order before : List Nat) (idom : List (Option Nat))
    (changed : Bool) : Prop where
  length : idom.length = n
  begun : g.Begun order (rankOf n order) before (parents idom)
  unchanged : changed = false → before = [g.entry]

/-- The sum of the ranks of all parents. -/
def height (n : Nat) (order : List Nat) (T : Nat → Option Nat) : Nat :=
  (order.map fun b => ((T b).map (rankOf n order)).getD 0).sum

/-- A later pass from `old`: a change lowers the height, and without a change each block has the
parent that the pass would give it. -/
structure Later (g : FlowGraph Nat) (n : Nat) (order : List Nat) (old : List (Option Nat))
    (before : List Nat) (idom : List (Option Nat)) (changed : Bool) : Prop where
  length : idom.length = n
  sweeping : g.Sweeping order (rankOf n order) before (parents old) (parents idom)
  lower : height n order (parents idom) + changed.toNat ≤ height n order (parents old)
  unchanged : changed = false → idom = old ∧ ∀ b ∈ before, ∀ c, g.Up (parents idom) b c →
    g.IsMeet (parents idom) (g.KnownPred (parents idom) b) c

theorem height_update {T : Nat → Option Nat} {b c r : Nat} (hb : b ∈ order) (hc : T b = some c)
    (hlt : rankOf n order r < rankOf n order c) :
    height n order (Function.update T b (some r)) < height n order T := by
  refine List.sum_lt_sum _ _ (fun x _ => ?_) ⟨b, hb, ?_⟩
  · by_cases hx : x = b
    · subst hx
      rw [Function.update_self, hc]
      exact Nat.le_of_lt hlt
    · rw [Function.update_of_ne hx]
  · rw [Function.update_self, hc]
    exact hlt

theorem Numbered.length_le (hn : Numbered g n order) : order.length ≤ n := by
  have hnodup : order.Nodup := by
    refine hn.numbering.ascending.imp ?_
    rintro a _ h rfl
    exact Nat.lt_irrefl _ h
  have hsub : order ⊆ List.range n := fun x hx => List.mem_range.mpr (hn.lt x hx)
  have hle := hnodup.length_le_of_subset hsub
  rwa [List.length_range] at hle

theorem Numbered.height_le (hn : Numbered g n order) {T : Nat → Option Nat}
    (hT : g.Ranked order (rankOf n order) T) : height n order T ≤ n * n := by
  have hrank : ∀ k ∈ order.map fun b => ((T b).map (rankOf n order)).getD 0, k ≤ n := by
    intro k hk
    obtain ⟨b, hb, rfl⟩ := List.mem_map.mp hk
    cases hc : T b with
    | none => exact Nat.zero_le n
    | some c =>
      have hcorder : c ∈ order := by
        by_cases hentry : b = g.entry
        · have hroot := hT.root
          rw [← hentry, hc] at hroot
          rw [Option.some_inj.mp hroot]
          exact hb
        · exact hT.mem c (hT.parent_known b c ⟨hentry, hc⟩)
      exact Nat.le_of_lt (hn.rank_lt c hcorder)
  have hsum := List.sum_le_card_nsmul _ n hrank
  rw [List.length_map, Nat.nsmul_eq_mul] at hsum
  exact Nat.le_trans hsum (Nat.mul_le_mul_right n hn.length_le)

theorem mem_split {before after : List Nat} {b : Nat} (horder : order = before ++ b :: after) :
    b ∈ order :=
  horder ▸ List.mem_append_right _ List.mem_cons_self

section

variable (hn : Numbered g n order)

include hn

theorem first_keeps : Keeps g n order (First g n order) where
  length _ _ _ h := h.length
  ranked _ _ _ h := h.begun.ranked
  known _ _ _ h b hb _ := (h.begun.known b).mpr hb
  step before b after idom c r horder hentry h hr := by
    have hb := mem_split horder
    have hstep := h.begun.step hn.numbering horder hentry hr
    rw [← parents_set (h.length.symm ▸ hn.lt b hb)] at hstep
    refine ⟨List.length_set.trans h.length, hstep, fun hunchanged => ?_⟩
    have hnone : parents idom b = none := by
      rw [← Option.not_isSome_iff_eq_none, h.begun.known b, hn.numbering.mem_before_iff horder hb]
      exact Nat.lt_irrefl _
    rw [hnone] at hunchanged
    simp at hunchanged

theorem later_keeps {old : List (Option Nat)}
    (hold : g.Complete order (rankOf n order) (parents old)) :
    Keeps g n order (Later g n order old) where
  length _ _ _ h := h.length
  ranked _ _ _ h := h.sweeping.ranked
  known _ _ _ h b _ hb := h.sweeping.known b hb
  step before b after idom c r horder hentry h hr := by
    have hb := mem_split horder
    have hlt : b < idom.length := h.length.symm ▸ hn.lt b hb
    have hstep := h.sweeping.step hn.numbering hold horder hentry hr
    rw [← parents_set hlt] at hstep
    obtain ⟨p, hp⟩ := Option.isSome_iff_exists.mp (h.sweeping.known b hb)
    have hup : g.Up (parents idom) b p := ⟨hentry, hp⟩
    by_cases hsame : p = r
    · subst hsame
      rw [set_parents hp] at hstep ⊢
      rw [hp, decide_eq_false (not_not.mpr rfl), Bool.or_false]
      refine ⟨h.length, hstep, h.lower, fun hc => ⟨(h.unchanged hc).1, fun b' hb' c' hup' => ?_⟩⟩
      rcases List.mem_append.mp hb' with hb' | hb'
      · exact (h.unchanged hc).2 b' hb' c' hup'
      · obtain rfl := List.mem_singleton.mp hb'
        rw [← Option.some_inj.mp (hup.2.symm.trans hup'.2)]
        exact hr
    · have hrank := ((h.sweeping.moves_up hn.numbering hold horder hentry hr hup).rank_lt
        h.sweeping.ranked).resolve_left (Ne.symm hsame)
      have hlower := height_update hb hp hrank
      have hchanged : (c || decide (parents idom b ≠ some r)) = true := by
        rw [hp]
        simp [hsame]
      rw [hchanged]
      refine ⟨List.length_set.trans h.length, hstep, ?_, nofun⟩
      have hle := h.lower
      rw [parents_set hlt]
      simp only [Bool.toNat_true]
      omega

end

/-! ## The loop -/

theorem entry_not_mem (hn : Numbered g n order) {blocks : List Nat}
    (horder : order = g.entry :: blocks) : ∀ b ∈ blocks, b ≠ g.entry := by
  rintro b hb rfl
  have hascending := hn.numbering.ascending
  rw [horder, List.pairwise_cons] at hascending
  exact Nat.lt_irrefl _ (hascending.1 g.entry hb)

/-- The parents when a pass changes nothing. -/
structure Solved (g : FlowGraph Nat) (n : Nat) (order : List Nat) (idom : List (Option Nat)) :
    Prop where
  length : idom.length = n
  complete : g.Complete order (rankOf n order) (parents idom)
  fixed : ∀ b c, g.Up (parents idom) b c →
    g.IsMeet (parents idom) (g.KnownPred (parents idom) b) c

theorem Solved.anc_iff_dominates (h : Solved g n order idom) (hn : Numbered g n order) {a b : Nat}
    (hb : b ∈ order) : g.Anc (parents idom) a b ↔ g.Dominates a b := by
  refine h.complete.anc_iff_dominates (fun b c hup p hp hedge => ?_) hn.numbering hb
  exact (h.fixed b c hup).common p ⟨hedge, h.complete.known p hp⟩

section

variable (hn : Numbered g n order) {predecessors : List (List Nat)} (hp : Preds g n predecessors)
  {blocks : List Nat} (horder : order = g.entry :: blocks)

include hn hp horder

/-- A loop that begins with a pass: each iteration charges, unless there is nothing to visit. -/
theorem solve_step {Inv : List Nat → List (Option Nat) → Bool → Prop}
    (hkeeps : Keeps g n order Inv) (hinv : Inv [g.entry] idom false) {k fuel : Nat}
    (hfixed : ∀ idom', Inv order idom' false → Solved g n order idom')
    (hnext : ∀ fuel' idom', fuel = fuel' + 1 → Inv order idom' true →
      CostsWithin meter IsExhausted fuel' k (Solved g n order) (fun _ => False)
        (solve (ranks n order) predecessors blocks fuel idom')) :
    CostsWithin meter IsExhausted fuel (blocks.length * (n * (2 * n + 1) + 1) + k)
      (Solved g n order) (fun _ => False)
      (solve (ranks n order) predecessors blocks (fuel + 1) idom) := by
  have hentry := entry_not_mem hn horder
  cases blocks with
  | nil =>
    rw [← horder] at hinv
    exact (Costs.pure (hfixed idom hinv)).within
  | cons b blocks =>
    have hsolve : solve (ranks n order) predecessors (b :: blocks) (fuel + 1) idom =
        charge >>= fun _ => (update (ranks n order) predecessors b idom false >>= fun r =>
          sweep (ranks n order) predecessors blocks r.1 r.2) >>= fun r =>
            if r.2 then solve (ranks n order) predecessors (b :: blocks) fuel r.1
            else pure r.1 := by
      rw [solve, sweep, bind_assoc]
    have hcost : (b :: blocks).length * (n * (2 * n + 1) + 1) + k =
        n * (2 * n + 1) + blocks.length * (n * (2 * n + 1) + 1) + k + 1 := by
      rw [List.length_cons, Nat.succ_mul]
      omega
    rw [hsolve, hcost]
    intro s hs
    refine charge_bind_at fun hlt => ?_
    obtain ⟨fuel', rfl⟩ : ∃ fuel', fuel = fuel' + 1 := by
      refine Nat.exists_eq_succ_of_ne_zero fun hzero => ?_
      simp only [Meter.left, meter] at hs
      omega
    have hpass := (update_costs hn hp hkeeps horder (hentry b List.mem_cons_self) hinv).bind
      fun r hr => sweep_costs hn hp hkeeps (by rw [List.append_assoc]; exact horder)
        (fun b' hb' => hentry b' (List.mem_cons_of_mem _ hb')) hr
    have hcont : ∀ r : List (Option Nat) × Bool, Inv order r.1 r.2 →
        CostsWithin meter IsExhausted fuel' k (Solved g n order) (fun _ => False)
          (if r.2 then solve (ranks n order) predecessors (b :: blocks) (fuel' + 1) r.1
            else pure r.1) := by
      rintro ⟨idom', changed⟩ hr
      -- A pass that changed a parent is followed by another; one that did not is the end.
      cases changed with
      | true => exact hnext fuel' idom' rfl hr
      | false => exact (Costs.pure (hfixed idom' hr)).within
    refine hpass.within.bind hcont _ ?_
    simp only [Meter.left, meter] at hs ⊢
    omega

theorem solve_later_costs {old : List (Option Nat)} (hlength : old.length = n)
    (hold : g.Complete order (rankOf n order) (parents old)) {fuel : Nat} :
    CostsWithin meter IsExhausted fuel
      ((height n order (parents old) + 1) * (blocks.length * (n * (2 * n + 1) + 1)))
      (Solved g n order) (fun _ => False)
      (solve (ranks n order) predecessors blocks (fuel + 1) old) := by
  induction fuel using Nat.strongRecOn generalizing old with
  | ind fuel ih =>
    have hinv : Later g n order old [g.entry] old false :=
      ⟨hlength, hold.sweeping, Nat.le_refl _, fun _ => ⟨rfl, fun b hb c hup =>
        absurd (List.mem_singleton.mp hb) hup.1⟩⟩
    have hfixed : ∀ idom', Later g n order old order idom' false → Solved g n order idom' := by
      intro idom' h
      refine ⟨h.length, h.sweeping.complete, fun b c hup => ?_⟩
      exact (h.unchanged rfl).2 b (h.sweeping.ranked.mem b (by rw [hup.2]; rfl)) c hup
    rw [Nat.succ_mul, Nat.add_comm]
    refine solve_step hn hp horder (later_keeps hn hold) hinv hfixed fun fuel' idom' hfuel h => ?_
    have hlower := h.lower
    rw [Bool.toNat_true] at hlower
    rw [hfuel]
    exact (ih fuel' (by omega) h.length h.sweeping.complete).mono
      (Nat.mul_le_mul_right _ hlower) (fun _ => id) fun _ => id

/-- The cost of the iteration for `n` blocks. -/
def solveCost (n : Nat) : Nat := (n * n + 2) * (n * (n * (2 * n + 1) + 1))

theorem solve_costs :
    Costs meter IsExhausted (solveCost n) (Solved g n order) (fun _ => False)
      (withBudget fun fuel => solve (ranks n order) predecessors blocks (fuel + 1)
        ((List.replicate n none).set g.entry (some g.entry))) := by
  have hentry : g.entry ∈ order := horder ▸ List.mem_cons_self
  have hparents : parents ((List.replicate n none).set g.entry (some g.entry)) =
      Function.update (fun _ => none) g.entry (some g.entry) := by
    rw [parents_set (by rw [List.length_replicate]; exact hn.lt _ hentry)]
    congr 1
    funext b
    rw [parents, List.getElem?_replicate]
    split <;> rfl
  have hinv : First g n order [g.entry]
      ((List.replicate n none).set g.entry (some g.entry)) false := by
    refine ⟨by simp, ?_, fun _ => rfl⟩
    rw [hparents]
    exact FlowGraph.begun_entry hentry
  have hfixed : ∀ idom', First g n order order idom' false → Solved g n order idom' := by
    intro idom' h
    refine ⟨h.length, h.begun.complete, fun b c hup => ?_⟩
    have hb := h.begun.ranked.mem b (by rw [hup.2]; rfl)
    rw [h.unchanged rfl] at hb
    exact absurd (List.mem_singleton.mp hb) hup.1
  refine withBudget_costs fun fuel => ?_
  -- The first pass reaches every node; the later ones only move parents up.
  have hnext : ∀ fuel' idom', fuel = fuel' + 1 → First g n order order idom' true →
      CostsWithin meter IsExhausted fuel' ((n * n + 1) * (blocks.length * (n * (2 * n + 1) + 1)))
        (Solved g n order) (fun _ => False)
        (solve (ranks n order) predecessors blocks fuel idom') := by
    intro fuel' idom' hfuel h
    rw [hfuel]
    exact (solve_later_costs hn hp horder h.length h.begun.complete).mono
      (Nat.mul_le_mul_right _ (Nat.succ_le_succ (hn.height_le h.begun.ranked)))
      (fun _ => id) fun _ => id
  have hstep := solve_step hn hp horder (first_keeps hn) hinv hfixed hnext
  refine hstep.mono ?_ (fun _ => id) fun _ => id
  have hle : blocks.length ≤ n := by
    have hlength := hn.length_le
    rw [horder, List.length_cons] at hlength
    omega
  have hpass : blocks.length * (n * (2 * n + 1) + 1) ≤ n * (n * (2 * n + 1) + 1) :=
    Nat.mul_le_mul_right _ hle
  have hsplit : solveCost n = (n * n + 1) * (n * (n * (2 * n + 1) + 1)) +
      n * (n * (2 * n + 1) + 1) := Nat.succ_mul (n * n + 1) _
  rw [hsplit, Nat.add_comm]
  exact Nat.add_le_add (Nat.mul_le_mul_left _ hpass) hpass

end

end Cfg

end Whale
