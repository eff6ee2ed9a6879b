import Mathlib.Algebra.Order.Ring.Int
import Mathlib.Data.Fintype.Card
import Mathlib.Data.Fintype.EquivFin
import Mathlib.Data.List.Nodup
import Mathlib.Logic.Relation
import Mathlib.Order.WellFounded

set_option autoImplicit false

/-! # Working off a dependency graph

The nodes `0, …, n - 1` wait for others. `remaining` counts what each still waits for, `ready`
is the queue of those that wait for nothing; to complete a node is to count it off for its
users. Completed nodes come after what they depend on, and when the queue is empty every node
left waits for another one that is left. -/

namespace Whale

structure Agenda where
  remaining : List ℕ
  ready : List ℕ
  deriving DecidableEq

namespace Agenda

/-- Count off one dependency of `user`. -/
def release (a : Agenda) (user : ℕ) : Agenda :=
  let remaining := a.remaining.modify user (· - 1)
  { remaining := remaining
    ready := if remaining[user]? = some 0 then a.ready ++ [user] else a.ready }

/-- What `remaining` and `ready` become when each user is counted off once. -/
theorem foldl_release {users : List ℕ} (hnodup : users.Nodup) (a : Agenda) :
    (∀ k, (users.foldl release a).remaining[k]? =
      if k ∈ users then a.remaining[k]?.map (· - 1) else a.remaining[k]?) ∧
    (users.foldl release a).ready =
      a.ready ++ users.filter (fun k => a.remaining[k]?.map (· - 1) = some 0) := by
  induction users generalizing a with
  | nil => exact ⟨fun k => rfl, (List.append_nil _).symm⟩
  | cons user users ih =>
    obtain ⟨hnotMem, hnodup⟩ := List.nodup_cons.mp hnodup
    obtain ⟨hremaining, hready⟩ := ih hnodup (a.release user)
    have hrelease : ∀ k, (a.release user).remaining[k]? =
        if k = user then a.remaining[k]?.map (· - 1) else a.remaining[k]? := by
      intro k
      show (a.remaining.modify user (· - 1))[k]? = _
      rw [List.getElem?_modify]
      by_cases hk : user = k
      · rw [if_pos hk.symm]
        simp [hk]
      · rw [if_neg (Ne.symm hk)]
        simp [hk]
    rw [List.foldl_cons]
    refine ⟨fun k => ?_, ?_⟩
    · rw [hremaining, hrelease]
      by_cases hk : k = user
      · rw [if_neg (hk ▸ hnotMem), if_pos hk, if_pos (hk ▸ List.mem_cons_self)]
      · simp only [hk, if_false, List.mem_cons, false_or]
    · have hsame : users.filter (fun k => (a.release user).remaining[k]?.map (· - 1) = some 0) =
          users.filter (fun k => a.remaining[k]?.map (· - 1) = some 0) := by
        refine List.filter_congr fun k hk => ?_
        have hne : k ≠ user := fun h => hnotMem (h ▸ hk)
        rw [hrelease, if_neg hne]
      have huser : (a.release user).ready =
          if a.remaining[user]?.map (· - 1) = some 0 then a.ready ++ [user] else a.ready := by
        rw [← if_pos (c := user = user) (t := a.remaining[user]?.map (· - 1))
          (e := a.remaining[user]?) rfl, ← hrelease]
        rfl
      rw [hready, hsame, huser, List.filter_cons]
      split <;> simp_all

/-! ## The invariant -/

/-- `deps i` are the nodes `i` waits for, `users j` the nodes that wait for `j`. -/
structure Graph where
  n : ℕ
  deps : ℕ → List ℕ
  users : ℕ → List ℕ
  deps_lt : ∀ i < n, ∀ j ∈ deps i, j < n
  deps_nodup : ∀ i < n, (deps i).Nodup
  users_nodup : ∀ j < n, (users j).Nodup
  mem_users : ∀ j < n, ∀ i, i ∈ users j ↔ i < n ∧ j ∈ deps i

/-- After the nodes `done`, in this order. -/
structure Valid (g : Graph) (done : List ℕ) (a : Agenda) : Prop where
  done_lt : ∀ i ∈ done, i < g.n
  done_nodup : done.Nodup
  /-- Everything a completed node waits for was completed before it. -/
  ordered : ∀ before i after, done = before ++ i :: after → ∀ j ∈ g.deps i, j ∈ before
  remaining : ∀ i < g.n, a.remaining[i]? = some ((g.deps i).filter (· ∉ done)).length
  ready : ∀ i, i ∈ a.ready ↔ i < g.n ∧ i ∉ done ∧ ∀ j ∈ g.deps i, j ∈ done
  ready_nodup : a.ready.Nodup

variable {g : Graph} {done : List ℕ} {a : Agenda}

theorem length_waiting {l : List ℕ} (hl : l.Nodup) {i : ℕ} (hi : i ∉ done) :
    (l.filter (· ∉ done ++ [i])).length =
      if i ∈ l then (l.filter (· ∉ done)).length - 1 else (l.filter (· ∉ done)).length := by
  have hsplit : l.filter (· ∉ done ++ [i]) = (l.filter (· ∉ done)).filter (· ≠ i) := by
    rw [List.filter_filter]
    refine List.filter_congr fun k _ => ?_
    simp only [List.mem_append, List.mem_singleton, not_or, ne_eq, Bool.decide_and]
    exact Bool.and_comm _ _
  have herase : (l.filter (· ∉ done)).filter (· ≠ i) = (l.filter (· ∉ done)).erase i := by
    rw [(hl.filter _).erase_eq_filter]
    refine List.filter_congr fun k _ => ?_
    by_cases hk : k = i <;> simp [hk]
  rw [hsplit, herase]
  by_cases hmem : i ∈ l
  · rw [if_pos hmem, List.length_erase_of_mem (List.mem_filter.mpr ⟨hmem, by simpa using hi⟩)]
  · rw [if_neg hmem, List.erase_of_not_mem fun h => hmem (List.mem_filter.mp h).1]

theorem Valid.complete {i : ℕ} {rest : List ℕ} (h : Valid g done a) (hready : a.ready = i :: rest) :
    Valid g (done ++ [i]) ((g.users i).foldl release { a with ready := rest }) := by
  have hi : i ∈ a.ready := by
    rw [hready]
    exact List.mem_cons_self
  obtain ⟨hlt, hnew, hdeps⟩ := (h.ready i).mp hi
  have hnodup := h.ready_nodup
  rw [hready] at hnodup
  obtain ⟨hrest, hrestNodup⟩ := List.nodup_cons.mp hnodup
  obtain ⟨hremaining, hqueue⟩ := foldl_release (g.users_nodup i hlt) { a with ready := rest }
  have hcount : ∀ k < g.n, ((g.users i).foldl release { a with ready := rest }).remaining[k]? =
      some ((g.deps k).filter (· ∉ done ++ [i])).length := by
    intro k hk
    rw [hremaining, length_waiting (g.deps_nodup k hk) hnew]
    by_cases huser : i ∈ g.deps k
    · rw [if_pos ((g.mem_users i hlt k).mpr ⟨hk, huser⟩), if_pos huser]
      show a.remaining[k]?.map _ = _
      rw [h.remaining k hk]
      rfl
    · rw [if_neg (fun hmem => huser ((g.mem_users i hlt k).mp hmem).2), if_neg huser]
      exact h.remaining k hk
  -- A user joins the queue when the completed node was the last it waited for.
  have hjoins : ∀ k, k ∈ (g.users i).filter (fun k => a.remaining[k]?.map (· - 1) = some 0) ↔
      k < g.n ∧ i ∈ g.deps k ∧ ∀ j ∈ g.deps k, j ∈ done ++ [i] := by
    intro k
    rw [List.mem_filter, decide_eq_true_eq, g.mem_users i hlt]
    constructor
    · rintro ⟨⟨hk, huser⟩, hzero⟩
      rw [h.remaining k hk, Option.map_some, Option.some_inj] at hzero
      have hnone := length_waiting (g.deps_nodup k hk) hnew
      rw [if_pos huser, hzero, List.length_eq_zero_iff, List.filter_eq_nil_iff] at hnone
      exact ⟨hk, huser, fun j hj => not_not.mp fun h => hnone j hj (decide_eq_true h)⟩
    · rintro ⟨hk, huser, hall⟩
      have hnone : ((g.deps k).filter (· ∉ done ++ [i])).length = 0 := by
        rw [List.length_eq_zero_iff, List.filter_eq_nil_iff]
        exact fun j hj h => of_decide_eq_true h (hall j hj)
      rw [length_waiting (g.deps_nodup k hk) hnew, if_pos huser] at hnone
      refine ⟨⟨hk, huser⟩, ?_⟩
      rw [h.remaining k hk, Option.map_some, hnone]
  have hclosed : ∀ k ∈ done, ∀ j ∈ g.deps k, j ∈ done := by
    intro k hk j hj
    obtain ⟨before, after, hsplit⟩ := List.append_of_mem hk
    rw [hsplit]
    exact List.mem_append_left _ (h.ordered before k after hsplit j hj)
  refine ⟨?_, ?_, ?_, hcount, ?_, ?_⟩
  · intro k hk
    rcases List.mem_append.mp hk with hk | hk
    · exact h.done_lt k hk
    · rw [List.mem_singleton.mp hk]
      exact hlt
  · exact List.nodup_append.mpr ⟨h.done_nodup, List.nodup_singleton i, fun k hk l hl => by
      rw [List.mem_singleton.mp hl]
      exact fun heq => hnew (heq ▸ hk)⟩
  · intro before k after hsplit j hj
    rcases List.eq_nil_or_concat after with rfl | ⟨after, last, rfl⟩
    · obtain ⟨hbefore, hlast⟩ := List.append_inj' hsplit rfl
      rw [← hbefore]
      rw [← (List.cons.inj hlast).1] at hj
      exact hdeps j hj
    · rw [List.concat_eq_append, ← List.cons_append, ← List.append_assoc] at hsplit
      obtain ⟨hbefore, _⟩ := List.append_inj' hsplit rfl
      exact h.ordered before k after hbefore j hj
  · intro k
    rw [hqueue, List.mem_append, hjoins]
    have hqueued := h.ready k
    rw [hready, List.mem_cons] at hqueued
    constructor
    · rintro (hk | ⟨hk, huser, hall⟩)
      · obtain ⟨hkn, hkd, hkall⟩ := hqueued.mp (Or.inr hk)
        refine ⟨hkn, ?_, fun j hj => List.mem_append_left _ (hkall j hj)⟩
        rw [List.mem_append, List.mem_singleton]
        rintro (hmem | rfl)
        · exact hkd hmem
        · exact hrest hk
      · refine ⟨hk, ?_, hall⟩
        rw [List.mem_append, List.mem_singleton]
        rintro (hmem | rfl)
        · exact hnew (hclosed k hmem i huser)
        · exact hnew (hdeps k huser)
    · rintro ⟨hk, hkd, hall⟩
      rw [List.mem_append, not_or, List.mem_singleton] at hkd
      by_cases huser : i ∈ g.deps k
      · exact Or.inr ⟨hk, huser, hall⟩
      · refine Or.inl ((hqueued.mpr ⟨hk, hkd.1, fun j hj => ?_⟩).resolve_left hkd.2)
        rcases List.mem_append.mp (hall j hj) with hj' | hj'
        · exact hj'
        · exact absurd (List.mem_singleton.mp hj' ▸ hj) huser
  · rw [hqueue]
    refine List.nodup_append.mpr ⟨hrestNodup, (g.users_nodup i hlt).filter _, ?_⟩
    rintro k hk l hl rfl
    have hqueued := h.ready k
    rw [hready] at hqueued
    exact hnew ((hqueued.mp (List.mem_cons_of_mem _ hk)).2.2 i ((hjoins k).mp hl).2.1)

theorem valid_start (g : Graph) : Valid g []
    { remaining := (List.range g.n).map fun i => (g.deps i).length
      ready := (List.range g.n).filter fun i => (g.deps i).isEmpty } where
  done_lt := List.forall_mem_nil _
  done_nodup := List.nodup_nil
  ordered := by
    intro before i after h
    cases before <;> cases h
  remaining := by
    intro i hi
    have hall : (g.deps i).filter (· ∉ ([] : List ℕ)) = g.deps i :=
      List.filter_eq_self.mpr fun j _ => by simp
    rw [hall, List.getElem?_map, List.getElem?_range hi]
    rfl
  ready := by
    intro i
    rw [List.mem_filter, List.mem_range, List.isEmpty_iff]
    constructor
    · rintro ⟨hi, hnone⟩
      refine ⟨hi, List.not_mem_nil, fun j hj => ?_⟩
      rw [hnone] at hj
      exact hj
    · rintro ⟨hi, -, hall⟩
      exact ⟨hi, List.eq_nil_iff_forall_not_mem.mpr fun j hj => List.not_mem_nil (hall j hj)⟩
  ready_nodup := List.nodup_range.filter _

/-- Where every node waits for one other at most, all users of a completed node are ready. -/
theorem Valid.ready_of_single {i : ℕ} {rest : List ℕ} (h : Valid g done a)
    (hready : a.ready = i :: rest) (hsingle : ∀ k < g.n, (g.deps k).length ≤ 1) :
    ((g.users i).foldl release { a with ready := rest }).ready = rest ++ g.users i := by
  have hi : i ∈ a.ready := by
    rw [hready]
    exact List.mem_cons_self
  obtain ⟨hlt, hnew, -⟩ := (h.ready i).mp hi
  rw [(foldl_release (g.users_nodup i hlt) { a with ready := rest }).2]
  congr 1
  refine List.filter_eq_self.mpr fun k hk => ?_
  obtain ⟨hkn, hwaits⟩ := (g.mem_users i hlt k).mp hk
  have hdeps : g.deps k = [i] := by
    have hlength := hsingle k hkn
    cases hd : g.deps k with
    | nil =>
        rw [hd] at hwaits
        cases hwaits
    | cons j js =>
        rw [hd] at hwaits hlength
        obtain rfl : js = [] := List.length_eq_zero_iff.mp (by simpa using hlength)
        rw [List.mem_singleton.mp hwaits]
  have hcount := h.remaining k hkn
  rw [hdeps, List.filter_singleton, decide_eq_true hnew] at hcount
  rw [hcount]
  rfl

/-- With an empty queue a node that is left waits for another one. -/
theorem Valid.stuck (h : Valid g done a) (hready : a.ready = []) {i : ℕ} (hi : i < g.n)
    (hleft : i ∉ done) : ∃ j ∈ g.deps i, j ∉ done := by
  by_contra hnone
  have hmem := (h.ready i).mpr ⟨hi, hleft, fun j hj => by
    by_contra hj'
    exact hnone ⟨j, hj, hj'⟩⟩
  rw [hready] at hmem
  cases hmem

/-- No node is completed twice, so the queue is worked off after at most `n` of them. -/
theorem Valid.length_le (h : Valid g done a) : done.length ≤ g.n := by
  have hsub : done ⊆ List.range g.n := fun i hi => List.mem_range.mpr (h.done_lt i hi)
  have hle := h.done_nodup.length_le_of_subset hsub
  rwa [List.length_range] at hle

/-! ## Cycles -/

/-- Node `i` waits for `j`. -/
def Graph.Waits (g : Graph) (i j : ℕ) : Prop := i < g.n ∧ j ∈ g.deps i

open Relation

/-- A completed node is on no cycle: what it waits for was completed before it. -/
theorem Valid.not_cyclic (h : Valid g done a) {i : ℕ} (hi : i ∈ done) :
    ¬ TransGen g.Waits i i := by
  intro hcycle
  obtain ⟨before, after, hsplit⟩ := List.append_of_mem hi
  have hclosed : ∀ k ∈ before, ∀ j, g.Waits k j → j ∈ before := by
    intro k hk j hj
    obtain ⟨first, second, rfl⟩ := List.append_of_mem hk
    refine List.mem_append_left _ (h.ordered first k (second ++ i :: after) ?_ j hj.2)
    rw [hsplit, List.append_assoc, List.cons_append]
  have hbefore : ∀ j, TransGen g.Waits i j → j ∈ before := by
    intro j hj
    induction hj with
    | single hwaits => exact h.ordered before i after hsplit _ hwaits.2
    | tail _ hwaits ih => exact hclosed _ ih _ hwaits
  have hnodup := h.done_nodup
  rw [hsplit, List.nodup_append] at hnodup
  exact hnodup.2.2 i (hbefore i hcycle) i List.mem_cons_self rfl

/-- With an empty queue some node that is left lies on a cycle. -/
theorem Valid.cyclic (h : Valid g done a) (hready : a.ready = []) {i : ℕ} (hi : i < g.n)
    (hleft : i ∉ done) : ∃ k < g.n, TransGen g.Waits k k := by
  by_contra hacyclic
  -- Without cycles waiting is well-founded, and a last node that is left waits for none.
  let later : Fin g.n → Fin g.n → Prop := fun k l => TransGen g.Waits l k
  have htrans : IsTrans (Fin g.n) later := ⟨fun _ _ _ hkl hlm => hlm.trans hkl⟩
  have hirrefl : Std.Irrefl later := ⟨fun k hk => hacyclic ⟨k, k.isLt, hk⟩⟩
  have hwf : WellFounded later := Finite.wellFounded_of_trans_of_irrefl later
  obtain ⟨m, hm, hmin⟩ := hwf.has_min {k | (k : ℕ) ∉ done} ⟨⟨i, hi⟩, hleft⟩
  obtain ⟨j, hj, hjleft⟩ := h.stuck hready m.isLt hm
  exact hmin ⟨j, g.deps_lt m m.isLt j hj⟩ hjleft (.single ⟨m.isLt, hj⟩)

/-- When the queue is empty everything is done, unless there is a cycle. -/
theorem Valid.all_done_iff (h : Valid g done a) (hready : a.ready = []) :
    (∀ i < g.n, i ∈ done) ↔ ∀ i, ¬ TransGen g.Waits i i := by
  constructor
  · intro hall i hcycle
    obtain ⟨_, hwaits, _⟩ := TransGen.head'_iff.mp hcycle
    exact h.not_cyclic (hall i hwaits.1) hcycle
  · intro hacyclic i hi
    by_contra hleft
    obtain ⟨k, _, hcycle⟩ := h.cyclic hready hi hleft
    exact hacyclic k hcycle

end Agenda

end Whale
