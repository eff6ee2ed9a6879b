import Whale.Verifier.CfgGraph

set_option autoImplicit false

/-! # The order of the blocks

The search from the entry leaves exactly the reachable blocks, each once, and each after the
block it was found from has been entered. In the order of leaving, read from its end, every block
but the entry has a predecessor before it: the order is a numbering. -/

namespace Whale

namespace Cfg

variable {g : FlowGraph Nat} {n : Nat}

/-- A table of the successors of each node. -/
structure Table (g : FlowGraph Nat) (n : Nat) (successors : List (List Nat)) : Prop where
  length : successors.length = n
  mem : ∀ (k : Nat) l, successors[k]? = some l → ∀ j, j ∈ l ↔ g.Edge k j
  lt : ∀ k j, g.Edge k j → j < n

/-! ## The search -/

/-- What each entry of the stack hangs on: the open block below it, or nothing. -/
def Hangs (g : FlowGraph Nat) : List (Nat × Bool) → Prop
  | [] => True
  | e :: stack =>
      (match stack.find? Prod.snd with
        | some p => g.Edge p.1 e.1
        | none => e.1 = g.entry) ∧ Hangs g stack

/-- The state of the search between two iterations. -/
structure Searching (g : FlowGraph Nat) (n : Nat) (stack : List (Nat × Bool)) (seen : List Bool)
    (order : List Nat) : Prop where
  length : seen.length = n
  bound : ∀ e ∈ stack, e.1 < n
  hangs : Hangs g stack
  opened : ∀ x : Nat, (x, true) ∈ stack → seen[x]? = some true ∧ x ∉ order
  opened_nodup : (stack.filter Prod.snd).Nodup
  left : ∀ x ∈ order, seen[x]? = some true
  left_nodup : order.Nodup
  status : ∀ x : Nat, seen[x]? = some true → x ∈ order ∨ (x, true) ∈ stack
  reachable : ∀ e ∈ stack, g.Reachable e.1
  left_reachable : ∀ x ∈ order, g.Reachable x
  start : seen[g.entry]? = some true ∨ (g.entry, false) ∈ stack
  closed : ∀ x y : Nat, seen[x]? = some true → g.Edge x y →
    seen[y]? = some true ∨ (y, false) ∈ stack
  found : ∀ later x earlier, order = later ++ x :: earlier → x ≠ g.entry →
    ∃ p, g.Edge p x ∧ (p ∈ later ∨ (p, true) ∈ stack)

theorem searching_start (hentry : g.entry < n) :
    Searching g n [(g.entry, false)] (List.replicate n false) [] := by
  have hunseen : ∀ x : Nat, (List.replicate n false)[x]? ≠ some true := by
    intro x hx
    have hmem := List.eq_of_mem_replicate (List.mem_of_getElem? hx)
    cases hmem
  refine ⟨List.length_replicate, ?_, ⟨rfl, trivial⟩, ?_, List.nodup_nil, ?_, List.nodup_nil,
    fun x hx => absurd hx (hunseen x), ?_, ?_, Or.inr List.mem_cons_self,
    fun x y hx => absurd hx (hunseen x), ?_⟩
  · intro e he
    rw [List.mem_singleton.mp he]
    exact hentry
  · intro x hx
    cases List.mem_singleton.mp hx
  · exact fun x hx => absurd hx List.not_mem_nil
  · intro e he
    rw [List.mem_singleton.mp he]
    exact FlowGraph.reachable_entry
  · exact fun x hx => absurd hx List.not_mem_nil
  · intro later x earlier h
    cases later <;> cases h

variable {x : Nat} {stack : List (Nat × Bool)} {seen : List Bool} {order : List Nat}

theorem Searching.leave (h : Searching g n ((x, true) :: stack) seen order) :
    Searching g n stack seen (x :: order) := by
  obtain ⟨hseen, hnew⟩ := h.opened x List.mem_cons_self
  have hnodup := h.opened_nodup
  rw [List.filter_cons_of_pos rfl, List.nodup_cons] at hnodup
  have hother : ∀ y, (y, true) ∈ stack → y ≠ x := by
    rintro y hy rfl
    exact hnodup.1 (List.mem_filter.mpr ⟨hy, rfl⟩)
  have hpending : ∀ y, (y, false) ∈ (x, true) :: stack → (y, false) ∈ stack := fun y hy =>
    (List.mem_cons.mp hy).resolve_left nofun
  refine ⟨h.length, fun e he => h.bound e (List.mem_cons_of_mem _ he), h.hangs.2, ?_, hnodup.2, ?_,
    List.nodup_cons.mpr ⟨hnew, h.left_nodup⟩, ?_,
    fun e he => h.reachable e (List.mem_cons_of_mem _ he), ?_, h.start.imp id (hpending _), ?_, ?_⟩
  · intro y hy
    obtain ⟨hyseen, hynew⟩ := h.opened y (List.mem_cons_of_mem _ hy)
    exact ⟨hyseen, fun hmem => (List.mem_cons.mp hmem).elim (hother y hy) hynew⟩
  · intro y hy
    rcases List.mem_cons.mp hy with rfl | hy
    · exact hseen
    · exact h.left y hy
  · intro y hy
    rcases h.status y hy with hmem | hmem
    · exact Or.inl (List.mem_cons_of_mem _ hmem)
    · rcases List.mem_cons.mp hmem with heq | hmem
      · cases heq
        exact Or.inl List.mem_cons_self
      · exact Or.inr hmem
  · intro y hy
    rcases List.mem_cons.mp hy with rfl | hy
    · exact h.reachable (y, true) List.mem_cons_self
    · exact h.left_reachable y hy
  · exact fun y z hy hedge => (h.closed y z hy hedge).imp id (hpending z)
  · intro later y earlier hsplit hne
    -- The new head of the order hangs under the innermost open node.
    cases later with
    | nil =>
      cases hsplit
      have hhang := h.hangs.1
      cases hfind : stack.find? Prod.snd with
      | none =>
        rw [hfind] at hhang
        exact absurd hhang hne
      | some p =>
        rw [hfind] at hhang
        have htrue : p = (p.1, true) := by
          have hsnd : p.2 = true := List.find?_some hfind
          rw [← hsnd]
        exact ⟨p.1, hhang, Or.inr (htrue ▸ List.mem_of_find?_eq_some hfind)⟩
    | cons first later =>
      rw [List.cons_append, List.cons.injEq] at hsplit
      obtain ⟨rfl, hsplit⟩ := hsplit
      obtain ⟨p, hedge, hp⟩ := h.found later y earlier hsplit hne
      refine ⟨p, hedge, ?_⟩
      rcases hp with hp | hp
      · exact Or.inl (List.mem_cons_of_mem _ hp)
      · rcases List.mem_cons.mp hp with heq | hp
        · cases heq
          exact Or.inl List.mem_cons_self
        · exact Or.inr hp

/-- Passing over a block that was seen. -/
theorem Searching.skip (h : Searching g n ((x, false) :: stack) seen order)
    (hseen : seen[x]? = some true) : Searching g n stack seen order := by
  have hopen : ∀ y, (y, true) ∈ (x, false) :: stack → (y, true) ∈ stack := fun y hy =>
    (List.mem_cons.mp hy).resolve_left nofun
  have hpending : ∀ y, seen[y]? = some true ∨ (y, false) ∈ (x, false) :: stack →
      seen[y]? = some true ∨ (y, false) ∈ stack := by
    rintro y (hy | hy)
    · exact Or.inl hy
    · rcases List.mem_cons.mp hy with heq | hy
      · cases heq
        exact Or.inl hseen
      · exact Or.inr hy
  have hnodup := h.opened_nodup
  rw [List.filter_cons_of_neg Bool.false_ne_true] at hnodup
  exact ⟨h.length, fun e he => h.bound e (List.mem_cons_of_mem _ he), h.hangs.2,
    fun y hy => h.opened y (List.mem_cons_of_mem _ hy), hnodup, h.left, h.left_nodup,
    fun y hy => (h.status y hy).imp id (hopen y),
    fun e he => h.reachable e (List.mem_cons_of_mem _ he), h.left_reachable,
    hpending _ h.start, fun y z hy hedge => hpending z (h.closed y z hy hedge),
    fun later y earlier hsplit hne => by
      obtain ⟨p, hedge, hp⟩ := h.found later y earlier hsplit hne
      exact ⟨p, hedge, hp.imp id (hopen p)⟩⟩

variable {next : List Nat}

theorem hangs_append (h : Hangs g ((x, true) :: stack)) (hnext : ∀ y ∈ next, g.Edge x y) :
    Hangs g (next.map (fun y => (y, false)) ++ (x, true) :: stack) := by
  have hfind : ∀ next : List Nat,
      (next.map (fun y => (y, false)) ++ (x, true) :: stack).find? Prod.snd = some (x, true) := by
    intro next
    induction next with
    | nil => rfl
    | cons y next ih => exact ih
  induction next with
  | nil => exact h
  | cons y next ih =>
    refine ⟨?_, ih fun z hz => hnext z (List.mem_cons_of_mem _ hz)⟩
    show match (next.map (fun y => (y, false)) ++ (x, true) :: stack).find? Prod.snd with
      | some p => g.Edge p.1 y
      | none => y = g.entry
    rw [hfind]
    exact hnext y List.mem_cons_self

/-! ### The stack behind a block that is entered

Its children come first, then the block itself, which is open. -/

theorem mem_entered_open {y : Nat} :
    (y, true) ∈ next.map (fun y => (y, false)) ++ (x, true) :: stack ↔
      y = x ∨ (y, true) ∈ stack := by
  simp

theorem mem_entered_pending {y : Nat} :
    (y, false) ∈ next.map (fun y => (y, false)) ++ (x, true) :: stack ↔
      y ∈ next ∨ (y, false) ∈ stack := by
  simp

theorem forall_entered {P : Nat → Prop} (hnext : ∀ y ∈ next, P y)
    (h : ∀ e ∈ (x, false) :: stack, P e.1) :
    ∀ e ∈ next.map (fun y => (y, false)) ++ (x, true) :: stack, P e.1 := by
  intro e he
  rcases List.mem_append.mp he with he | he
  · obtain ⟨y, hy, rfl⟩ := List.mem_map.mp he
    exact hnext y hy
  · rcases List.mem_cons.mp he with rfl | he
    · exact h (x, false) List.mem_cons_self
    · exact h e (List.mem_cons_of_mem _ he)

/-- What was done or pending still is, when the block that is entered counts as done. -/
theorem entered_keeps {P Q : Nat → Prop} (hQ : ∀ y, Q y ↔ y = x ∨ P y) {y : Nat}
    (h : P y ∨ (y, false) ∈ (x, false) :: stack) :
    Q y ∨ (y, false) ∈ next.map (fun y => (y, false)) ++ (x, true) :: stack := by
  rcases h with hy | hy
  · exact Or.inl ((hQ y).mpr (Or.inr hy))
  · rcases List.mem_cons.mp hy with heq | hy
    · cases heq
      exact Or.inl ((hQ x).mpr (Or.inl rfl))
    · exact Or.inr (mem_entered_pending.mpr (Or.inr hy))

theorem Searching.enter (h : Searching g n ((x, false) :: stack) seen order)
    (hunseen : seen[x]? = some false) (hnext : ∀ y, y ∈ next ↔ g.Edge x y) (hlt : ∀ y ∈ next, y < n)
    :
    Searching g n (next.map (fun y => (y, false)) ++ (x, true) :: stack) (seen.set x true)
      order := by
  have hx : x < seen.length := (List.getElem?_eq_some_iff.mp hunseen).1
  have hset : ∀ y, (seen.set x true)[y]? = some true ↔ y = x ∨ seen[y]? = some true := by
    intro y
    rw [List.getElem?_set]
    by_cases hy : x = y
    · subst hy
      simp [hx]
    · simp [hy, Ne.symm hy]
  have hstack : ∀ y, (y, true) ∈ stack → y ≠ x := by
    rintro y hy rfl
    have hseen := (h.opened y (List.mem_cons_of_mem _ hy)).1
    rw [hunseen] at hseen
    cases hseen
  have hreach : g.Reachable x := h.reachable (x, false) List.mem_cons_self
  refine ⟨List.length_set.trans h.length, ?_, hangs_append h.hangs fun y hy => (hnext y).mp hy, ?_,
    ?_, fun y hy => (hset y).mpr (Or.inr (h.left y hy)), h.left_nodup, ?_, ?_, h.left_reachable,
    entered_keeps hset h.start, ?_, ?_⟩
  · exact forall_entered hlt h.bound
  · intro y hy
    rcases mem_entered_open.mp hy with rfl | hy
    · refine ⟨(hset y).mpr (Or.inl rfl), fun hmem => ?_⟩
      have hseen := h.left y hmem
      rw [hunseen] at hseen
      cases hseen
    · obtain ⟨hyseen, hynew⟩ := h.opened y (List.mem_cons_of_mem _ hy)
      exact ⟨(hset y).mpr (Or.inr hyseen), hynew⟩
  · have hnone : (next.map fun y => (y, false)).filter Prod.snd = [] := by
      simp
    have hnodup := h.opened_nodup
    rw [List.filter_cons_of_neg Bool.false_ne_true] at hnodup
    rw [List.filter_append, hnone, List.nil_append, List.filter_cons_of_pos rfl, List.nodup_cons]
    exact ⟨fun hmem => hstack x (List.mem_filter.mp hmem).1 rfl, hnodup⟩
  · intro y hy
    rcases (hset y).mp hy with rfl | hy
    · exact Or.inr (mem_entered_open.mpr (Or.inl rfl))
    · refine (h.status y hy).imp id fun hmem => mem_entered_open.mpr (Or.inr ?_)
      exact (List.mem_cons.mp hmem).resolve_left nofun
  · exact forall_entered (fun y hy => hreach.step ((hnext y).mp hy)) h.reachable
  · intro y z hy hedge
    rcases (hset y).mp hy with rfl | hy
    · exact Or.inr (mem_entered_pending.mpr (Or.inl ((hnext z).mpr hedge)))
    · exact entered_keeps hset (h.closed y z hy hedge)
  · intro later y earlier hsplit hne
    obtain ⟨p, hedge, hp⟩ := h.found later y earlier hsplit hne
    refine ⟨p, hedge, hp.imp id fun hmem => mem_entered_open.mpr (Or.inr ?_)⟩
    exact (List.mem_cons.mp hmem).resolve_left nofun

/-- What the search leaves behind. -/
structure Ordered (g : FlowGraph Nat) (order : List Nat) : Prop where
  nodup : order.Nodup
  mem_iff : ∀ x, x ∈ order ↔ g.Reachable x
  found : ∀ before x after, order = before ++ x :: after → x ≠ g.entry →
    ∃ p, g.Edge p x ∧ p ∈ before

theorem Searching.ordered (h : Searching g n [] seen order) : Ordered g order := by
  have hseen : ∀ x, g.Reachable x → seen[x]? = some true := by
    rintro x ⟨before, hwalk⟩
    induction hwalk with
    | entry => exact h.start.resolve_right List.not_mem_nil
    | step _ hedge ih => exact (h.closed _ _ ih hedge).resolve_right List.not_mem_nil
  refine ⟨h.left_nodup, fun x => ⟨h.left_reachable x, fun hreach => ?_⟩, ?_⟩
  · exact (h.status x (hseen x hreach)).resolve_right List.not_mem_nil
  · intro before x after hsplit hne
    obtain ⟨p, hedge, hp⟩ := h.found before x after hsplit hne
    exact ⟨p, hedge, hp.resolve_right List.not_mem_nil⟩

/-! ## The cost of a search -/

/-- The iterations that blocks not seen yet may still cause. -/
def pending : List Bool → List (List Nat) → Nat
  | s :: seen, l :: successors => (if s then 0 else l.length + 2) + pending seen successors
  | _, _ => 0

theorem pending_set {seen : List Bool} {successors : List (List Nat)}
    (hunseen : seen[x]? = some false) (hnext : successors[x]? = some next) :
    pending (seen.set x true) successors + next.length + 2 = pending seen successors := by
  induction seen generalizing x successors with
  | nil => cases hunseen
  | cons s seen ih =>
    cases successors with
    | nil => cases hnext
    | cons l successors =>
      cases x with
      | zero =>
        cases hunseen
        cases hnext
        simp only [List.set_cons_zero, pending, if_true, Bool.false_eq_true, if_false]
        omega
      | succ x =>
        have hrest := ih (x := x) hunseen hnext
        simp only [List.set_cons_succ, pending]
        omega

theorem postorder_costs {successors : List (List Nat)} (ht : Table g n successors) {fuel : Nat}
    (h : Searching g n stack seen order) :
    CostsWithin meter IsExhausted fuel (pending seen successors + stack.length) (Ordered g)
      (fun _ => False) (postorder successors fuel stack seen order) := by
  induction fuel generalizing stack seen order with
  | zero =>
    cases stack with
    | nil => exact (Costs.pure h.ordered).within
    | cons e stack => exact overrun_within (Nat.add_pos_right _ (Nat.succ_pos _))
  | succ fuel ih =>
    cases stack with
    | nil => exact (Costs.pure h.ordered).within
    | cons e stack =>
      obtain ⟨x, exiting⟩ := e
      unfold postorder
      rw [List.length_cons, ← Nat.add_assoc]
      refine charge_bind_within ?_
      cases exiting with
      | true => exact ih h.leave
      | false =>
        have hx : x < n := h.bound (x, false) List.mem_cons_self
        rw [if_neg Bool.false_ne_true]
        cases hseen : seen[x]? with
        | none =>
          rw [List.getElem?_eq_none_iff, h.length] at hseen
          exact absurd hx (Nat.not_lt_of_le hseen)
        | some visited =>
          rw [unwrap_some_bind]
          -- A node stacked a second time is already seen and is passed over.
          cases visited with
          | true => exact ih (h.skip hseen)
          | false =>
            rw [if_neg Bool.false_ne_true]
            have hnext := List.getElem?_eq_getElem (ht.length.symm ▸ hx)
            rw [hnext, unwrap_some_bind]
            have hmem := ht.mem x _ hnext
            refine (ih (h.enter hseen hmem fun y hy => ht.lt x y ((hmem y).mp hy))).mono ?_
              (fun _ => id) fun _ => id
            have hpending := pending_set hseen hnext
            rw [List.length_append, List.length_map, List.length_cons]
            omega

/-! ## Ranks -/

theorem foldl_set {order : List Nat} (hnodup : order.Nodup) (k : Nat) (rank : List Nat)
    (hlt : ∀ x ∈ order, x < rank.length) :
    (∀ x ∉ order, ((order.zipIdx k).foldl (fun rank e => rank.set e.1 e.2) rank)[x]? = rank[x]?) ∧
    ∀ i x, order[i]? = some x →
      ((order.zipIdx k).foldl (fun rank e => rank.set e.1 e.2) rank)[x]? = some (k + i) := by
  induction order generalizing k rank with
  | nil => exact ⟨fun x _ => rfl, nofun⟩
  | cons a order ih =>
    obtain ⟨hnotMem, hnodup⟩ := List.nodup_cons.mp hnodup
    obtain ⟨hother, hindex⟩ := ih hnodup (k + 1) (rank.set a k) fun x hx => by
      rw [List.length_set]
      exact hlt x (List.mem_cons_of_mem _ hx)
    rw [List.zipIdx_cons, List.foldl_cons]
    refine ⟨fun x hx => ?_, fun i x hi => ?_⟩
    · rw [List.mem_cons, not_or] at hx
      rw [hother x hx.2, List.getElem?_set_ne (Ne.symm hx.1)]
    · cases i with
      | zero =>
        cases hi
        rw [hother a hnotMem, List.getElem?_set_self (hlt a List.mem_cons_self)]
        rfl
      | succ i =>
        rw [hindex i x hi]
        congr 1
        omega

/-- The rank of a block in the order. -/
def rankOf (n : Nat) (order : List Nat) (x : Nat) : Nat := (ranks n order).getD x 0

theorem length_ranks (n : Nat) (order : List Nat) : (ranks n order).length = n := by
  have hlength : ∀ (es : List (Nat × Nat)) (rank : List Nat),
      (es.foldl (fun rank e => rank.set e.1 e.2) rank).length = rank.length := by
    intro es
    induction es with
    | nil => exact fun _ => rfl
    | cons e es ih => exact fun rank => (ih _).trans List.length_set
  rw [ranks, hlength, List.length_replicate]

theorem getElem?_ranks {y : Nat} (hy : y < n) : (ranks n order)[y]? = some (rankOf n order y) := by
  rw [rankOf, List.getD_eq_getElem?_getD]
  rw [List.getElem?_eq_getElem ((length_ranks n order).symm ▸ hy)]
  rfl

theorem rankOf_getElem (hnodup : order.Nodup) (hlt : ∀ x ∈ order, x < n) {i : Nat}
    (hi : order[i]? = some x) : rankOf n order x = i := by
  have hindex := (foldl_set hnodup 0 (List.replicate n 0) fun x hx => by
    rw [List.length_replicate]
    exact hlt x hx).2 i x hi
  rw [rankOf, ranks, List.getD_eq_getElem?_getD, hindex, Nat.zero_add]
  rfl

theorem Ordered.numbering (h : Ordered g order) (hlt : ∀ x ∈ order, x < n) :
    g.Numbering order (rankOf n order) := by
  have hascending : order.Pairwise fun a b => rankOf n order a < rankOf n order b := by
    refine List.pairwise_iff_getElem.mpr fun i j hi hj hij => ?_
    rw [rankOf_getElem h.nodup hlt (List.getElem?_eq_getElem hi),
      rankOf_getElem h.nodup hlt (List.getElem?_eq_getElem hj)]
    exact hij
  refine ⟨hascending, h.mem_iff, fun x hx hne => ?_⟩
  generalize rankOf n order = rank at hascending ⊢
  obtain ⟨before, after, hsplit⟩ := List.append_of_mem hx
  obtain ⟨p, hedge, hp⟩ := h.found before x after hsplit hne
  rw [hsplit, List.pairwise_append] at hascending
  exact ⟨p, hsplit ▸ List.mem_append_left _ hp, hedge,
    hascending.2.2 p hp x List.mem_cons_self⟩

theorem Ordered.eq_cons (h : Ordered g order) : order = g.entry :: order.tail := by
  cases horder : order with
  | nil =>
    have hmem := (h.mem_iff g.entry).mpr FlowGraph.reachable_entry
    rw [horder] at hmem
    cases hmem
  | cons x rest =>
    by_cases hx : x = g.entry
    · rw [hx]
      rfl
    · obtain ⟨p, _, hp⟩ := h.found [] x rest horder hx
      cases hp

end Cfg

end Whale
