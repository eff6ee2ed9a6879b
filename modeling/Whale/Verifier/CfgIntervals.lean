import Whale.Verifier.CfgTree

set_option autoImplicit false

/-! # Intervals in the dominator tree

A walk around the tree notes when it enters and when it leaves each block. A block is an ancestor
of another one exactly if its interval contains the other one's. -/

namespace Whale

namespace Cfg

variable {g : FlowGraph Nat} {n : Nat} {order : List Nat} {idom : List (Option Nat)}
  {T : Nat → Option Nat}

/-- The tree, with edges from parents to children. -/
def tree (g : FlowGraph Nat) (T : Nat → Option Nat) : FlowGraph Nat where
  entry := g.entry
  Edge p b := g.Up T b p

theorem up_unique {b c c' : Nat} (h : g.Up T b c) (h' : g.Up T b c') : c = c' :=
  Option.some_inj.mp (h.2.symm.trans h'.2)

theorem anc_iff_of_up {a b c : Nat} (h : g.Up T b c) : g.Anc T a b ↔ a = b ∨ g.Anc T a c := by
  constructor
  · intro hanc
    by_cases hab : a = b
    · exact Or.inl hab
    · obtain ⟨c', hup, hac⟩ := hanc.up hab
      exact Or.inr (up_unique hup h ▸ hac)
  · rintro (rfl | hac)
    · exact .refl _
    · exact .parent h hac

theorem anc_entry_iff {a : Nat} : g.Anc T a g.entry ↔ a = g.entry := by
  constructor
  · intro hanc
    by_contra hne
    obtain ⟨c, hup, _⟩ := hanc.up hne
    exact hup.1 rfl
  · rintro rfl
    exact .refl _

/-! ## Children -/

/-- The children among the blocks before `i`. -/
structure ChildrenUpTo (n : Nat) (T : Nat → Option Nat) (i : Nat) (children : List (List Nat)) :
    Prop where
  length : children.length = n
  mem : ∀ (k : Nat) l, children[k]? = some l →
    l.Nodup ∧ ∀ j, j ∈ l ↔ j < i ∧ T j = some k ∧ k ≠ j

theorem addChildren_costs {i : Nat} {rest : List (Option Nat)} (hrest : idom.drop i = rest)
    {children : List (List Nat)} (h : ChildrenUpTo n (parents idom) i children) :
    Costs meter IsExhausted rest.length (ChildrenUpTo n (parents idom) (i + rest.length))
      (fun _ => False) (addChildren i rest children) := by
  induction rest generalizing i children with
  | nil => exact Costs.pure h
  | cons parent rest ih =>
    obtain ⟨hi, hdrop⟩ := getElem?_of_drop_eq_cons hrest
    have hparent : parents idom i = parent := by
      rw [parents, hi]
      rfl
    have hindex : i + (parent :: rest).length = i + 1 + rest.length := by
      rw [List.length_cons]
      omega
    rw [hindex, List.length_cons]
    unfold addChildren
    refine charge_bind ?_
    -- Without a new child the lists stay as they are.
    have hsame : (∀ p, parent = some p → p = i) →
        ChildrenUpTo n (parents idom) (i + 1) children := by
      intro hnone
      refine ⟨h.length, fun k l hl => ⟨(h.mem k l hl).1, fun j => ?_⟩⟩
      rw [(h.mem k l hl).2]
      constructor
      · rintro ⟨hlt, hj⟩
        exact ⟨Nat.lt_succ_of_lt hlt, hj⟩
      · rintro ⟨hlt, hj, hne⟩
        rcases Nat.lt_succ_iff_lt_or_eq.mp hlt with hlt | rfl
        · exact ⟨hlt, hj, hne⟩
        · exact absurd (hnone k (hparent.symm.trans hj)) hne
    cases parent with
    | none => exact ih hdrop (hsame (by rintro _ ⟨⟩))
    | some p =>
      dsimp only
      by_cases hp : p = i
      · rw [if_neg (not_not.mpr hp)]
        exact ih hdrop (hsame fun q hq => (Option.some_inj.mp hq).symm.trans hp)
      · rw [if_pos hp]
        refine ih hdrop ⟨(List.length_modify ..).trans h.length, fun k l hl => ?_⟩
        rw [List.getElem?_modify] at hl
        obtain ⟨l', hl', rfl⟩ := Option.map_eq_some_iff.mp hl
        obtain ⟨hnodup, hmem⟩ := h.mem k l' hl'
        have hnew : i ∉ l' := fun hi' => Nat.lt_irrefl _ ((hmem i).mp hi').1
        by_cases hk : p = k
        · subst hk
          rw [if_pos rfl]
          refine ⟨?_, fun j => ?_⟩
          · refine List.nodup_append.mpr ⟨hnodup, List.nodup_singleton i, fun a ha b hb hab => ?_⟩
            rw [List.mem_singleton.mp hb] at hab
            exact hnew (hab ▸ ha)
          · rw [List.mem_append, List.mem_singleton, hmem, Nat.lt_succ_iff_lt_or_eq]
            constructor
            · rintro (⟨hlt, hj⟩ | rfl)
              · exact ⟨Or.inl hlt, hj⟩
              · exact ⟨Or.inr rfl, hparent, hp⟩
            · rintro ⟨hlt | rfl, hj⟩
              · exact Or.inl ⟨hlt, hj⟩
              · exact Or.inr rfl
        · rw [if_neg hk]
          refine ⟨hnodup, fun j => ?_⟩
          show j ∈ l' ↔ _
          rw [hmem, Nat.lt_succ_iff_lt_or_eq]
          constructor
          · rintro ⟨hlt, hj⟩
            exact ⟨Or.inl hlt, hj⟩
          · rintro ⟨hlt | rfl, hj, hne⟩
            · exact ⟨hlt, hj, hne⟩
            · exact absurd (Option.some_inj.mp (hparent.symm.trans hj)) hk

/-- A table of the children of each node. -/
structure Children (g : FlowGraph Nat) (n : Nat) (T : Nat → Option Nat)
    (children : List (List Nat)) : Prop where
  length : children.length = n
  mem : ∀ (k : Nat) l, children[k]? = some l → l.Nodup ∧ ∀ j, j ∈ l ↔ g.Up T j k

theorem ChildrenUpTo.children (hT : g.Ranked order (rankOf n order) T) (hlt : ∀ x ∈ order, x < n)
    {children : List (List Nat)} (h : ChildrenUpTo n T n children) : Children g n T children := by
  refine ⟨h.length, fun k l hl => ⟨(h.mem k l hl).1, fun j => ?_⟩⟩
  rw [(h.mem k l hl).2]
  constructor
  · rintro ⟨_, hj, hne⟩
    refine ⟨?_, hj⟩
    rintro rfl
    exact hne (Option.some_inj.mp (hj.symm.trans hT.root))
  · intro hup
    refine ⟨hlt j (hT.mem j (by rw [hup.2]; rfl)), hup.2, ?_⟩
    rintro rfl
    exact Nat.lt_irrefl _ (hT.parent_lt k k hup)

/-! ## The walk -/

abbrev Intervals := List (Option (Nat × Nat))

def interval (intervals : Intervals) (x : Nat) : Option (Nat × Nat) := intervals[x]?.join

/-- What is open on a stack are the ancestors of the topmost open block. -/
theorem hangs_open_iff {stack : List (Nat × Bool)} (h : Hangs (tree g T) stack)
    {p : Nat × Bool} (hp : stack.find? Prod.snd = some p) (a : Nat) :
    (a, true) ∈ stack ↔ g.Anc T a p.1 := by
  induction stack generalizing p with
  | nil => cases hp
  | cons e stack ih =>
    obtain ⟨x, opened⟩ := e
    cases opened with
    | false =>
      rw [← ih h.2 hp, List.mem_cons]
      exact or_iff_right nofun
    | true =>
      cases hp
      have hhang := h.1
      rw [List.mem_cons, Prod.mk.injEq, and_iff_left rfl]
      cases hfind : stack.find? Prod.snd with
      | none =>
        rw [hfind] at hhang
        have hx : x = g.entry := hhang
        subst hx
        rw [anc_entry_iff]
        refine or_iff_left fun hmem => ?_
        exact absurd rfl (List.find?_eq_none.mp hfind _ hmem)
      | some q =>
        rw [hfind] at hhang
        rw [anc_iff_of_up hhang, ih h.2 hfind]

/-- A pending block is the entry or a child of an open block. -/
theorem hangs_parent {stack : List (Nat × Bool)} (h : Hangs (tree g T) stack) {y : Nat} {e : Bool}
    (hy : (y, e) ∈ stack) : y = g.entry ∨ ∃ q, g.Up T y q ∧ (q, true) ∈ stack := by
  induction stack with
  | nil => cases hy
  | cons e stack ih =>
    rcases List.mem_cons.mp hy with rfl | hy
    · have hhang := h.1
      cases hfind : stack.find? Prod.snd with
      | none =>
        rw [hfind] at hhang
        exact Or.inl hhang
      | some q =>
        rw [hfind] at hhang
        have hq : q = (q.1, true) := by
          have hsnd : q.2 = true := List.find?_some hfind
          rw [← hsnd]
        exact Or.inr ⟨q.1, hhang, List.mem_cons_of_mem _ (hq ▸ List.mem_of_find?_eq_some hfind)⟩
    · exact (ih h.2 hy).imp id fun ⟨q, hup, hq⟩ => ⟨q, hup, List.mem_cons_of_mem _ hq⟩

/-- The interval `i` of a block contains `j`; an open block contains what comes later. -/
def Contains (stack : List (Nat × Bool)) (a b : Nat) (i j : Nat × Nat) : Prop :=
  i.1 ≤ j.1 ∧ ((a, true) ∈ stack ∨ (b, true) ∉ stack ∧ j.2 ≤ i.2)

/-- The state of the walk between two iterations. -/
structure Touring (g : FlowGraph Nat) (n : Nat) (T : Nat → Option Nat)
    (stack : List (Nat × Bool)) (intervals : Intervals) (clock : Nat) : Prop where
  length : intervals.length = n
  bound : ∀ e ∈ stack, e.1 < n
  hangs : Hangs (tree g T) stack
  nodup : (stack.map Prod.fst).Nodup
  opened : ∀ x, (x, true) ∈ stack → (interval intervals x).isSome
  pending : ∀ x, (x, false) ∈ stack → interval intervals x = none
  times : ∀ x i, interval intervals x = some i → i.1 < clock ∧ i.2 < clock
  starts : ∀ x y i j, interval intervals x = some i → interval intervals y = some j →
    i.1 = j.1 → x = y
  known : ∀ x, (interval intervals x).isSome → (T x).isSome
  parents : ∀ x c, (interval intervals x).isSome → g.Up T x c → (interval intervals c).isSome
  start : (interval intervals g.entry).isSome ∨ (g.entry, false) ∈ stack
  closed : ∀ x y, (interval intervals x).isSome → g.Up T y x →
    (interval intervals y).isSome ∨ (y, false) ∈ stack
  nested : ∀ a b i j, interval intervals a = some i → interval intervals b = some j →
    (Contains stack a b i j ↔ g.Anc T a b)

theorem interval_set {intervals : Intervals} {x : Nat} (hx : x < intervals.length)
    (i : Nat × Nat) (y : Nat) :
    interval (intervals.set x (some i)) y = if y = x then some i else interval intervals y := by
  rw [interval, List.getElem?_set]
  by_cases hy : x = y
  · subst hy
    rw [if_pos rfl, if_pos hx, if_pos rfl]
    rfl
  · rw [if_neg hy, if_neg (Ne.symm hy)]
    rfl

theorem touring_start (hentry : g.entry < n) :
    Touring g n T [(g.entry, false)] (List.replicate n none) 0 := by
  have hnone : ∀ x, interval (List.replicate n none) x = none := by
    intro x
    rw [interval, List.getElem?_replicate]
    split <;> rfl
  have hnot : ∀ x, ¬ (interval (List.replicate n none) x).isSome := by
    intro x
    rw [hnone]
    exact Bool.false_ne_true
  refine ⟨List.length_replicate, ?_, ⟨rfl, trivial⟩, List.nodup_singleton _, ?_,
    fun x _ => hnone x, ?_, ?_, fun x hx => absurd hx (hnot x), fun x _ hx => absurd hx (hnot x),
    Or.inr List.mem_cons_self, fun x _ hx => absurd hx (hnot x), ?_⟩
  · intro e he
    rw [List.mem_singleton.mp he]
    exact hentry
  · intro x hx
    cases List.mem_singleton.mp hx
  · intro x i hi
    rw [hnone] at hi
    cases hi
  · intro x y i j hi
    rw [hnone] at hi
    cases hi
  · intro a b i j hi
    rw [hnone] at hi
    cases hi

variable {x clock : Nat} {stack : List (Nat × Bool)} {intervals : Intervals}

/-- What is above an entered block was entered. -/
theorem Touring.ancestor (h : Touring g n T stack intervals clock) {a b : Nat}
    (hb : (interval intervals b).isSome) (hanc : g.Anc T a b) : (interval intervals a).isSome := by
  induction hanc using Relation.ReflTransGen.head_induction_on with
  | refl => exact hb
  | head hup _ ih => exact ih (h.parents _ _ hb hup)

/-- Leaving a block closes its interval. -/
theorem Touring.leave (h : Touring g n T ((x, true) :: stack) intervals clock)
    {i : Nat × Nat} (hi : interval intervals x = some i) :
    Touring g n T stack (intervals.set x (some (i.1, clock))) (clock + 1) := by
  have hx : x < intervals.length := h.length.symm ▸ h.bound (x, true) List.mem_cons_self
  have hset := interval_set hx (i.1, clock)
  have hnodup := h.nodup
  rw [List.map_cons, List.nodup_cons] at hnodup
  have hgone : ∀ e, (x, e) ∉ stack := fun e he =>
    hnodup.1 (List.mem_map.mpr ⟨(x, e), he, rfl⟩)
  have hsome : ∀ y, (interval (intervals.set x (some (i.1, clock))) y).isSome ↔
      (interval intervals y).isSome := by
    intro y
    rw [hset]
    by_cases hy : y = x
    · subst hy
      simp [hi]
    · rw [if_neg hy]
  -- A start is what it was.
  have hstart : ∀ y j, interval (intervals.set x (some (i.1, clock))) y = some j →
      ∃ j', interval intervals y = some j' ∧ j'.1 = j.1 ∧ (y ≠ x → j' = j) := by
    intro y j hj
    rw [hset] at hj
    by_cases hy : y = x
    · rw [if_pos hy] at hj
      exact ⟨i, hy ▸ hi, by rw [← Option.some_inj.mp hj], fun hne => absurd hy hne⟩
    · rw [if_neg hy] at hj
      exact ⟨j, hj, rfl, fun _ => rfl⟩
  have htop : ∀ a, (a, true) ∈ (x, true) :: stack ↔ g.Anc T a x := fun a =>
    hangs_open_iff (p := (x, true)) h.hangs rfl a
  have hpending : ∀ y, (y, false) ∈ (x, true) :: stack → (y, false) ∈ stack := fun y hy =>
    (List.mem_cons.mp hy).resolve_left nofun
  refine ⟨List.length_set.trans h.length, fun e he => h.bound e (List.mem_cons_of_mem _ he),
    h.hangs.2, hnodup.2, fun y hy => (hsome y).mpr (h.opened y (List.mem_cons_of_mem _ hy)), ?_, ?_,
    ?_, fun y hy => h.known y ((hsome y).mp hy),
    fun y c hy hup => (hsome c).mpr (h.parents y c ((hsome y).mp hy) hup),
    h.start.imp (hsome _).mpr (hpending _),
    fun y z hy hup => (h.closed y z ((hsome y).mp hy) hup).imp (hsome z).mpr (hpending z), ?_⟩
  · intro y hy
    have hne : y ≠ x := fun heq => hgone false (heq ▸ hy)
    rw [hset, if_neg hne]
    exact h.pending y (List.mem_cons_of_mem _ hy)
  · intro y j hj
    rw [hset] at hj
    by_cases hy : y = x
    · rw [if_pos hy] at hj
      rw [← Option.some_inj.mp hj]
      exact ⟨Nat.lt_succ_of_lt (h.times x i hi).1, Nat.lt_succ_self _⟩
    · rw [if_neg hy] at hj
      exact (h.times y j hj).imp Nat.lt_succ_of_lt Nat.lt_succ_of_lt
  · intro y z j k hj hk hjk
    obtain ⟨j', hj', hj1, _⟩ := hstart y j hj
    obtain ⟨k', hk', hk1, _⟩ := hstart z k hk
    exact h.starts y z j' k' hj' hk' (by rw [hj1, hk1, hjk])
  · intro a b j k hj hk
    obtain ⟨j', hj', hj1, hjeq⟩ := hstart a j hj
    obtain ⟨k', hk', hk1, hkeq⟩ := hstart b k hk
    rw [← h.nested a b j' k' hj' hk', Contains, Contains, hj1, hk1]
    refine and_congr_right fun hle => ?_
    have hstay : ∀ y, y ≠ x → ((y, true) ∈ (x, true) :: stack ↔ (y, true) ∈ stack) := by
      intro y hy
      rw [List.mem_cons]
      exact or_iff_right fun heq => hy (Prod.mk.inj heq).1
    by_cases ha : a = x
    · have hj2 : j.2 = clock := by
        rw [hset, if_pos ha] at hj
        rw [← Option.some_inj.mp hj]
      -- What starts after the topmost open block is closed.
      have hclosed : (b, true) ∉ stack := by
        intro hopen
        have hcontains := (h.nested b x k' i hk' hi).mpr
          ((htop b).mp (List.mem_cons_of_mem _ hopen))
        have hi1 : j.1 = i.1 := by
          rw [hset, if_pos ha] at hj
          rw [← Option.some_inj.mp hj]
        have heq : k'.1 = i.1 := Nat.le_antisymm hcontains.1 (by rw [hk1, ← hi1]; exact hle)
        exact hgone true ((h.starts b x k' i hk' hi heq) ▸ hopen)
      have hlate : k.2 ≤ j.2 := by
        rw [hj2]
        by_cases hb : b = x
        · rw [hset, if_pos hb] at hk
          rw [← Option.some_inj.mp hk]
        · rw [← hkeq hb]
          exact Nat.le_of_lt (h.times b k' hk').2
      exact iff_of_true (Or.inr ⟨hclosed, hlate⟩) (Or.inl (ha ▸ List.mem_cons_self))
    · rw [hstay a ha, hjeq ha]
      by_cases hb : b = x
      · have hk2 : k.2 = clock := by
          rw [hset, if_pos hb] at hk
          rw [← Option.some_inj.mp hk]
        have hbefore := (h.times a j' hj').2
        rw [hjeq ha] at hbefore
        refine or_congr_right (iff_of_false (fun hc => ?_) (fun hc => ?_))
        · exact absurd (hk2 ▸ hc.2) (Nat.not_le_of_lt hbefore)
        · exact hc.1 (hb ▸ List.mem_cons_self)
      · rw [hstay b hb, hkeq hb]

/-- Entering a block opens its interval. -/
theorem Touring.enter (hT : g.Ranked order (rankOf n order) T)
    (h : Touring g n T ((x, false) :: stack) intervals clock) {next : List Nat}
    (hnodup : next.Nodup) (hnext : ∀ y, y ∈ next ↔ g.Up T y x) (hlt : ∀ y ∈ next, y < n) :
    Touring g n T (next.map (fun y => (y, false)) ++ (x, true) :: stack)
      (intervals.set x (some (clock, clock))) (clock + 1) := by
  have hx : x < intervals.length := h.length.symm ▸ h.bound (x, false) List.mem_cons_self
  have hset := interval_set hx (clock, clock)
  have hnew : interval intervals x = none := h.pending x List.mem_cons_self
  have hnotSome : ¬ (interval intervals x).isSome := by
    rw [hnew]
    exact Bool.false_ne_true
  have hstack := h.nodup
  rw [List.map_cons, List.nodup_cons] at hstack
  have hgone : ∀ e, (x, e) ∉ stack := fun e he =>
    hstack.1 (List.mem_map.mpr ⟨(x, e), he, rfl⟩)
  have hsome : ∀ y, (interval (intervals.set x (some (clock, clock))) y).isSome ↔
      y = x ∨ (interval intervals y).isSome := by
    intro y
    rw [hset]
    by_cases hy : y = x
    · simp [hy]
    · rw [if_neg hy, or_iff_right hy]
  -- The open blocks are the ancestors of the block that is entered.
  have hopened : ∀ a, a ≠ x → ((a, true) ∈ stack ↔ g.Anc T a x) := by
    intro a ha
    have hhang := h.hangs.1
    cases hfind : stack.find? Prod.snd with
    | none =>
      rw [hfind] at hhang
      have hentry : x = g.entry := hhang
      rw [hentry] at ha ⊢
      rw [anc_entry_iff]
      exact iff_of_false (fun hmem => List.find?_eq_none.mp hfind _ hmem rfl) ha
    | some q =>
      rw [hfind] at hhang
      rw [anc_iff_of_up hhang, or_iff_right ha]
      exact hangs_open_iff h.hangs.2 hfind a
  have hparent : x = g.entry ∨ ∃ q, g.Up T x q ∧ (interval intervals q).isSome := by
    rcases hangs_parent h.hangs List.mem_cons_self with hentry | ⟨q, hup, hq⟩
    · exact Or.inl hentry
    · exact Or.inr ⟨q, hup, h.opened q hq⟩
  have hchild : ∀ y ∈ next, ¬ (interval intervals y).isSome := fun y hy hsome' =>
    hnotSome (h.parents y x hsome' ((hnext y).mp hy))
  have hloop : x ∉ next := fun hmem =>
    Nat.lt_irrefl _ (hT.parent_lt x x ((hnext x).mp hmem))
  refine ⟨List.length_set.trans h.length, ?_, hangs_append h.hangs fun y hy => (hnext y).mp hy, ?_,
    ?_, ?_, ?_, ?_, ?_, ?_, entered_keeps hsome h.start, ?_, ?_⟩
  · exact forall_entered hlt h.bound
  · have hmap : (next.map fun y => (y, false)).map Prod.fst = next := by
      rw [List.map_map]
      exact List.map_id next
    rw [List.map_append, hmap, List.map_cons, List.nodup_append]
    refine ⟨hnodup, List.nodup_cons.mpr hstack, ?_⟩
    rintro y hy z hz rfl
    rcases List.mem_cons.mp hz with rfl | hz
    · exact hloop hy
    · obtain ⟨⟨y', e⟩, he, rfl⟩ := List.mem_map.mp hz
      cases e with
      | true => exact hchild _ hy (h.opened _ (List.mem_cons_of_mem _ he))
      | false =>
        -- A pending block hangs on its parent, which is open; the parent is only entered now.
        rcases hangs_parent h.hangs.2 he with hentry | ⟨q, hup, hq⟩
        · exact ((hnext _).mp hy).1 hentry
        · rw [up_unique hup ((hnext _).mp hy)] at hq
          exact hgone true hq
  · intro y hy
    rw [hsome]
    exact (mem_entered_open.mp hy).imp id fun hy => h.opened y (List.mem_cons_of_mem _ hy)
  · intro y hy
    rw [hset]
    rcases mem_entered_pending.mp hy with hy | hy
    · have hne : y ≠ x := fun heq => hloop (heq ▸ hy)
      rw [if_neg hne]
      exact Option.not_isSome_iff_eq_none.mp (hchild y hy)
    · have hne : y ≠ x := fun heq => hgone false (heq ▸ hy)
      rw [if_neg hne]
      exact h.pending y (List.mem_cons_of_mem _ hy)
  · intro y j hj
    rw [hset] at hj
    by_cases hy : y = x
    · rw [if_pos hy] at hj
      rw [← Option.some_inj.mp hj]
      exact ⟨Nat.lt_succ_self _, Nat.lt_succ_self _⟩
    · rw [if_neg hy] at hj
      exact (h.times y j hj).imp Nat.lt_succ_of_lt Nat.lt_succ_of_lt
  · intro y z j k hj hk hjk
    rw [hset] at hj hk
    by_cases hy : y = x
    · by_cases hz : z = x
      · rw [hy, hz]
      · rw [if_pos hy] at hj
        rw [if_neg hz] at hk
        have hbefore := (h.times z k hk).1
        rw [← hjk, ← Option.some_inj.mp hj] at hbefore
        exact absurd hbefore (Nat.lt_irrefl _)
    · rw [if_neg hy] at hj
      by_cases hz : z = x
      · rw [if_pos hz] at hk
        have hbefore := (h.times y j hj).1
        rw [hjk, ← Option.some_inj.mp hk] at hbefore
        exact absurd hbefore (Nat.lt_irrefl _)
      · rw [if_neg hz] at hk
        exact h.starts y z j k hj hk hjk
  · intro y hy
    rcases (hsome y).mp hy with rfl | hy
    · rcases hparent with rfl | ⟨q, hup, _⟩
      · rw [hT.root]
        rfl
      · rw [hup.2]
        rfl
    · exact h.known y hy
  · intro y c hy hup
    rw [hsome]
    rcases (hsome y).mp hy with rfl | hy
    · rcases hparent with hentry | ⟨q, hup', hq⟩
      · exact absurd hentry hup.1
      · exact Or.inr (up_unique hup' hup ▸ hq)
    · exact Or.inr (h.parents y c hy hup)
  · intro y z hy hup
    rcases (hsome y).mp hy with rfl | hy
    · exact Or.inr (mem_entered_pending.mpr (Or.inl ((hnext z).mpr hup)))
    · exact entered_keeps hsome (h.closed y z hy hup)
  · intro a b j k hj hk
    rw [hset] at hj hk
    rw [Contains, mem_entered_open, mem_entered_open]
    by_cases hb : b = x
    · rw [if_pos hb] at hk
      obtain rfl := Option.some_inj.mp hk
      by_cases ha : a = x
      · rw [if_pos ha] at hj
        obtain rfl := Option.some_inj.mp hj
        rw [ha, hb]
        exact iff_of_true ⟨Nat.le_refl _, Or.inl (Or.inl rfl)⟩ (.refl x)
      · rw [if_neg ha] at hj
        rw [hb, ← hopened a ha]
        have hbefore : j.1 ≤ clock := Nat.le_of_lt (h.times a j hj).1
        simp [ha, hbefore]
    · rw [if_neg hb] at hk
      have hbsome : (interval intervals b).isSome := by
        rw [hk]
        rfl
      by_cases ha : a = x
      · rw [if_pos ha] at hj
        obtain rfl := Option.some_inj.mp hj
        have hbefore := (h.times b k hk).1
        refine iff_of_false (fun hc => absurd hc.1 (Nat.not_le_of_lt hbefore)) fun hanc => ?_
        exact hnotSome (h.ancestor hbsome (ha ▸ hanc))
      · rw [if_neg ha] at hj
        rw [← h.nested a b j k hj hk, Contains]
        simp [ha, hb]

/-- What the walk leaves behind. -/
structure Toured (g : FlowGraph Nat) (n : Nat) (T : Nat → Option Nat) (intervals : Intervals) :
    Prop where
  length : intervals.length = n
  known : ∀ x, (interval intervals x).isSome ↔ (T x).isSome
  nested : ∀ a b i j, interval intervals a = some i → interval intervals b = some j →
    (i.1 ≤ j.1 ∧ j.2 ≤ i.2 ↔ g.Anc T a b)

theorem Touring.toured (hT : g.Ranked order (rankOf n order) T)
    (h : Touring g n T [] intervals clock) : Toured g n T intervals := by
  refine ⟨h.length, fun x => ⟨h.known x, fun hx => ?_⟩, fun a b i j hi hj => ?_⟩
  · -- Down the path from the entry.
    induction hT.anc_entry hx using Relation.ReflTransGen.head_induction_on with
    | refl => exact h.start.resolve_right List.not_mem_nil
    | head hup _ ih =>
      exact (h.closed _ _ (ih (hT.parent_known _ _ hup)) hup).resolve_right List.not_mem_nil
  · rw [← h.nested a b i j hi hj, Contains]
    simp

theorem tour_costs (hT : g.Ranked order (rankOf n order) T) (hlt : ∀ x ∈ order, x < n)
    {children : List (List Nat)} (hc : Children g n T children) {fuel : Nat}
    (h : Touring g n T stack intervals clock) :
    CostsWithin meter IsExhausted fuel
      (pending (intervals.map Option.isSome) children + stack.length) (Toured g n T)
      (fun _ => False) (tour children fuel stack intervals clock) := by
  induction fuel generalizing stack intervals clock with
  | zero =>
    cases stack with
    | nil => exact (Costs.pure (h.toured hT)).within
    | cons e stack => exact overrun_within (Nat.add_pos_right _ (Nat.succ_pos _))
  | succ fuel ih =>
    cases stack with
    | nil => exact (Costs.pure (h.toured hT)).within
    | cons e stack =>
      obtain ⟨x, exiting⟩ := e
      have hx : x < n := h.bound (x, exiting) List.mem_cons_self
      have hmap : (intervals.map Option.isSome)[x]? = some (interval intervals x).isSome := by
        rw [List.getElem?_map, interval]
        rw [List.getElem?_eq_getElem (h.length.symm ▸ hx)]
        rfl
      unfold tour
      rw [List.length_cons, ← Nat.add_assoc]
      refine charge_bind_within ?_
      -- Leaving a node closes its interval; entering one opens it and stacks its children.
      cases exiting with
      | true =>
        obtain ⟨i, hi⟩ := Option.isSome_iff_exists.mp (h.opened x List.mem_cons_self)
        rw [if_pos rfl, show intervals[x]?.join = some i from hi, unwrap_some_bind]
        refine (ih (h.leave hi)).mono (Nat.le_of_eq ?_) (fun _ => id) fun _ => id
        rw [hi, Option.isSome_some] at hmap
        rw [List.map_set, Option.isSome_some, set_of_getElem? hmap]
      | false =>
        obtain ⟨next, hnext⟩ : ∃ next, children[x]? = some next :=
          ⟨_, List.getElem?_eq_getElem (hc.length.symm ▸ hx)⟩
        obtain ⟨hnodup, hmem⟩ := hc.mem x next hnext
        rw [if_neg Bool.false_ne_true, hnext, unwrap_some_bind]
        have hbound : ∀ y ∈ next, y < n := fun y hy =>
          hlt y (hT.mem y (by rw [((hmem y).mp hy).2]; rfl))
        refine (ih (h.enter hT hnodup hmem hbound)).mono ?_ (fun _ => id) fun _ => id
        rw [h.pending x List.mem_cons_self] at hmap
        have hpending := pending_set hmap hnext
        rw [List.map_set, Option.isSome_some, List.length_append, List.length_map, List.length_cons]
        omega

end Cfg

end Whale
