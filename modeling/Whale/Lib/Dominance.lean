import Mathlib.Algebra.Order.Ring.Int
import Mathlib.Logic.Function.Basic
import Mathlib.Logic.Relation

set_option autoImplicit false

/-! # Dominance

A node dominates another one if every walk from the entry to it passes through the first. The
dominators of a node form a chain, so a map from nodes to parents can hold them all. Such a map
is found by iteration: the parent of a node is set to the nearest common ancestor of its
predecessors until nothing changes. The steps of the iteration keep two things: every dominator
is an ancestor, and parents only move up. When nothing changes every ancestor is a dominator. -/

namespace Whale

open Relation

structure FlowGraph (V : Type) where
  entry : V
  Edge : V → V → Prop

namespace FlowGraph

variable {V : Type} (g : FlowGraph V)

/-! ## Walks -/

/-- A walk from the entry; the list has the nodes before the last one, latest first. -/
inductive Walk : List V → V → Prop
  | entry : Walk [] g.entry
  | step {before : List V} {a b : V} : Walk before a → g.Edge a b → Walk (a :: before) b

def Reachable (b : V) : Prop := ∃ before, g.Walk before b

/-- Every walk to `b` passes through `a`. -/
def Dominates (a b : V) : Prop := ∀ before, g.Walk before b → a = b ∨ a ∈ before

variable {g} {a b c d p x y : V}

theorem reachable_entry : g.Reachable g.entry := ⟨[], .entry⟩

theorem Reachable.step (ha : g.Reachable a) (hedge : g.Edge a b) : g.Reachable b := by
  obtain ⟨before, hwalk⟩ := ha
  exact ⟨a :: before, hwalk.step hedge⟩

variable {before : List V}

/-- A node on the way is reached by a part of the walk. -/
theorem Walk.part (h : g.Walk before b) (hc : c ∈ before) :
    ∃ before', g.Walk before' c ∧ before'.length < before.length := by
  induction h with
  | entry => cases hc
  | step hwalk _ ih =>
    rcases List.mem_cons.mp hc with rfl | hc
    · exact ⟨_, hwalk, Nat.lt_succ_self _⟩
    · obtain ⟨before', hwalk', hlt⟩ := ih hc
      exact ⟨before', hwalk', Nat.lt_succ_of_lt hlt⟩

/-- Some walk comes to a node for the first time. -/
theorem Reachable.first (h : g.Reachable b) : ∃ before, g.Walk before b ∧ b ∉ before := by
  obtain ⟨before, hwalk⟩ := h
  induction hn : before.length using Nat.strongRecOn generalizing before with
  | ind n ih =>
    by_cases hb : b ∈ before
    · obtain ⟨before', hwalk', hlt⟩ := hwalk.part hb
      exact ih before'.length (hn ▸ hlt) before' hwalk' rfl
    · exact ⟨before, hwalk, hb⟩

theorem dominates_entry (h : g.Dominates a g.entry) : a = g.entry :=
  (h [] .entry).resolve_right List.not_mem_nil

/-- What dominates a node dominates its predecessors, unless it is the node. -/
theorem Dominates.pred (h : g.Dominates a b) (hne : a ≠ b) (hedge : g.Edge p b) :
    g.Dominates a p := by
  intro before hwalk
  rcases h (p :: before) (hwalk.step hedge) with heq | hmem
  · exact absurd heq hne
  · exact List.mem_cons.mp hmem

/-! ## Numberings -/

/-- The reachable nodes in an order in which each one comes after a predecessor. -/
structure Numbering (g : FlowGraph V) (order : List V) (rank : V → Nat) : Prop where
  ascending : order.Pairwise fun a b => rank a < rank b
  mem_iff : ∀ b, b ∈ order ↔ g.Reachable b
  early : ∀ b ∈ order, b ≠ g.entry → ∃ p ∈ order, g.Edge p b ∧ rank p < rank b

variable {order : List V} {rank : V → Nat}

theorem Numbering.rank_injective (hnum : g.Numbering order rank) (ha : a ∈ order) (hb : b ∈ order)
    (h : rank a = rank b) : a = b := by
  obtain ⟨i, hi, rfl⟩ := List.mem_iff_getElem.mp ha
  obtain ⟨j, hj, rfl⟩ := List.mem_iff_getElem.mp hb
  have hascending := List.pairwise_iff_getElem.mp hnum.ascending
  rcases Nat.lt_trichotomy i j with hij | rfl | hij
  · exact absurd h (Nat.ne_of_lt (hascending i j hi hj hij))
  · rfl
  · exact absurd h.symm (Nat.ne_of_lt (hascending j i hj hi hij))

/-! ## Ancestors -/

/-- `c` is the parent of `b`. -/
def Up (g : FlowGraph V) (T : V → Option V) (b c : V) : Prop := b ≠ g.entry ∧ T b = some c

/-- `a` is `b` or above it. -/
def Anc (g : FlowGraph V) (T : V → Option V) (a b : V) : Prop := ReflTransGen (g.Up T) b a

/-- Parents come first. A node is known if it has a parent; the entry is its own. -/
structure Ranked (g : FlowGraph V) (order : List V) (rank : V → Nat) (T : V → Option V) : Prop where
  root : T g.entry = some g.entry
  mem : ∀ b, (T b).isSome → b ∈ order
  parent_lt : ∀ b c, g.Up T b c → rank c < rank b
  parent_known : ∀ b c, g.Up T b c → (T c).isSome

variable {T : V → Option V}

theorem Anc.refl (a : V) : g.Anc T a a := ReflTransGen.refl

theorem Anc.trans (hab : g.Anc T a b) (hbc : g.Anc T b c) : g.Anc T a c :=
  ReflTransGen.trans hbc hab

theorem Anc.parent (hup : g.Up T b c) (h : g.Anc T a c) : g.Anc T a b := ReflTransGen.head hup h

/-- An ancestor other than the node itself is one of its parent. -/
theorem Anc.up (h : g.Anc T a b) (hne : a ≠ b) : ∃ c, g.Up T b c ∧ g.Anc T a c := by
  rcases ReflTransGen.cases_head h with heq | ⟨c, hup, hanc⟩
  · exact absurd heq.symm hne
  · exact ⟨c, hup, hanc⟩

theorem Anc.rank_lt (hT : g.Ranked order rank T) (h : g.Anc T a b) : a = b ∨ rank a < rank b := by
  induction h using ReflTransGen.head_induction_on with
  | refl => exact Or.inl rfl
  | head hup _ ih =>
    have hlt := hT.parent_lt _ _ hup
    rcases ih with rfl | hrank
    · exact Or.inr hlt
    · exact Or.inr (Nat.lt_trans hrank hlt)

theorem Anc.rank_le (hT : g.Ranked order rank T) (h : g.Anc T a b) : rank a ≤ rank b := by
  rcases h.rank_lt hT with rfl | hlt
  · exact Nat.le_refl _
  · exact Nat.le_of_lt hlt

theorem Anc.known (hT : g.Ranked order rank T) (h : g.Anc T a b) (hb : (T b).isSome) :
    (T a).isSome := by
  induction h using ReflTransGen.head_induction_on with
  | refl => exact hb
  | head hup _ ih => exact ih (hT.parent_known _ _ hup)

/-- The entry is above every known node. -/
theorem Ranked.anc_entry (hT : g.Ranked order rank T) (hb : (T b).isSome) :
    g.Anc T g.entry b := by
  induction hn : rank b using Nat.strongRecOn generalizing b with
  | ind n ih =>
    by_cases hentry : b = g.entry
    · exact hentry ▸ .refl b
    · obtain ⟨c, hc⟩ := Option.isSome_iff_exists.mp hb
      have hup : g.Up T b c := ⟨hentry, hc⟩
      exact .parent hup (ih (rank c) (hn ▸ hT.parent_lt b c hup) (hT.parent_known b c hup) rfl)

/-! ## Nearest common ancestors -/

/-- The nearest common ancestor of a set of nodes. -/
structure IsMeet (g : FlowGraph V) (T : V → Option V) (S : V → Prop) (r : V) : Prop where
  common : ∀ p, S p → g.Anc T r p
  nearest : ∀ x, (∀ p, S p → g.Anc T x p) → g.Anc T x r

theorem isMeet_self (a : V) : g.IsMeet T (fun p => p = a ∨ p = a) a where
  common p hp := by
    rw [or_self_iff.mp hp]
    exact .refl a
  nearest x hx := hx a (Or.inl rfl)

variable {r : V}

/-- Instead of a node its parent, if the other one comes before the node. -/
theorem IsMeet.up (hT : g.Ranked order rank T) (hup : g.Up T a c) (hlt : rank b < rank a)
    (h : g.IsMeet T (fun p => p = c ∨ p = b) r) : g.IsMeet T (fun p => p = a ∨ p = b) r where
  common p hp := by
    rcases hp with rfl | rfl
    · exact .parent hup (h.common c (Or.inl rfl))
    · exact h.common p (Or.inr rfl)
  nearest x hx := by
    have hxb := hx b (Or.inr rfl)
    have hne : x ≠ a := fun heq =>
      absurd (heq ▸ hxb.rank_le hT) (Nat.not_le_of_lt hlt)
    obtain ⟨c', hup', hxc⟩ := (hx a (Or.inl rfl)).up hne
    have heq : c' = c := Option.some_inj.mp (hup'.2.symm.trans hup.2)
    refine h.nearest x fun p hp => ?_
    rcases hp with rfl | rfl
    · exact heq ▸ hxc
    · exact hxb

/-- One node more. -/
theorem IsMeet.add {S : V → Prop} (hS : g.IsMeet T S a) (h : g.IsMeet T (fun q => q = a ∨ q = p) r) :
    g.IsMeet T (fun q => S q ∨ q = p) r where
  common q hq := by
    rcases hq with hq | rfl
    · exact (h.common a (Or.inl rfl)).trans (hS.common q hq)
    · exact h.common q (Or.inr rfl)
  nearest x hx := h.nearest x fun q hq => by
    rcases hq with rfl | rfl
    · exact hS.nearest x fun q hq => hx q (Or.inl hq)
    · exact hx q (Or.inr rfl)

/-- Strict dominators of a node dominate its parent. -/
def Sound (g : FlowGraph V) (T : V → Option V) : Prop :=
  ∀ b c d, g.Up T b c → d ≠ b → g.Dominates d b → g.Dominates d c

/-- Dominators are ancestors. -/
theorem Sound.anc (hsound : g.Sound T) (hT : g.Ranked order rank T) (hb : (T b).isSome)
    (h : g.Dominates d b) : g.Anc T d b := by
  induction hn : rank b using Nat.strongRecOn generalizing b with
  | ind n ih =>
    by_cases hdb : d = b
    · exact hdb ▸ .refl d
    · by_cases hentry : b = g.entry
      · exact absurd (hentry ▸ dominates_entry (hentry ▸ h)) hdb
      · obtain ⟨c, hc⟩ := Option.isSome_iff_exists.mp hb
        have hup : g.Up T b c := ⟨hentry, hc⟩
        exact .parent hup (ih (rank c) (hn ▸ hT.parent_lt b c hup) (hT.parent_known b c hup)
          (hsound b c d hup hdb h) rfl)

/-- A dominator dominates the ancestors below it. -/
theorem Sound.between (hsound : g.Sound T) (hT : g.Ranked order rank T) (hx : g.Anc T x p)
    (hd : g.Anc T d x) (h : g.Dominates d p) : g.Dominates d x := by
  induction hx using ReflTransGen.head_induction_on with
  | refl => exact h
  | head hup hrest ih =>
    refine ih (hsound _ _ d hup (fun heq => ?_) h)
    have hle : rank d ≤ rank x := hd.rank_le hT
    have hle' : rank x ≤ _ := Anc.rank_le hT hrest
    have hlt := hT.parent_lt _ _ hup
    rw [heq] at hle
    exact absurd (Nat.le_trans hle hle') (Nat.not_le_of_lt hlt)

/-! ## Setting a parent -/

section

variable [DecidableEq V]

theorem up_update_ne (hne : y ≠ b) : g.Up (Function.update T b (some r)) y c ↔ g.Up T y c := by
  rw [Up, Up, Function.update_of_ne hne]

theorem up_update_self (hb : b ≠ g.entry) : g.Up (Function.update T b (some r)) b c ↔ c = r := by
  rw [Up, Function.update_self, Option.some_inj]
  exact ⟨fun h => h.2.symm, fun h => ⟨hb, h.symm⟩⟩

/-- Earlier nodes keep their ancestors. -/
theorem anc_update_iff (hT : g.Ranked order rank T) (hlt : rank y < rank b) :
    g.Anc (Function.update T b (some r)) x y ↔ g.Anc T x y := by
  constructor
  · intro h
    induction h using ReflTransGen.head_induction_on with
    | refl => exact .refl _
    | head hup hrest ih =>
      rename_i y y'
      have hup' := (up_update_ne fun heq => Nat.lt_irrefl _ (heq ▸ hlt)).mp hup
      exact .parent hup' (ih (Nat.lt_trans (hT.parent_lt _ _ hup') hlt))
  · intro h
    induction h using ReflTransGen.head_induction_on with
    | refl => exact .refl _
    | head hup _ ih =>
      have hup' := (up_update_ne (r := r) fun heq => Nat.lt_irrefl _ (heq ▸ hlt)).mpr hup
      exact .parent hup' (ih (Nat.lt_trans (hT.parent_lt _ _ hup) hlt))

theorem Ranked.update (hT : g.Ranked order rank T) (hb : b ∈ order) (hentry : b ≠ g.entry)
    (hlt : rank r < rank b) (hr : (T r).isSome) :
    g.Ranked order rank (Function.update T b (some r)) where
  root := by
    rw [Function.update_of_ne hentry.symm]
    exact hT.root
  mem y hy := by
    by_cases hyb : y = b
    · exact hyb ▸ hb
    · rw [Function.update_of_ne hyb] at hy
      exact hT.mem y hy
  parent_lt y c hup := by
    by_cases hyb : y = b
    · subst hyb
      rw [(up_update_self hentry).mp hup]
      exact hlt
    · exact hT.parent_lt y c ((up_update_ne hyb).mp hup)
  parent_known y c hup := by
    by_cases hcb : c = b
    · rw [hcb, Function.update_self]
      rfl
    · rw [Function.update_of_ne hcb]
      by_cases hyb : y = b
      · subst hyb
        rw [(up_update_self hentry).mp hup]
        exact hr
      · exact hT.parent_known y c ((up_update_ne hyb).mp hup)

/-- Setting a parent to a nearest common ancestor of predecessors is sound. -/
theorem Sound.update {S : V → Prop} (hsound : g.Sound T) (hT : g.Ranked order rank T)
    (hentry : b ≠ g.entry) (hS : ∀ p, S p → g.Edge p b ∧ (T p).isSome) (hp : S p)
    (hr : g.IsMeet T S r) : g.Sound (Function.update T b (some r)) := by
  intro y c d hup hne h
  by_cases hyb : y = b
  · subst hyb
    rw [(up_update_self hentry).mp hup]
    have hanc : g.Anc T d r := hr.nearest d fun q hq =>
      hsound.anc hT (hS q hq).2 (h.pred hne (hS q hq).1)
    exact hsound.between hT (hr.common p hp) hanc (h.pred hne (hS p hp).1)
  · exact hsound y c d ((up_update_ne hyb).mp hup) hne h

end

/-! ## The first sweep -/

/-- The parent `c` of `b` is above every earlier predecessor. -/
def Forward (g : FlowGraph V) (order : List V) (rank : V → Nat) (T : V → Option V) (b c : V) :
    Prop :=
  ∀ p ∈ order, g.Edge p b → rank p < rank b → g.Anc T c p

/-- Common ancestors of the predecessors of `b` are ancestors of its parent `c`. -/
def Tight (g : FlowGraph V) (order : List V) (T : V → Option V) (b c : V) : Prop :=
  ∀ x, (∀ p ∈ order, g.Edge p b → g.Anc T x p) → g.Anc T x c

/-- The first sweep after the nodes `before`, of which later predecessors are not known yet. -/
structure Begun (g : FlowGraph V) (order : List V) (rank : V → Nat) (before : List V)
    (T : V → Option V) : Prop where
  ranked : g.Ranked order rank T
  known : ∀ b, (T b).isSome ↔ b ∈ before
  sound : g.Sound T
  forward : ∀ b c, g.Up T b c → g.Forward order rank T b c
  tight : ∀ b c, g.Up T b c → ∀ x,
    (∀ p ∈ order, g.Edge p b → rank p < rank b → g.Anc T x p) → g.Anc T x c

/-- Every reachable node has a parent. -/
structure Complete (g : FlowGraph V) (order : List V) (rank : V → Nat) (T : V → Option V) :
    Prop where
  ranked : g.Ranked order rank T
  known : ∀ b ∈ order, (T b).isSome
  sound : g.Sound T
  forward : ∀ b c, g.Up T b c → g.Forward order rank T b c
  tight : ∀ b c, g.Up T b c → g.Tight order T b c

theorem Begun.complete (h : g.Begun order rank order T) : g.Complete order rank T where
  ranked := h.ranked
  known b hb := (h.known b).mpr hb
  sound := h.sound
  forward := h.forward
  tight b c hup x hx := h.tight b c hup x fun p hp hedge _ => hx p hp hedge

variable {after : List V}

/-- The nodes before `b` are those of a smaller rank. -/
theorem Numbering.mem_before_iff (hnum : g.Numbering order rank)
    (horder : order = before ++ b :: after) (hp : p ∈ order) : p ∈ before ↔ rank p < rank b := by
  have hascending := hnum.ascending
  rw [horder, List.pairwise_append, List.pairwise_cons] at hascending
  obtain ⟨_, ⟨hafter, _⟩, hcross⟩ := hascending
  refine ⟨fun hmem => hcross p hmem b List.mem_cons_self, fun hlt => ?_⟩
  rw [horder] at hp
  rcases List.mem_append.mp hp with hmem | hmem
  · exact hmem
  · rcases List.mem_cons.mp hmem with rfl | hmem
    · exact absurd hlt (Nat.lt_irrefl _)
    · exact absurd (Nat.lt_trans hlt (hafter p hmem)) (Nat.lt_irrefl _)

theorem begun_entry [DecidableEq V] (hentry : g.entry ∈ order) :
    g.Begun order rank [g.entry] (Function.update (fun _ => none) g.entry (some g.entry)) := by
  have hup : ∀ b c, ¬ g.Up (Function.update (fun _ => none) g.entry (some g.entry)) b c := by
    rintro b c ⟨hne, hb⟩
    rw [Function.update_of_ne hne] at hb
    cases hb
  have hknown : ∀ b,
      (Function.update (fun _ => (none : Option V)) g.entry (some g.entry) b).isSome ↔
      b ∈ [g.entry] := by
    intro b
    rw [List.mem_singleton]
    by_cases hb : b = g.entry
    · subst hb
      simp
    · simp [hb]
  refine ⟨⟨Function.update_self .., fun b hb => ?_, fun b c h => absurd h (hup b c),
    fun b c h => absurd h (hup b c)⟩, hknown, fun b c _ h => absurd h (hup b c),
    fun b c h => absurd h (hup b c), fun b c h => absurd h (hup b c)⟩
  rw [List.mem_singleton.mp ((hknown b).mp hb)]
  exact hentry

/-- The predecessors of `b` that are known. -/
def KnownPred (g : FlowGraph V) (T : V → Option V) (b p : V) : Prop := g.Edge p b ∧ (T p).isSome

theorem Begun.step [DecidableEq V] (hnum : g.Numbering order rank) (h : g.Begun order rank before T)
    (horder : order = before ++ b :: after) (hentry : b ≠ g.entry)
    (hr : g.IsMeet T (g.KnownPred T b) r) :
    g.Begun order rank (before ++ [b]) (Function.update T b (some r)) := by
  have hb : b ∈ order := horder ▸ List.mem_append_right _ List.mem_cons_self
  have hbefore : ∀ p ∈ order, rank p < rank b → p ∈ before := fun p hp hlt =>
    (hnum.mem_before_iff horder hp).mpr hlt
  obtain ⟨p, hp, hedge, hlt⟩ := hnum.early b hb hentry
  have hpknown : g.KnownPred T b p := ⟨hedge, (h.known p).mpr (hbefore p hp hlt)⟩
  have hrank : rank r < rank b :=
    Nat.lt_of_le_of_lt ((hr.common p hpknown).rank_le h.ranked) hlt
  have hunknown : ∀ y, (T y).isSome → rank y < rank b := fun y hy =>
    (hnum.mem_before_iff horder (h.ranked.mem y hy)).mp ((h.known y).mp hy)
  have hearlier : ∀ x y, rank y < rank b →
      (g.Anc (Function.update T b (some r)) x y ↔ g.Anc T x y) := fun _ _ hy =>
    anc_update_iff h.ranked hy
  refine ⟨h.ranked.update hb hentry hrank ((hr.common p hpknown).known h.ranked hpknown.2), ?_,
    h.sound.update h.ranked hentry (fun _ hq => hq) hpknown hr, ?_, ?_⟩
  · intro y
    rw [List.mem_append, List.mem_singleton, ← h.known y]
    by_cases hyb : y = b
    · subst hyb
      simp
    · simp [hyb]
  · intro y c hup q hq hqedge hqlt
    by_cases hyb : y = b
    · subst hyb
      rw [(up_update_self hentry).mp hup, hearlier _ _ hqlt]
      exact hr.common q ⟨hqedge, (h.known q).mpr (hbefore q hq hqlt)⟩
    · rw [up_update_ne hyb] at hup
      have hylt := hunknown y (by rw [hup.2]; rfl)
      rw [hearlier _ _ (Nat.lt_trans hqlt hylt)]
      exact h.forward y c hup q hq hqedge hqlt
  · intro y c hup x hx
    by_cases hyb : y = b
    · subst hyb
      rw [(up_update_self hentry).mp hup, hearlier _ _ hrank]
      refine hr.nearest x fun q hq => ?_
      have hqlt := hunknown q hq.2
      exact (hearlier _ _ hqlt).mp (hx q (h.ranked.mem q hq.2) hq.1 hqlt)
    · rw [up_update_ne hyb] at hup
      have hylt := hunknown y (by rw [hup.2]; rfl)
      rw [hearlier _ _ (Nat.lt_trans (h.ranked.parent_lt y c hup) hylt)]
      refine h.tight y c hup x fun q hq hqedge hqlt => ?_
      exact (hearlier _ _ (Nat.lt_trans hqlt hylt)).mp (hx q hq hqedge hqlt)

/-! ## Later sweeps -/

/-- A later sweep after the nodes `before`, from the parents `O` to `T`. -/
structure Sweeping (g : FlowGraph V) (order : List V) (rank : V → Nat) (before : List V)
    (O T : V → Option V) : Prop where
  ranked : g.Ranked order rank T
  known : ∀ b ∈ order, (T b).isSome
  sound : g.Sound T
  unchanged : ∀ b ∈ order, b ∉ before → T b = O b
  shrinks : ∀ x y, g.Anc T x y → g.Anc O x y
  forward : ∀ b ∈ before, ∀ c, g.Up T b c → g.Forward order rank T b c
  tight : ∀ b ∈ before, ∀ c, g.Up T b c → g.Tight order T b c

variable {O : V → Option V}

theorem Complete.sweeping (h : g.Complete order rank T) :
    g.Sweeping order rank [g.entry] T T where
  ranked := h.ranked
  known := h.known
  sound := h.sound
  unchanged _ _ _ := rfl
  shrinks _ _ hanc := hanc
  forward _ _ := h.forward _
  tight _ _ := h.tight _

theorem Sweeping.complete (h : g.Sweeping order rank order O T) : g.Complete order rank T where
  ranked := h.ranked
  known := h.known
  sound := h.sound
  forward b c hup := h.forward b (h.ranked.mem b (by rw [hup.2]; rfl)) c hup
  tight b c hup := h.tight b (h.ranked.mem b (by rw [hup.2]; rfl)) c hup

/-- What was an ancestor of `u` and is one of a node that `u` was above is one of `u` still:
follow earlier predecessors from the node to `u`. -/
theorem Sweeping.keeps {u : V} (hnum : g.Numbering order rank) (hO : g.Complete order rank O)
    (h : g.Sweeping order rank before O T)
    (hclosed : ∀ q ∈ order, ∀ p ∈ before, rank q < rank p → q ∈ before) (hp : p ∈ before)
    (hporder : p ∈ order) (hu : g.Anc O u p) (hx : g.Anc T x p) (hxu : g.Anc O x u) :
    g.Anc T x u := by
  induction hn : rank p using Nat.strongRecOn generalizing p with
  | ind n ih =>
    by_cases hup : u = p
    · exact hup ▸ hx
    · obtain ⟨c, hc, huc⟩ := hu.up hup
      obtain ⟨q, hq, hedge, hlt⟩ := hnum.early p hporder hc.1
      have hxp : x ≠ p := by
        intro heq
        have hle := hxu.rank_le hO.ranked
        rcases hu.rank_lt hO.ranked with heq' | hrank
        · exact hup heq'
        · exact absurd (heq ▸ hle) (Nat.not_le_of_lt hrank)
      obtain ⟨c', hc', hxc⟩ := hx.up hxp
      exact ih (rank q) (hn ▸ hlt) (hclosed q hq p hp hlt) hq
        (huc.trans (hO.forward p c hc q hq hedge hlt))
        (hxc.trans (h.forward p hp c' hc' q hq hedge hlt)) rfl

theorem Sweeping.moves_up (hnum : g.Numbering order rank) (hO : g.Complete order rank O)
    (h : g.Sweeping order rank before O T) (horder : order = before ++ b :: after)
    (hentry : b ≠ g.entry) (hr : g.IsMeet T (g.KnownPred T b) r) (hc : g.Up T b c) :
    g.Anc T r c := by
  have hb : b ∈ order := horder ▸ List.mem_append_right _ List.mem_cons_self
  obtain ⟨p, hp, hedge, hlt⟩ := hnum.early b hb hentry
  have hpbefore := (hnum.mem_before_iff horder hp).mpr hlt
  have hnotMem : b ∉ before := fun hmem =>
    Nat.lt_irrefl _ ((hnum.mem_before_iff horder hb).mp hmem)
  have hc' : g.Up O b c := ⟨hentry, (h.unchanged b hb hnotMem) ▸ hc.2⟩
  refine h.keeps hnum hO (fun q hq q' hq' hqlt => ?_) hpbefore hp
    (hO.forward b c hc' p hp hedge hlt) (hr.common p ⟨hedge, h.known p hp⟩) ?_
  · have hq'order : q' ∈ order := horder ▸ List.mem_append_left _ hq'
    exact (hnum.mem_before_iff horder hq).mpr
      (Nat.lt_trans hqlt ((hnum.mem_before_iff horder hq'order).mp hq'))
  · exact hO.tight b c hc' r fun q hq hqedge =>
      h.shrinks r q (hr.common q ⟨hqedge, h.known q hq⟩)

theorem Sweeping.step [DecidableEq V] (hnum : g.Numbering order rank) (hO : g.Complete order rank O)
    (h : g.Sweeping order rank before O T) (horder : order = before ++ b :: after)
    (hentry : b ≠ g.entry) (hr : g.IsMeet T (g.KnownPred T b) r) :
    g.Sweeping order rank (before ++ [b]) O (Function.update T b (some r)) := by
  have hb : b ∈ order := horder ▸ List.mem_append_right _ List.mem_cons_self
  obtain ⟨p, hp, hedge, hlt⟩ := hnum.early b hb hentry
  have hpknown : g.KnownPred T b p := ⟨hedge, h.known p hp⟩
  have hrank : rank r < rank b :=
    Nat.lt_of_le_of_lt ((hr.common p hpknown).rank_le h.ranked) hlt
  have hearlier : ∀ x y, rank y < rank b →
      (g.Anc (Function.update T b (some r)) x y ↔ g.Anc T x y) := fun _ _ hy =>
    anc_update_iff h.ranked hy
  -- Every step to a new parent is a way up along the old ones.
  have hshrinks : ∀ x y, g.Anc (Function.update T b (some r)) x y → g.Anc T x y := by
    intro x y hanc
    induction hanc using ReflTransGen.head_induction_on with
    | refl => exact .refl _
    | head hup hrest ih =>
      rename_i y c
      by_cases hyb : y = b
      · subst hyb
        rw [(up_update_self hentry).mp hup] at ih
        obtain ⟨c', hc'⟩ := Option.isSome_iff_exists.mp (h.known y hb)
        have hup' : g.Up T y c' := ⟨hentry, hc'⟩
        exact .parent hup' (ih.trans (h.moves_up hnum hO horder hentry hr hup'))
      · exact .parent ((up_update_ne hyb).mp hup) ih
  have hbefore : ∀ y ∈ before ++ [b], y ≠ b → y ∈ before ∧ rank y < rank b := by
    intro y hy hne
    have hmem := (List.mem_append.mp hy).resolve_right fun hlast =>
      hne (List.mem_singleton.mp hlast)
    have hyorder : y ∈ order := horder ▸ List.mem_append_left _ hmem
    exact ⟨hmem, (hnum.mem_before_iff horder hyorder).mp hmem⟩
  refine ⟨h.ranked.update hb hentry hrank ((hr.common p hpknown).known h.ranked hpknown.2), ?_,
    h.sound.update h.ranked hentry (fun _ hq => hq) hpknown hr, ?_,
    fun x y hanc => h.shrinks x y (hshrinks x y hanc), ?_, ?_⟩
  · intro y hy
    by_cases hyb : y = b
    · rw [hyb, Function.update_self]
      rfl
    · rw [Function.update_of_ne hyb]
      exact h.known y hy
  · intro y hy hnotMem
    rw [List.mem_append, not_or, List.mem_singleton] at hnotMem
    rw [Function.update_of_ne hnotMem.2]
    exact h.unchanged y hy hnotMem.1
  · intro y hy c hup q hq hqedge hqlt
    by_cases hyb : y = b
    · subst hyb
      rw [(up_update_self hentry).mp hup, hearlier _ _ hqlt]
      exact hr.common q ⟨hqedge, h.known q hq⟩
    · obtain ⟨hmem, hylt⟩ := hbefore y hy hyb
      rw [hearlier _ _ (Nat.lt_trans hqlt hylt)]
      exact h.forward y hmem c ((up_update_ne hyb).mp hup) q hq hqedge hqlt
  · intro y hy c hup x hx
    by_cases hyb : y = b
    · subst hyb
      rw [(up_update_self hentry).mp hup, hearlier _ _ hrank]
      exact hr.nearest x fun q hq => hshrinks x q (hx q (h.ranked.mem q hq.2) hq.1)
    · obtain ⟨hmem, hylt⟩ := hbefore y hy hyb
      rw [up_update_ne hyb] at hup
      rw [hearlier _ _ (Nat.lt_trans (h.ranked.parent_lt y c hup) hylt)]
      exact h.tight y hmem c hup x fun q hq hqedge => hshrinks x q (hx q hq hqedge)

/-! ## The fixpoint -/

/-- When parents are common ancestors of all predecessors, ancestors are dominators. -/
theorem Complete.anc_iff_dominates (h : g.Complete order rank T)
    (hfix : ∀ b c, g.Up T b c → ∀ p ∈ order, g.Edge p b → g.Anc T c p)
    (hnum : g.Numbering order rank) (hb : b ∈ order) :
    g.Anc T a b ↔ g.Dominates a b := by
  refine ⟨fun hanc before hwalk => ?_, h.sound.anc h.ranked (h.known b hb)⟩
  clear hb
  induction hwalk generalizing a with
  | entry =>
    by_cases hentry : a = g.entry
    · exact Or.inl hentry
    · obtain ⟨c, hup, _⟩ := hanc.up hentry
      exact absurd rfl hup.1
  | step hwalk hedge ih =>
    rename_i before p b
    by_cases hab : a = b
    · exact Or.inl hab
    · obtain ⟨c, hup, hac⟩ := hanc.up hab
      have hp : p ∈ order := (hnum.mem_iff p).mpr ⟨before, hwalk⟩
      exact Or.inr (List.mem_cons.mpr (ih (hac.trans (hfix b c hup p hp hedge))))

end FlowGraph

end Whale
