import Whale.Verifier.ConstantsSpec

set_option autoImplicit false

/-! # The check of a table is right

The loop keeps to the invariant of the worklist: the values of the completed definitions are the
stored ones, so each evaluation sees what it would see if all were completed. -/

namespace Whale

namespace Constants

open Relation

section

variable {scope : String} {definitions : List Definition} {values globals : Values}
  {limits : IrLimits}

/-- The definitions as a graph. -/
def graph (hu : (definitions.map Definition.id).Nodup) (values globals : Values) :
    Agenda.Graph where
  n := definitions.length
  deps := depsOf definitions values globals
  users j := (List.range definitions.length).filter fun k => j ∈ depsOf definitions values globals k
  deps_lt := by
    intro k _ j hj
    obtain ⟨_, _, _, hget, _⟩ := (mem_depsOf hu).mp hj
    exact (List.getElem?_eq_some_iff.mp hget).1
  deps_nodup k _ := nodup_depsOf hu k
  users_nodup _ _ := List.nodup_range.filter _
  mem_users := by simp

variable {hu : (definitions.map Definition.id).Nodup}

theorem initial_valid :
    Agenda.Valid (graph hu values globals) []
      (linksUpTo definitions.length (depsOf definitions values globals)
        definitions.length).agenda where
  done_lt _ hi := absurd hi List.not_mem_nil
  done_nodup := List.nodup_nil
  ordered before i after hsplit := by
    cases before <;> cases hsplit
  remaining i hi := by
    have hi' : i < definitions.length := hi
    simp [linksUpTo, graph, hi']
  ready i := by
    simp only [linksUpTo, graph, List.mem_filter, List.mem_range, decide_eq_true_eq]
    rw [List.eq_nil_iff_forall_not_mem]
    simp
  ready_nodup := List.nodup_range.filter _

/-! ## Cycles -/

variable {i : Nat} {d : Definition}

/-- Definitions with one identity are the same. -/
theorem index_unique (hu : (definitions.map Definition.id).Nodup) {i j : Nat} {d d' : Definition}
    (hi : definitions[i]? = some d) (hj : definitions[j]? = some d') (hid : d.id = d'.id) :
    i = j ∧ d = d' := by
  have hij : i = j := by
    obtain ⟨hilt, hieq⟩ := List.getElem?_eq_some_iff.mp hi
    obtain ⟨hjlt, hjeq⟩ := List.getElem?_eq_some_iff.mp hj
    rw [← List.length_map Definition.id] at hilt hjlt
    have heq : (definitions.map Definition.id)[i] = (definitions.map Definition.id)[j] := by
      rw [List.getElem_map, List.getElem_map, hieq, hjeq, hid]
    exact hu.getElem_inj_iff.mp heq
  subst hij
  rw [hi] at hj
  exact ⟨rfl, Option.some_inj.mp hj⟩

/-- A definition waits for the definitions it refers to. -/
theorem waits_iff (hfresh : ∀ d ∈ definitions, lookup values globals d.id = none) {i j : Nat}
    {d d' : Definition} (hi : definitions[i]? = some d) (hj : definitions[j]? = some d') :
    (graph hu values globals).Waits i j ↔ d'.id ∈ d.expression.references := by
  have hlt : i < definitions.length := (List.getElem?_eq_some_iff.mp hi).1
  show i < definitions.length ∧ j ∈ depsOf definitions values globals i ↔ _
  rw [mem_depsOf hu]
  constructor
  · rintro ⟨_, e, e', he, he', hmem⟩
    rw [hi] at he
    rw [hj] at he'
    cases he
    cases he'
    exact (mem_waiting.mp hmem).1
  · intro hmem
    have hnone := hfresh d' (List.mem_of_getElem? hj)
    exact ⟨hlt, d, d', hi, hj, mem_waiting.mpr ⟨hmem, List.not_mem_nil, hnone⟩⟩

theorem transGen_waits (hfresh : ∀ d ∈ definitions, lookup values globals d.id = none)
    {a b : ConstRef} (h : TransGen (DependsOn definitions) a b) :
    ∀ (i j : Nat) (d d' : Definition), definitions[i]? = some d → definitions[j]? = some d' →
      d.id = a → d'.id = b → TransGen (graph hu values globals).Waits i j := by
  have hwaits : ∀ (i j : Nat) (d d' : Definition), definitions[i]? = some d →
      definitions[j]? = some d' → DependsOn definitions d.id d'.id →
      (graph hu values globals).Waits i j := by
    rintro i j d d' hi hj ⟨e, he, hid, hmem⟩
    obtain ⟨k, hk⟩ := List.getElem?_of_mem he
    obtain ⟨rfl, rfl⟩ := index_unique hu hk hi hid
    exact (waits_iff hfresh hi hj).mpr hmem
  induction h using TransGen.head_induction_on with
  | single hdep =>
    rintro i j d d' hi hj rfl rfl
    exact .single (hwaits i j d d' hi hj hdep)
  | head hdep hrest ih =>
    rintro i j d d' hi hj rfl rfl
    obtain ⟨c, ⟨e, he, rfl, _⟩, _⟩ := TransGen.head'_iff.mp hrest
    obtain ⟨k, hk⟩ := List.getElem?_of_mem he
    exact .head (hwaits i k d e hi hk hdep) (ih k j e d' hk hj rfl rfl)

theorem transGen_dependsOn (hfresh : ∀ d ∈ definitions, lookup values globals d.id = none)
    {i j : Nat} (h : TransGen (graph hu values globals).Waits i j) :
    ∃ d d', definitions[i]? = some d ∧ definitions[j]? = some d' ∧
      TransGen (DependsOn definitions) d.id d'.id := by
  have hstep : ∀ k l, (graph hu values globals).Waits k l → ∃ d d', definitions[k]? = some d ∧
      definitions[l]? = some d' ∧ DependsOn definitions d.id d'.id := by
    intro k l hwaits
    obtain ⟨d, d', hk, hl, _⟩ := (mem_depsOf hu).mp hwaits.2
    exact ⟨d, d', hk, hl, d, List.mem_of_getElem? hk, rfl, (waits_iff hfresh hk hl).mp hwaits⟩
  induction h with
  | single hwaits =>
    obtain ⟨d, d', hd, hd', hdep⟩ := hstep _ _ hwaits
    exact ⟨d, d', hd, hd', .single hdep⟩
  | tail _ hwaits ih =>
    obtain ⟨d, c, hd, hc, htrans⟩ := ih
    obtain ⟨c', d', hc', hd', hdep⟩ := hstep _ _ hwaits
    rw [hc] at hc'
    cases hc'
    exact ⟨d, d', hd, hd', htrans.tail hdep⟩

/-- The graph has a cycle exactly if a constant depends on itself. -/
theorem cycle_iff (hu : (definitions.map Definition.id).Nodup)
    (hfresh : ∀ d ∈ definitions, lookup values globals d.id = none) :
    (∀ i, ¬ TransGen (graph hu values globals).Waits i i) ↔
      ∀ r, ¬ TransGen (DependsOn definitions) r r := by
  constructor
  · intro h r hcycle
    obtain ⟨_, ⟨d, hd, rfl, _⟩, _⟩ := TransGen.head'_iff.mp hcycle
    obtain ⟨i, hi⟩ := List.getElem?_of_mem hd
    exact h i (transGen_waits hfresh hcycle i i d d hi hi rfl rfl)
  · intro h i hcycle
    obtain ⟨d, d', hd, hd', hdep⟩ := transGen_dependsOn hfresh hcycle
    rw [hd] at hd'
    cases hd'
    exact h d.id hdep

/-! ## The loop -/

/-- The expression of `d` evaluates to its stored result when all results are the stored ones. -/
def Right (definitions : List Definition) (values globals : Values) (limits : IrLimits)
    (d : Definition) : Prop :=
  d.expression.evaluateWithLimits (stored definitions values globals) limits = .ok d.result

/-- The loop after it completed the definitions `done`. -/
structure Reached (hu : (definitions.map Definition.id).Nodup) (values globals : Values)
    (limits : IrLimits) (done : List Nat) (p : Progress) : Prop where
  valid : Agenda.Valid (graph hu values globals) done p.agenda
  known : ∀ i ∈ done, ∀ d, definitions[i]? = some d → p.values.get d.id = some (d.ty, d.result)
  kept : ∀ r, (∀ i ∈ done, ∀ d, definitions[i]? = some d → d.id ≠ r) →
    p.values.get r = values.get r
  completed : p.completed = (List.range definitions.length).map fun k => decide (k ∈ done)
  right : ∀ i ∈ done, ∀ d, definitions[i]? = some d → Right definitions values globals limits d

variable {done : List Nat} {p : Progress}

/-- A ready definition sees the stored results. -/
theorem Reached.resolve (h : Reached hu values globals limits done p)
    (hfresh : ∀ d ∈ definitions, lookup values globals d.id = none) (hi : definitions[i]? = some d)
    (hready : i ∈ p.agenda.ready) {r : ConstRef} (hr : r ∈ d.expression.references) :
    lookup p.values globals r = stored definitions values globals r := by
  by_cases hdef : ∃ d' ∈ definitions, d'.id = r
  · obtain ⟨d', hd', rfl⟩ := hdef
    obtain ⟨j, hj⟩ := List.getElem?_of_mem hd'
    have hdone := ((h.valid.ready i).mp hready).2.2 j ((waits_iff hfresh hi hj).mpr hr).2
    rw [stored_of_mem hu hd', lookup, h.known j hdone d' hj, Option.some_or]
  · have hne : ∀ d' ∈ definitions, d'.id ≠ r := fun d' hd' heq => hdef ⟨d', hd', heq⟩
    rw [stored_of_not_mem hne, lookup, lookup,
      h.kept r fun j _ d' hj => hne d' (List.mem_of_getElem? hj)]

/-- The progress after completing definition `i`. -/
def Progress.complete (users : List (List Nat)) (i : Nat) (d : Definition) (p : Progress) :
    Progress where
  values := p.values.insert d.id (d.ty, d.result)
  agenda := (users.getD i []).foldl Agenda.release p.agenda
  completed := p.completed.set i true

theorem Reached.complete (h : Reached hu values globals limits done p) {ready : List Nat}
    (hi : definitions[i]? = some d) (hready : p.agenda.ready = i :: ready)
    (hright : Right definitions values globals limits d) :
    Reached hu values globals limits (done ++ [i])
      (Progress.complete (linksUpTo definitions.length (depsOf definitions values globals)
        definitions.length).users i d { p with agenda := { p.agenda with ready := ready } }) where
  valid := by
    have hlt : i < definitions.length := (List.getElem?_eq_some_iff.mp hi).1
    have husers : (linksUpTo definitions.length (depsOf definitions values globals)
        definitions.length).users.getD i [] = (graph hu values globals).users i := by
      simp [linksUpTo, graph, List.getD, hlt]
    show Agenda.Valid _ _ (List.foldl _ _ _)
    rw [husers]
    exact h.valid.complete hready
  known j hj e he := by
    show (p.values.insert d.id (d.ty, d.result)).get e.id = _
    rcases List.mem_append.mp hj with hdone | hlast
    · have hne : e.id ≠ d.id := by
        intro heq
        obtain ⟨rfl, _⟩ := index_unique hu he hi heq
        have hmem : j ∈ p.agenda.ready := hready ▸ List.mem_cons_self
        exact ((h.valid.ready j).mp hmem).2.1 hdone
      rw [AssocMap.get_insert_ne hne]
      exact h.known j hdone e he
    · rw [List.mem_singleton.mp hlast, hi] at he
      cases he
      exact AssocMap.get_insert_self ..
  kept r hr := by
    show (p.values.insert d.id (d.ty, d.result)).get r = _
    have hne : r ≠ d.id := fun heq =>
      hr i (List.mem_append_right _ (List.mem_singleton_self i)) d hi heq.symm
    rw [AssocMap.get_insert_ne hne]
    exact h.kept r fun j hj => hr j (List.mem_append_left _ hj)
  completed := by
    show p.completed.set i true = _
    rw [h.completed]
    refine List.ext_getElem? fun k => ?_
    rw [List.getElem?_set, List.getElem?_map, List.getElem?_map]
    have hlt : i < definitions.length := (List.getElem?_eq_some_iff.mp hi).1
    by_cases hk : i = k
    · subst hk
      simp [hlt]
    · by_cases hkn : k < definitions.length <;> simp [hkn, hk, Ne.symm hk]
  right j hj e he := by
    rcases List.mem_append.mp hj with hj | hj
    · exact h.right j hj e he
    · rw [List.mem_singleton.mp hj, hi] at he
      cases he
      exact hright

/-- A ready definition completes exactly if it is right. -/
theorem Reached.completeDefinition (h : Reached hu values globals limits done p)
    (hfresh : ∀ d ∈ definitions, lookup values globals d.id = none) {ready : List Nat}
    (hi : definitions[i]? = some d) (hready : p.agenda.ready = i :: ready) (scope : String)
    (users : List (List Nat)) : let p' := { p with agenda := { p.agenda with ready := ready } }
    (Right definitions values globals limits d →
      completeDefinition scope globals limits users i d p' = .ok (p'.complete users i d)) ∧
    (¬ Right definitions values globals limits d →
      ∃ e, completeDefinition scope globals limits users i d p' = .error e) := by
  intro p'
  -- What a ready definition sees is stored already.
  have hsees : d.expression.evaluateWithLimits (lookup p.values globals) limits =
      d.expression.evaluateWithLimits (stored definitions values globals) limits :=
    ConstExpr.evaluateWithLimits_congr limits fun r hr =>
      h.resolve hfresh hi (hready ▸ List.mem_cons_self) hr
  have hunfold : Constants.completeDefinition scope globals limits users i d p' =
      ((d.expression.evaluateWithLimits (stored definitions values globals) limits).mapError
        (invalid scope d.id) >>= fun result => do
          require (sameValue result d.result = true) (invalid scope d.id .resultMismatch)
          return ⟨p'.values.insert d.id (d.ty, result),
            (users.getD i []).foldl Agenda.release p'.agenda, p'.completed.set i true⟩) := by
    rw [← hsees]
    rfl
  rw [hunfold]
  constructor
  · intro hright
    rw [Right] at hright
    rw [hright]
    simp only [Except.mapError, ok_bind]
    rw [require_of (sameValue_iff.mpr rfl)]
    rfl
  · intro hwrong
    rw [Right] at hwrong
    cases heval : d.expression.evaluateWithLimits (stored definitions values globals) limits with
    | error e => exact ⟨_, rfl⟩
    | ok result =>
      have hne : ¬ sameValue result d.result = true := by
        intro hsame
        rw [sameValue_iff] at hsame
        exact hwrong (hsame ▸ heval)
      refine ⟨invalid scope d.id .resultMismatch, ?_⟩
      simp only [Except.mapError, ok_bind]
      rw [require_of_not hne]
      rfl

/-- With one iteration for each definition left the loop ends: at a wrong result, or with an
empty queue. -/
theorem Reached.drain (hfresh : ∀ d ∈ definitions, lookup values globals d.id = none)
    (scope : String) {fuel : Nat} (h : Reached hu values globals limits done p)
    (hfuel : definitions.length ≤ fuel + done.length) :
    let users := (linksUpTo definitions.length (depsOf definitions values globals)
      definitions.length).users
    (∃ e, drain scope definitions globals limits users fuel p = some (.error e) ∧
      ∃ d ∈ definitions, ¬ Right definitions values globals limits d) ∨
    ∃ done' p', drain scope definitions globals limits users fuel p = some (.ok p') ∧
      Reached hu values globals limits done' p' ∧ p'.agenda.ready = [] := by
  intro users
  induction fuel generalizing done p with
  | zero =>
    unfold Constants.drain
    cases hready : p.agenda.ready with
    | nil => exact Or.inr ⟨done, p, rfl, h, hready⟩
    | cons i ready =>
      have hle := (h.valid.complete hready).length_le
      rw [List.length_append, List.length_singleton] at hle
      change _ ≤ definitions.length at hle
      omega
  | succ fuel ih =>
    unfold Constants.drain
    cases hready : p.agenda.ready with
    | nil => exact Or.inr ⟨done, p, rfl, h, hready⟩
    | cons i ready =>
      have hmem : i ∈ p.agenda.ready := hready ▸ List.mem_cons_self
      obtain ⟨d, hi⟩ : ∃ d, definitions[i]? = some d :=
        ⟨_, List.getElem?_eq_getElem ((h.valid.ready i).mp hmem).1⟩
      obtain ⟨hok, herror⟩ := h.completeDefinition hfresh hi hready scope users
      simp only [hi]
      by_cases hright : Right definitions values globals limits d
      · rw [hok hright]
        exact ih (h.complete hi hready hright) (by rw [List.length_append]; simp; omega)
      · obtain ⟨e, he⟩ := herror hright
        rw [he]
        exact Or.inl ⟨e, rfl, d, List.mem_of_getElem? hi, hright⟩

theorem initial_reached : Reached hu values globals limits []
    ⟨values, (linksUpTo definitions.length (depsOf definitions values globals)
      definitions.length).agenda, List.replicate definitions.length false⟩ where
  valid := initial_valid
  known _ hi := absurd hi List.not_mem_nil
  kept _ _ := rfl
  completed := by simp
  right _ hi := absurd hi List.not_mem_nil

/-- Everything is marked completed exactly if no constant depends on itself. -/
theorem Reached.find?_eq_none_iff (h : Reached hu values globals limits done p)
    (hready : p.agenda.ready = []) (hfresh : ∀ d ∈ definitions, lookup values globals d.id = none) :
    (p.completed.zip definitions).find? (fun e => !e.1) = none ↔
      ∀ r, ¬ TransGen (DependsOn definitions) r r := by
  rw [← cycle_iff hu hfresh, ← h.valid.all_done_iff hready, List.find?_eq_none, h.completed]
  constructor
  · intro hall i hi
    have hi' : i < definitions.length := hi
    have hmem : (decide (i ∈ done), definitions[i]) ∈
        ((List.range definitions.length).map fun k => decide (k ∈ done)).zip definitions := by
      refine List.mem_iff_getElem?.mpr ⟨i, ?_⟩
      rw [List.getElem?_zip_eq_some]
      simp [hi']
    simpa using hall _ hmem
  · intro hall e he
    obtain ⟨k, hk, hdone⟩ := List.mem_map.mp (List.of_mem_zip he).1
    have hmem := hall k (List.mem_range.mp hk)
    rw [← hdone]
    simpa using hmem

/-! ## Acceptance -/

/-- What the passes before the loop check. -/
structure Linkable (definitions : List Definition) (values globals : Values) : Prop where
  unique : (definitions.map Definition.id).Nodup
  fresh : ∀ d ∈ definitions, lookup values globals d.id = none
  typed : ∀ d ∈ definitions, d.ty = d.expression.ty
  closed : ∀ d ∈ definitions, ∀ r ∈ d.expression.references,
    (∃ d' ∈ definitions, d'.id = r) ∨ (lookup values globals r).isSome

/-- The passes before the loop. -/
def link (scope : String) (definitions : List Definition) (values globals : Values) :
    Except VerifyError Links := do
  let indices ← indexDefinitions scope values globals 0 definitions []
  linkDefinitions scope values globals indices 0 definitions
    { agenda := ⟨List.replicate definitions.length 0, []⟩
      users := List.replicate definitions.length [] }

theorem waiting_isSome_iff (hu : (definitions.map Definition.id).Nodup) :
    (∀ r ∈ d.waiting values globals, ((indicesOf definitions).get r).isSome) ↔
      ∀ r ∈ d.expression.references,
        (∃ d' ∈ definitions, d'.id = r) ∨ (lookup values globals r).isSome := by
  have hindex : ∀ r, ((indicesOf definitions).get r).isSome ↔ ∃ d' ∈ definitions, d'.id = r := by
    intro r
    rw [Option.isSome_iff_exists]
    simp only [get_indicesOf hu]
    constructor
    · rintro ⟨j, d', hj, hid⟩
      exact ⟨d', List.mem_of_getElem? hj, hid⟩
    · rintro ⟨d', hd', hid⟩
      obtain ⟨j, hj⟩ := List.getElem?_of_mem hd'
      exact ⟨j, d', hj, hid⟩
  constructor
  · intro h r hr
    by_cases hsome : (lookup values globals r).isSome
    · exact Or.inr hsome
    · rw [Option.not_isSome_iff_eq_none] at hsome
      exact Or.inl ((hindex r).mp (h r (mem_waiting.mpr ⟨hr, List.not_mem_nil, hsome⟩)))
  · intro h r hr
    obtain ⟨hmem, _, hnone⟩ := mem_waiting.mp hr
    refine (hindex r).mpr ((h r hmem).resolve_right ?_)
    rw [hnone]
    exact Bool.false_ne_true

theorem link_ok_iff {links : Links} :
    link scope definitions values globals = .ok links ↔
      Linkable definitions values globals ∧
        links = linksUpTo definitions.length (depsOf definitions values globals)
          definitions.length := by
  unfold link
  rw [bind_ok_iff]
  simp only [indexDefinitions_ok_iff]
  have hrest : ∀ hu : (definitions.map Definition.id).Nodup,
      linkDefinitions scope values globals (indicesOf definitions) 0 definitions
        (linksUpTo definitions.length (depsOf definitions values globals) 0) = .ok links ↔ _ :=
    fun hu => linkDefinitions_ok_iff hu rfl
  rw [linksUpTo_zero, Nat.zero_add] at hrest
  constructor
  · rintro ⟨indices, ⟨⟨hu, hall⟩, rfl⟩, hok⟩
    obtain ⟨hclosed, hlinks⟩ := (hrest hu).mp hok
    exact ⟨⟨hu, fun d hd => (hall d hd).2.1, fun d hd => (hall d hd).2.2,
      fun d hd => (waiting_isSome_iff hu).mp (hclosed d hd)⟩, hlinks⟩
  · rintro ⟨h, hlinks⟩
    refine ⟨_, ⟨⟨h.unique, fun d hd => ⟨rfl, h.fresh d hd, h.typed d hd⟩⟩, rfl⟩, ?_⟩
    exact (hrest h.unique).mpr
      ⟨fun d hd => (waiting_isSome_iff h.unique).mpr (h.closed d hd), hlinks⟩

/-- The check ends within one iteration for each definition, and accepts what is consistent. -/
theorem evaluate_spec (scope : String) (definitions : List Definition) (values globals : Values)
    (limits : IrLimits) {fuel : Nat} (hfuel : definitions.length ≤ fuel) :
    (∃ out, evaluate scope definitions values globals limits fuel = some out) ∧
      ((∃ out, evaluate scope definitions values globals limits fuel = some (.ok out)) ↔
        Consistent definitions values globals limits) := by
  have hlinks : (do
      let indices ← indexDefinitions scope values globals 0 definitions []
      linkDefinitions scope values globals indices 0 definitions
        { agenda := ⟨List.replicate definitions.length 0, []⟩
          users := List.replicate definitions.length [] }) =
      link scope definitions values globals := rfl
  unfold evaluate
  simp only [hlinks]
  cases hlink : link scope definitions values globals with
  | error e =>
    refine ⟨⟨_, rfl⟩, by rintro ⟨_, ⟨⟩⟩, fun h => ?_⟩
    have hok : link scope definitions values globals = .ok _ :=
      link_ok_iff.mpr ⟨⟨h.unique, h.fresh, h.typed, h.closed⟩, rfl⟩
    rw [hlink] at hok
    cases hok
  | ok links =>
    obtain ⟨hlinkable, rfl⟩ := link_ok_iff.mp hlink
    have hu := hlinkable.unique
    have hfresh := hlinkable.fresh
    dsimp only
    have hinitial : Reached hu values globals limits [] _ := initial_reached
    rcases hinitial.drain hfresh scope (fuel.add_zero.symm ▸ hfuel) with
      ⟨e, he, d, hd, hwrong⟩ | ⟨done, p, hp, hreached, hready⟩
    · rw [he]
      exact ⟨⟨_, rfl⟩, by rintro ⟨_, ⟨⟩⟩, fun h => absurd (h.results d hd) hwrong⟩
    · rw [hp]
      dsimp only
      have hnone := hreached.find?_eq_none_iff hready hfresh
      -- A definition left over depends on a cycle.
      cases hfind : (p.completed.zip definitions).find? (fun e => !e.1) with
      | some e =>
        refine ⟨⟨_, rfl⟩, by rintro ⟨_, ⟨⟩⟩, fun h => ?_⟩
        rw [hnone.mpr h.acyclic] at hfind
        cases hfind
      | none =>
        have hacyclic := hnone.mp hfind
        refine ⟨⟨_, rfl⟩, fun _ => ?_, fun _ => ⟨_, rfl⟩⟩
        refine ⟨hu, hfresh, hlinkable.typed, hlinkable.closed, hacyclic, fun d hd => ?_⟩
        obtain ⟨i, hi⟩ := List.getElem?_of_mem hd
        have hall := (hreached.valid.all_done_iff hready).mpr ((cycle_iff hu hfresh).mpr hacyclic)
        exact hreached.right i (hall i (List.getElem?_eq_some_iff.mp hi).1) d hi

end

end Constants

end Whale
