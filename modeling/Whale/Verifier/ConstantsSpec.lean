import Whale.Lib.Collect
import Whale.Verifier.Constants

set_option autoImplicit false

/-! # What the check of a table accepts

A table is consistent if its identities are new and unique, its references lead to constants,
no constant depends on itself, and every stored result is what its expression evaluates to when
each reference stands for what is stored. `evaluate` accepts exactly the consistent tables. -/

namespace Whale

namespace Constants

open Relation

/-- Definition `a` refers to `b`. -/
def DependsOn (definitions : List Definition) (a b : ConstRef) : Prop :=
  ∃ d ∈ definitions, d.id = a ∧ b ∈ d.expression.references

/-- What a reference stands for if every stored result is right. -/
def stored (definitions : List Definition) (values globals : Values) : ConstExpr.Resolver :=
  fun reference =>
    match definitions.find? (fun d => d.id = reference) with
    | some d => some (d.ty, d.result)
    | none => lookup values globals reference

structure Consistent (definitions : List Definition) (values globals : Values)
    (limits : IrLimits) : Prop where
  unique : (definitions.map Definition.id).Nodup
  fresh : ∀ d ∈ definitions, lookup values globals d.id = none
  typed : ∀ d ∈ definitions, d.ty = d.expression.ty
  closed : ∀ d ∈ definitions, ∀ r ∈ d.expression.references,
    (∃ d' ∈ definitions, d'.id = r) ∨ (lookup values globals r).isSome
  acyclic : ∀ r, ¬ TransGen (DependsOn definitions) r r
  results : ∀ d ∈ definitions,
    d.expression.evaluateWithLimits (stored definitions values globals) limits = .ok d.result

section

variable {definitions definitions' : List Definition} {values globals : Values}
  {limits : IrLimits}

theorem stored_of_mem (hu : (definitions.map Definition.id).Nodup) {d : Definition}
    (hd : d ∈ definitions) : stored definitions values globals d.id = some (d.ty, d.result) := by
  unfold stored
  split
  · rename_i d' hfind
    have hid : d'.id = d.id := by simpa using List.find?_some hfind
    rw [List.inj_on_of_nodup_map hu (List.mem_of_find?_eq_some hfind) hd hid]
  · rename_i hfind
    exact absurd (decide_eq_true rfl) (List.find?_eq_none.mp hfind d hd)

theorem stored_of_not_mem {r : ConstRef} (hr : ∀ d ∈ definitions, d.id ≠ r) :
    stored definitions values globals r = lookup values globals r := by
  unfold stored
  rw [List.find?_eq_none.mpr fun d hd => by simpa using hr d hd]

/-- The order of the definitions does not matter. -/
theorem Consistent.perm (hp : definitions.Perm definitions')
    (h : Consistent definitions values globals limits) :
    Consistent definitions' values globals limits := by
  have hu : (definitions'.map Definition.id).Nodup := (hp.map _).nodup_iff.mp h.unique
  have hdepends : DependsOn definitions = DependsOn definitions' := by
    funext a b
    simp only [DependsOn, hp.mem_iff]
  have hstored : stored definitions values globals = stored definitions' values globals := by
    funext r
    by_cases hr : ∃ d ∈ definitions, d.id = r
    · obtain ⟨d, hd, rfl⟩ := hr
      rw [stored_of_mem h.unique hd, stored_of_mem hu (hp.mem_iff.mp hd)]
    · have hne : ∀ d ∈ definitions, d.id ≠ r := fun d hd heq => hr ⟨d, hd, heq⟩
      rw [stored_of_not_mem hne, stored_of_not_mem fun d hd => hne d (hp.mem_iff.mpr hd)]
  refine ⟨hu, ?_, ?_, ?_, hdepends ▸ h.acyclic, ?_⟩
  · exact fun d hd => h.fresh d (hp.mem_iff.mpr hd)
  · exact fun d hd => h.typed d (hp.mem_iff.mpr hd)
  · intro d hd r hr
    rcases h.closed d (hp.mem_iff.mpr hd) r hr with ⟨d', hd', hid⟩ | hsome
    · exact Or.inl ⟨d', hp.mem_iff.mp hd', hid⟩
    · exact Or.inr hsome
  · intro d hd
    rw [← hstored]
    exact h.results d (hp.mem_iff.mpr hd)

end

theorem sameValue_iff {left right : ConstValue} : sameValue left right = true ↔ left = right := by
  cases left <;> cases right <;> simp [sameValue]

/-! ## Indices -/

section

variable {scope : String} {values globals : Values} {definitions : List Definition}

theorem indexDefinitions_ok_iff {i : Nat} {ds : List Definition}
    {indices indices' : AssocMap ConstRef Nat} :
    indexDefinitions scope values globals i ds indices = .ok indices' ↔
      ((ds.map Definition.id).Nodup ∧ ∀ d ∈ ds, indices.get d.id = none ∧
        lookup values globals d.id = none ∧ d.ty = d.expression.ty) ∧
      indices' = indices.extend (AssocMap.positions Definition.id i ds) := by
  -- The positions of the definitions before are in the map already.
  induction ds generalizing i indices with
  | nil =>
    rw [indexDefinitions, Except.ok.injEq]
    simp [AssocMap.positions, AssocMap.extend, eq_comm]
  | cons d ds ih =>
    rw [indexDefinitions, require_then_ok_iff, require_then_ok_iff, ih, List.map_cons,
      List.nodup_cons]
    have hsplit : indices.extend (AssocMap.positions Definition.id i (d :: ds)) =
        (indices.insert d.id i).extend (AssocMap.positions Definition.id (i + 1) ds) := rfl
    rw [hsplit]
    constructor
    · rintro ⟨⟨hnew, hfresh⟩, htyped, ⟨hnodup, hall⟩, hext⟩
      have hother : ∀ d' ∈ ds, d'.id ≠ d.id := by
        intro d' hd' heq
        have hget := (hall d' hd').1
        rw [heq, AssocMap.get_insert_self] at hget
        cases hget
      refine ⟨⟨⟨?_, hnodup⟩, ?_⟩, hext⟩
      · intro hmem
        obtain ⟨d', hd', heq⟩ := List.mem_map.mp hmem
        exact hother d' hd' heq
      · intro d' hd'
        rcases List.mem_cons.mp hd' with rfl | hd'
        · exact ⟨hnew, hfresh, htyped⟩
        · obtain ⟨hget, hrest⟩ := hall d' hd'
          rw [AssocMap.get_insert_ne (hother d' hd')] at hget
          exact ⟨hget, hrest⟩
    · rintro ⟨⟨⟨hnotMem, hnodup⟩, hall⟩, hext⟩
      obtain ⟨hnew, hfresh, htyped⟩ := hall d List.mem_cons_self
      refine ⟨⟨hnew, hfresh⟩, htyped, ⟨hnodup, fun d' hd' => ?_⟩, hext⟩
      obtain ⟨hget, hrest⟩ := hall d' (List.mem_cons_of_mem _ hd')
      have hne : d'.id ≠ d.id := fun heq => hnotMem (heq ▸ List.mem_map_of_mem hd')
      rw [AssocMap.get_insert_ne hne]
      exact ⟨hget, hrest⟩

/-- The table of indices. -/
def indicesOf (definitions : List Definition) : AssocMap ConstRef Nat :=
  AssocMap.extend [] (AssocMap.positions Definition.id 0 definitions)

theorem get_indicesOf (hu : (definitions.map Definition.id).Nodup) {r : ConstRef} {j : Nat} :
    (indicesOf definitions).get r = some j ↔ ∃ d, definitions[j]? = some d ∧ d.id = r :=
  AssocMap.get_positions hu

/-! ## Links -/

/-- The references that have to be waited for, each once. -/
def waiting (values globals : Values) : List ConstRef → List ConstRef → List ConstRef
  | [], _ => []
  | r :: rs, seen =>
      if r ∈ seen ∨ (lookup values globals r).isSome then waiting values globals rs (r :: seen)
      else r :: waiting values globals rs (r :: seen)

theorem mem_waiting {r : ConstRef} {rs seen : List ConstRef} :
    r ∈ waiting values globals rs seen ↔ r ∈ rs ∧ r ∉ seen ∧ lookup values globals r = none := by
  induction rs generalizing seen with
  | nil => simp [waiting]
  | cons r' rs ih =>
    unfold waiting
    by_cases hr : r = r'
    · subst hr
      by_cases hskip : r ∈ seen ∨ (lookup values globals r).isSome
      · rw [if_pos hskip, ih]
        simp only [List.mem_cons, true_or, not_true, false_and, and_false, true_and, false_iff,
          not_and]
        intro hnew hnone
        rcases hskip with hseen | hsome
        · exact hnew hseen
        · rw [hnone] at hsome
          cases hsome
      · rw [if_neg hskip]
        rw [not_or, Option.not_isSome_iff_eq_none] at hskip
        simp [hskip]
    · by_cases hskip : r' ∈ seen ∨ (lookup values globals r').isSome
      · rw [if_pos hskip, ih]
        simp [hr]
      · rw [if_neg hskip, List.mem_cons, ih]
        simp [hr]

theorem nodup_waiting (rs seen : List ConstRef) : (waiting values globals rs seen).Nodup := by
  induction rs generalizing seen with
  | nil => exact List.nodup_nil
  | cons r rs ih =>
    unfold waiting
    split
    · exact ih _
    · refine List.nodup_cons.mpr ⟨fun hmem => ?_, ih _⟩
      exact (mem_waiting.mp hmem).2.1 List.mem_cons_self

/-- The definitions among references, by index. -/
def resolved (indices : AssocMap ConstRef Nat) (references : List ConstRef) : List Nat :=
  references.filterMap fun r => indices.get r

/-- Count definition `j` as one that `i` waits for. -/
def Links.add (i : Nat) (links : Links) (j : Nat) : Links where
  agenda := { links.agenda with remaining := links.agenda.remaining.modify i (· + 1) }
  users := links.users.modify j (· ++ [i])

theorem linkReferences_ok_iff {indices : AssocMap ConstRef Nat} {i : Nat} {d : Definition}
    {rs seen : List ConstRef} {links links' : Links} :
    linkReferences scope values globals indices i d rs seen links = .ok links' ↔
      (∀ r ∈ waiting values globals rs seen, (indices.get r).isSome) ∧
        links' = (resolved indices (waiting values globals rs seen)).foldl (Links.add i)
          links := by
  induction rs generalizing seen links with
  | nil =>
    rw [linkReferences, Except.ok.injEq]
    exact ⟨fun h => ⟨fun _ hr => absurd hr List.not_mem_nil, h.symm⟩, fun h => h.2.symm⟩
  | cons r rs ih =>
    unfold linkReferences waiting
    by_cases hskip : r ∈ seen ∨ (lookup values globals r).isSome
    · rw [if_pos hskip, if_pos hskip]
      exact ih
    · rw [if_neg hskip, if_neg hskip, bind_ok_iff, List.forall_mem_cons]
      constructor
      · rintro ⟨j, hj, hrest⟩
        obtain ⟨hall, heq⟩ := ih.mp hrest
        rw [orThrow_ok_iff] at hj
        refine ⟨⟨by rw [hj]; rfl, hall⟩, ?_⟩
        rw [heq, resolved, resolved, List.filterMap_cons_some (f := fun r => indices.get r) hj]
        rfl
      · rintro ⟨⟨hsome, hall⟩, heq⟩
        obtain ⟨j, hj⟩ := Option.isSome_iff_exists.mp hsome
        rw [resolved, List.filterMap_cons_some (f := fun r => indices.get r) hj] at heq
        exact ⟨j, orThrow_ok_iff.mpr hj, ih.mpr ⟨hall, heq⟩⟩

/-- What `i` waits for is counted, and `i` becomes a user of each. -/
theorem foldl_add (i : Nat) {deps : List Nat} (hnodup : deps.Nodup) (links : Links) :
    (deps.foldl (Links.add i) links).agenda.ready = links.agenda.ready ∧
      (∀ k, (deps.foldl (Links.add i) links).agenda.remaining[k]? =
        if k = i then links.agenda.remaining[k]?.map (· + deps.length)
        else links.agenda.remaining[k]?) ∧
      ∀ j, (deps.foldl (Links.add i) links).users[j]? =
        if j ∈ deps then links.users[j]?.map (· ++ [i]) else links.users[j]? := by
  induction deps generalizing links with
  | nil =>
    refine ⟨rfl, fun k => ?_, fun j => rfl⟩
    split <;> simp
  | cons j deps ih =>
    obtain ⟨hnotMem, hnodup⟩ := List.nodup_cons.mp hnodup
    obtain ⟨hready, hremaining, husers⟩ := ih hnodup (links.add i j)
    rw [List.foldl_cons]
    refine ⟨hready, fun k => ?_, fun j' => ?_⟩
    · rw [hremaining]
      show (if k = i then (links.agenda.remaining.modify i (· + 1))[k]?.map _
        else (links.agenda.remaining.modify i (· + 1))[k]?) = _
      rw [List.getElem?_modify]
      by_cases hk : k = i
      · subst hk
        simp [Function.comp_def, Nat.add_assoc, Nat.add_comm 1]
      · simp [hk, Ne.symm hk]
    · rw [husers]
      show (if j' ∈ deps then (links.users.modify j (· ++ [i]))[j']?.map _
        else (links.users.modify j (· ++ [i]))[j']?) = _
      rw [List.getElem?_modify]
      by_cases hj : j' = j
      · subst hj
        simp [hnotMem]
      · simp [hj, Ne.symm hj]

/-- The links when the definitions before `i` are done, each waiting for `deps`. -/
def linksUpTo (n : Nat) (deps : Nat → List Nat) (i : Nat) : Links where
  agenda :=
    { remaining := (List.range n).map fun k => if k < i then (deps k).length else 0
      ready := (List.range i).filter fun k => deps k = [] }
  users := (List.range n).map fun j => (List.range i).filter fun k => j ∈ deps k

theorem linksUpTo_zero (n : Nat) (deps : Nat → List Nat) :
    linksUpTo n deps 0 = ⟨⟨List.replicate n 0, []⟩, List.replicate n []⟩ := by
  have hconst : ∀ {α : Type} (a : α), (List.range n).map (fun _ => a) = List.replicate n a := by
    intro α a
    rw [List.map_const', List.length_range]
  unfold linksUpTo
  simp only [Nat.not_lt_zero, if_false, List.range_zero, List.filter_nil, hconst]

theorem linksUpTo_succ {n : Nat} {deps : Nat → List Nat} {i : Nat} (hi : i < n)
    (hnodup : (deps i).Nodup) {links : Links}
    (hlinks : links = (deps i).foldl (Links.add i) (linksUpTo n deps i)) :
    { links with
      agenda := if links.agenda.remaining[i]? = some 0 then
        { links.agenda with ready := links.agenda.ready ++ [i] } else links.agenda } =
      linksUpTo n deps (i + 1) := by
  obtain ⟨hready, hremaining, husers⟩ := foldl_add i hnodup (linksUpTo n deps i)
  rw [← hlinks] at hready hremaining husers
  obtain ⟨⟨remaining, ready⟩, users⟩ := links
  simp only at hready hremaining husers
  have hremaining' : remaining = (linksUpTo n deps (i + 1)).agenda.remaining := by
    refine List.ext_getElem? fun k => ?_
    rw [hremaining]
    show (if k = i then _ else _) = ((List.range n).map _)[k]?
    simp only [linksUpTo, List.getElem?_map]
    by_cases hk : k < n
    · rw [List.getElem?_range hk]
      rcases Nat.lt_trichotomy k i with hlt | rfl | hgt
      · simp only [Option.map_some, if_neg (Nat.ne_of_lt hlt), if_pos hlt,
          if_pos (Nat.lt_succ_of_lt hlt)]
      · simp
      · simp only [Option.map_some, if_neg (Nat.ne_of_gt hgt), if_neg (Nat.not_lt_of_gt hgt),
          if_neg (Nat.not_lt_of_le (Nat.succ_le_of_lt hgt))]
    · rw [List.getElem?_eq_none (by simpa using hk)]
      simp
  have husers' : users = (linksUpTo n deps (i + 1)).users := by
    refine List.ext_getElem? fun j => ?_
    rw [husers]
    simp only [linksUpTo, List.getElem?_map]
    by_cases hj : j < n
    · rw [List.getElem?_range hj, List.range_succ]
      simp only [Option.map_some, List.filter_append]
      by_cases hmem : j ∈ deps i <;> simp [hmem]
    · rw [List.getElem?_eq_none (by simpa using hj)]
      simp
  have hcount : remaining[i]? = some (deps i).length := by
    rw [hremaining']
    simp [linksUpTo, hi]
  have hready' : (if remaining[i]? = some 0 then ready ++ [i] else ready) =
      (linksUpTo n deps (i + 1)).agenda.ready := by
    rw [hcount, hready]
    simp only [linksUpTo, List.range_succ, List.filter_append, Option.some_inj,
      List.length_eq_zero_iff]
    by_cases hnil : deps i = [] <;> simp [hnil]
  rw [show linksUpTo n deps (i + 1) = ⟨⟨(linksUpTo n deps (i + 1)).agenda.remaining,
    (linksUpTo n deps (i + 1)).agenda.ready⟩, (linksUpTo n deps (i + 1)).users⟩ from rfl,
    ← hremaining', ← husers', ← hready']
  by_cases hzero : remaining[i]? = some 0 <;> simp [hzero]

/-- The references that definition `d` waits for. -/
abbrev Definition.waiting (values globals : Values) (d : Definition) : List ConstRef :=
  Constants.waiting values globals d.expression.references []

/-- What definition `k` waits for, by index. -/
def depsOf (definitions : List Definition) (values globals : Values) (k : Nat) : List Nat :=
  match definitions[k]? with
  | some d => resolved (indicesOf definitions) (d.waiting values globals)
  | none => []

theorem nodup_depsOf (hu : (definitions.map Definition.id).Nodup) (k : Nat) :
    (depsOf definitions values globals k).Nodup := by
  unfold depsOf
  split
  · refine List.Nodup.filterMap ?_ (nodup_waiting _ _)
    intro r r' j hj hj'
    rw [Option.mem_def, get_indicesOf hu] at hj hj'
    obtain ⟨d, hd, rfl⟩ := hj
    obtain ⟨d', hd', rfl⟩ := hj'
    rw [hd] at hd'
    cases hd'
    rfl
  · exact List.nodup_nil

theorem mem_depsOf (hu : (definitions.map Definition.id).Nodup) {j k : Nat} :
    j ∈ depsOf definitions values globals k ↔ ∃ d d', definitions[k]? = some d ∧
      definitions[j]? = some d' ∧ d'.id ∈ d.waiting values globals := by
  unfold depsOf
  split
  · rename_i d hd
    rw [hd]
    simp only [resolved, List.mem_filterMap, get_indicesOf hu, Option.some_inj]
    constructor
    · rintro ⟨r, hr, d', hj, rfl⟩
      exact ⟨d, d', rfl, hj, hr⟩
    · rintro ⟨_, d', rfl, hj, hr⟩
      exact ⟨d'.id, hr, d', hj, rfl⟩
  · rename_i hnone
    rw [hnone]
    simp

theorem linkDefinitions_ok_iff (hu : (definitions.map Definition.id).Nodup) {i : Nat}
    {ds : List Definition} (hds : definitions.drop i = ds) {links : Links} :
    linkDefinitions scope values globals (indicesOf definitions) i ds
        (linksUpTo definitions.length (depsOf definitions values globals) i) = .ok links ↔
      (∀ d ∈ ds, ∀ r ∈ d.waiting values globals, ((indicesOf definitions).get r).isSome) ∧
        links = linksUpTo definitions.length (depsOf definitions values globals)
          (i + ds.length) := by
  induction ds generalizing i with
  | nil =>
    rw [linkDefinitions, Except.ok.injEq]
    exact ⟨fun h => ⟨fun _ hd => absurd hd List.not_mem_nil, h.symm⟩, fun h => h.2.symm⟩
  | cons d ds ih =>
    obtain ⟨hget, hrest⟩ := getElem?_of_drop_eq_cons hds
    have hi : i < definitions.length := (List.getElem?_eq_some_iff.mp hget).1
    have hdeps : resolved (indicesOf definitions) (d.waiting values globals) =
        depsOf definitions values globals i := by
      rw [depsOf, hget]
    rw [linkDefinitions, bind_ok_iff, List.forall_mem_cons, List.length_cons,
      Nat.add_comm ds.length, ← Nat.add_assoc]
    simp only [linkReferences_ok_iff, hdeps]
    constructor
    · rintro ⟨links', ⟨hall, hlinks'⟩, hok⟩
      rw [linksUpTo_succ hi (nodup_depsOf hu i) hlinks'] at hok
      obtain ⟨hrest', heq⟩ := (ih hrest).mp hok
      exact ⟨⟨hall, hrest'⟩, heq⟩
    · rintro ⟨⟨hall, hrest'⟩, heq⟩
      refine ⟨_, ⟨hall, rfl⟩, ?_⟩
      rw [linksUpTo_succ hi (nodup_depsOf hu i) rfl]
      exact (ih hrest).mpr ⟨hrest', heq⟩

end

end Constants

end Whale
