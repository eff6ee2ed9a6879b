import Whale.Linker.Demand

set_option autoImplicit false

/-! # Which inputs a link selects

`Selects` says what a selection is: every direct object, in input order, and those archive
members that were demanded when their archive was searched, until the archive had nothing left
to offer. `extract_ok` is the run of the rounds inside one archive, `select_selects` the run
over the inputs. -/

namespace Whale.Linker

/-! ## Where a selected object comes from -/

/-- The input, and for an archive the member. -/
inductive Origin where
  | direct (input : Nat)
  | member (input index : Nat)
  deriving DecidableEq

def Origin.input : Origin → Nat
  | .direct input => input
  | .member input _ => input

def originObject (inputs : List LinkInput) : Origin → Option ObjectFile
  | .direct j => match inputs[j]? with
      | some (.object object) => some object
      | _ => none
  | .member j i => match inputs[j]? with
      | some (.archive members) => members[i]?.map ArchiveObject.object
      | _ => none

def objectsOf (inputs : List LinkInput) (origins : List Origin) : List ObjectFile :=
  origins.filterMap (originObject inputs)

/-- The selected objects are those of `origins`, one after the other. -/
structure Selects (inputs : List LinkInput) (entry : String) (origins : List Origin) : Prop where
  found : ∀ origin ∈ origins, (originObject inputs origin).isSome = true
  /-- Inputs are taken from left to right. -/
  ordered : origins.Pairwise fun a b => a.input ≤ b.input
  /-- Nothing is selected twice. -/
  nodup : origins.Nodup
  direct : ∀ j object, inputs[j]? = some (.object object) → .direct j ∈ origins
  /-- A member defines a name that is demanded of what is selected before it. -/
  demanded : ∀ before j i after, origins = before ++ .member j i :: after →
    ∃ object name, originObject inputs (.member j i) = some object ∧ Exports object name ∧
      Demanded entry (objectsOf inputs before) name
  /-- What is left in an archive defines no name still demanded when the archive is left. -/
  left : ∀ j members, inputs[j]? = some (.archive members) → ∀ (i : Nat) member,
    members[i]? = some member → .member j i ∉ origins → ∀ name, Exports member.object name →
      ¬ Demanded entry (objectsOf inputs (origins.filter fun o => o.input ≤ j)) name

/-! ## Searching an archive -/

variable {s s' : Selection}

variable {u : Unit}

theorem charge_ok (h : charge s = .ok u s') : s'.selected = s.selected := by
  rw [charge_eq] at h
  exact spend_ok h

/-- Does one of the symbols export a demanded name? -/
def Supplies (demand : List String) (symbols : List ObjectSymbol) : Prop :=
  ∃ symbol ∈ symbols, exports symbol = true ∧ symbol.name ∈ demand

theorem defines_ok {demand : List String} {symbols : List ObjectSymbol} {b : Bool}
    (h : defines demand symbols s = .ok b s') :
    s'.selected = s.selected ∧ (b = true ↔ Supplies demand symbols) := by
  induction symbols generalizing s with
  | nil =>
      cases h
      exact ⟨rfl, ⟨nofun, fun ⟨_, hmem, _⟩ => nomatch hmem⟩⟩
  | cons symbol symbols ih =>
      unfold defines at h
      obtain ⟨_, t, hcharge, h⟩ := bind_run_ok_iff.mp h
      have hkeep := charge_ok hcharge
      by_cases hmatch : (exports symbol && decide (symbol.name ∈ demand)) = true
      · simp only [hmatch, if_true, pure_run] at h
        cases h
        rw [Bool.and_eq_true, decide_eq_true_eq] at hmatch
        exact ⟨hkeep, fun _ => ⟨symbol, List.mem_cons_self, hmatch⟩, fun _ => rfl⟩
      · simp only [hmatch] at h
        obtain ⟨hrest, hb⟩ := ih h
        refine ⟨hrest.trans hkeep, hb.trans ?_⟩
        constructor
        · rintro ⟨x, hx, hsupplies⟩
          exact ⟨x, List.mem_cons_of_mem _ hx, hsupplies⟩
        · rintro ⟨x, hx, hexports, hname⟩
          rcases List.mem_cons.mp hx with rfl | hx
          · exact absurd (by simp [hexports, hname]) hmatch
          · exact ⟨x, hx, hexports, hname⟩

/-- A member is found exactly when an unused one supplies the demand. -/
theorem findMember_ok {demand : List String} {used : List Nat}
    {members : List (ArchiveObject × Nat)} {found : Option (ArchiveObject × Nat)}
    (h : findMember demand used members s = .ok found s') :
    s'.selected = s.selected ∧
      (∀ e, found = some e → e ∈ members ∧ e.2 ∉ used ∧ Supplies demand e.1.object.symbols) ∧
      (found = none → ∀ e ∈ members, e.2 ∉ used → ¬ Supplies demand e.1.object.symbols) := by
  induction members generalizing s with
  | nil =>
      cases h
      exact ⟨rfl, nofun, fun _ _ hmem => nomatch hmem⟩
  | cons e members ih =>
      unfold findMember at h
      by_cases hused : e.2 ∈ used
      · simp only [hused, if_true] at h
        obtain ⟨hkeep, hsome, hnone⟩ := ih h
        refine ⟨hkeep, fun e' he' => ?_, fun hfound e' hmem hunused => ?_⟩
        · obtain ⟨hmem, hrest⟩ := hsome e' he'
          exact ⟨List.mem_cons_of_mem _ hmem, hrest⟩
        · rcases List.mem_cons.mp hmem with rfl | hmem
          · exact absurd hused hunused
          · exact hnone hfound e' hmem hunused
      · simp only [hused, if_false] at h
        obtain ⟨b, t, hdefines, h⟩ := bind_run_ok_iff.mp h
        obtain ⟨hkeep, hb⟩ := defines_ok hdefines
        cases b with
        | true =>
            cases h
            refine ⟨hkeep, fun e' he' => ?_, nofun⟩
            cases he'
            exact ⟨List.mem_cons_self, hused, hb.mp rfl⟩
        | false =>
            obtain ⟨hrest, hsome, hnone⟩ := ih h
            refine ⟨hrest.trans hkeep, fun e' he' => ?_, fun hfound e' hmem hunused => ?_⟩
            · obtain ⟨hmem, hsupplies⟩ := hsome e' he'
              exact ⟨List.mem_cons_of_mem _ hmem, hsupplies⟩
            · rcases List.mem_cons.mp hmem with rfl | hmem
              · exact fun hsupplies => nomatch hb.mpr hsupplies
              · exact hnone hfound e' hmem hunused

variable {entry : String}

theorem supplies_iff {objects : List ObjectFile} {object : ObjectFile} :
    Supplies (unresolvedNames entry objects) object.symbols ↔
      ∃ name, Exports object name ∧ Demanded entry objects name := by
  constructor
  · rintro ⟨symbol, hsymbol, hexports, hname⟩
    exact ⟨symbol.name, ⟨symbol, hsymbol, hexports, rfl⟩, mem_unresolvedNames.mp hname⟩
  · rintro ⟨_, ⟨symbol, hsymbol, hexports, rfl⟩, hdemanded⟩
    exact ⟨symbol, hsymbol, hexports, mem_unresolvedNames.mpr hdemanded⟩

variable {maxBytes : Nat}

theorem checkPayload_ok {object : ObjectFile} (h : checkPayload object maxBytes s = .ok u s') :
    s'.selected = s.selected := by
  unfold checkPayload at h
  generalize object.sections = sections at h
  induction sections generalizing s with
  | nil =>
      cases h
      rfl
  | cons x sections ih =>
      rw [List.forM_eq_forM, List.forM_cons, bind_run] at h
      cases htotal : (checkedAdd s.payloadBytes x.data.length).filter (· ≤ maxBytes) with
      | none => simp [bind_run, orThrow_run, htotal] at h
      | some total =>
          simp only [bind_run, get_run, orThrow_run, htotal, set_run] at h
          exact (ih h).trans rfl

/-- The objects of the members picked, in the order they were picked. -/
def memberObjects (members : List ArchiveObject) (picked : List Nat) : List ObjectFile :=
  picked.filterMap fun i => members[i]?.map ArchiveObject.object

/-- What the rounds in one archive pick, when `before` is selected and the members `used` are
used up. -/
structure Extraction (entry : String) (members : List ArchiveObject) (before : List ObjectFile)
    (used picked : List Nat) : Prop where
  found : ∀ i ∈ picked, i < members.length
  nodup : picked.Nodup
  fresh : ∀ i ∈ picked, i ∉ used
  demanded : ∀ earlier i later, picked = earlier ++ i :: later →
    ∃ member name, members[i]? = some member ∧ Exports member.object name ∧
      Demanded entry (before ++ memberObjects members earlier) name
  left : ∀ (i : Nat) member, members[i]? = some member → i ∉ used → i ∉ picked → ∀ name,
    Exports member.object name → ¬ Demanded entry (before ++ memberObjects members picked) name

variable {members : List ArchiveObject}

/-- One round picks `i`, the rounds behind it pick the rest. -/
theorem Extraction.cons {before : List ObjectFile} {used picked : List Nat} {i : Nat}
    {member : ArchiveObject} (hmember : members[i]? = some member) (hunused : i ∉ used)
    {name : String} (hexports : Exports member.object name) (hdemanded : Demanded entry before name)
    (h : Extraction entry members (before ++ [member.object]) (i :: used) picked) :
    Extraction entry members before used (i :: picked) := by
  have hobjects : ∀ rest, before ++ memberObjects members (i :: rest) =
      before ++ [member.object] ++ memberObjects members rest := by
    intro rest
    simp [memberObjects, hmember]
  refine ⟨?_, ?_, ?_, ?_, ?_⟩
  · intro j hj
    rcases List.mem_cons.mp hj with rfl | hj
    · exact (List.getElem?_eq_some_iff.mp hmember).1
    · exact h.found j hj
  · exact List.nodup_cons.mpr ⟨fun hi => h.fresh i hi List.mem_cons_self, h.nodup⟩
  · intro j hj
    rcases List.mem_cons.mp hj with rfl | hj
    · exact hunused
    · exact fun hused => h.fresh j hj (List.mem_cons_of_mem _ hused)
  · intro earlier j later heq
    cases earlier with
    | nil =>
        obtain ⟨rfl, -⟩ := List.cons.inj heq
        refine ⟨member, name, hmember, hexports, ?_⟩
        simpa [memberObjects] using hdemanded
    | cons k earlier =>
        obtain ⟨rfl, hrest⟩ := List.cons.inj heq
        rw [hobjects]
        exact h.demanded earlier j later hrest
  · intro j other hother hnotUsed hnotPicked
    rw [hobjects]
    have hne : j ≠ i := fun heq => hnotPicked (heq ▸ List.mem_cons_self)
    refine h.left j other hother ?_ fun hpicked => hnotPicked (List.mem_cons_of_mem _ hpicked)
    exact fun hused => hnotUsed ((List.mem_cons.mp hused).resolve_left hne)

/-- The rounds in an archive. There are more of them than unused members, so the last one
finds nothing. -/
theorem extract_ok {rounds : Nat} {used : List Nat}
    (h : extract entry maxBytes members rounds used s = .ok u s') (hnodup : used.Nodup)
    (hbound : ∀ i ∈ used, i < members.length) (hrounds : members.length < used.length + rounds) :
    ∃ picked, Extraction entry members s.selected used picked ∧
      s'.selected = s.selected ++ memberObjects members picked := by
  -- `used` holds distinct positions below the number of members, so the rounds suffice.
  induction rounds generalizing used s with
  | zero =>
      have hsubset : used ⊆ List.range members.length :=
        fun i hi => List.mem_range.mpr (hbound i hi)
      have hle := hnodup.length_le_of_subset hsubset
      rw [List.length_range] at hle
      omega
  | succ rounds ih =>
      unfold extract at h
      obtain ⟨demand, t, hdemand, h⟩ := bind_run_ok_iff.mp h
      obtain ⟨hkeep, rfl⟩ := unresolved_ok hdemand
      obtain ⟨found, v, hfind, h⟩ := bind_run_ok_iff.mp h
      obtain ⟨hkeep', hsome, hnone⟩ := findMember_ok hfind
      cases found with
      | none =>
          cases h
          refine ⟨[], ⟨nofun, List.nodup_nil, nofun, ?_, ?_⟩, ?_⟩
          · intro earlier i later heq
            cases earlier <;> cases heq
          · intro i member hmember hunused _ name hexports hdemanded
            refine hnone rfl (member, i) ?_ hunused (supplies_iff.mpr ⟨name, hexports, ?_⟩)
            · exact List.mk_mem_zipIdx_iff_getElem?.mpr hmember
            · simpa [memberObjects] using hdemanded
          · simpa [memberObjects] using hkeep'.trans hkeep
      | some e =>
          obtain ⟨member, i⟩ := e
          obtain ⟨hmem, hunused, hsupplies⟩ := hsome _ rfl
          obtain ⟨name, hexports, hdemanded⟩ := supplies_iff.mp hsupplies
          have hmember : members[i]? = some member := List.mk_mem_zipIdx_iff_getElem?.mp hmem
          have hlt : i < members.length := (List.getElem?_eq_some_iff.mp hmember).1
          obtain ⟨_, w, hpay, h⟩ := bind_run_ok_iff.mp h
          have hselected : w.selected = s.selected :=
            (checkPayload_ok hpay).trans (hkeep'.trans hkeep)
          obtain ⟨_, w', hmodify, h⟩ := bind_run_ok_iff.mp h
          cases hmodify
          obtain ⟨_, w', hget, h⟩ := bind_run_ok_iff.mp h
          cases hget
          obtain ⟨_, w', hrequire, h⟩ := bind_run_ok_iff.mp h
          obtain ⟨-, rfl⟩ := require_run_ok_iff.mp hrequire
          have hbound' : ∀ j ∈ i :: used, j < members.length := by
            intro j hj
            rcases List.mem_cons.mp hj with rfl | hj
            · exact hlt
            · exact hbound j hj
          have hrounds' : members.length < (i :: used).length + rounds := by
            rw [List.length_cons]
            omega
          obtain ⟨picked, hpicked, hafter⟩ :=
            ih h (List.nodup_cons.mpr ⟨hunused, hnodup⟩) hbound' hrounds'
          simp only [hselected] at hpicked hafter
          refine ⟨i :: picked, hpicked.cons hmember hunused hexports hdemanded, ?_⟩
          rw [hafter]
          simp [memberObjects, hmember]

/-! ## From input to input -/

theorem getElem?_snoc {α : Type} {xs : List α} {x y : α} {j : Nat}
    (h : (xs ++ [x])[j]? = some y) :
    j < xs.length ∧ xs[j]? = some y ∨ j = xs.length ∧ y = x := by
  rcases Nat.lt_trichotomy j xs.length with hlt | rfl | hgt
  · rw [List.getElem?_append_left hlt] at h
    exact .inl ⟨hlt, h⟩
  · rw [List.getElem?_concat_length] at h
    exact .inr ⟨rfl, (Option.some.inj h).symm⟩
  · rw [List.getElem?_eq_none (by simp; omega)] at h
    cases h

variable {inputs : List LinkInput}

theorem originObject_append {origin : Origin} (h : (originObject inputs origin).isSome = true)
    (more : List LinkInput) :
    origin.input < inputs.length ∧
      originObject (inputs ++ more) origin = originObject inputs origin := by
  have hlt : origin.input < inputs.length := by
    by_contra hge
    have hnone : inputs[origin.input]? = none := List.getElem?_eq_none (by omega)
    cases origin <;> simp only [Origin.input] at hnone <;> simp [originObject, hnone] at h
  refine ⟨hlt, ?_⟩
  cases origin <;> simp only [Origin.input] at hlt <;>
    simp only [originObject, List.getElem?_append_left hlt]

variable {origins : List Origin}

theorem objectsOf_append (h : ∀ origin ∈ origins, (originObject inputs origin).isSome = true)
    (more : List LinkInput) : objectsOf (inputs ++ more) origins = objectsOf inputs origins :=
  List.filterMap_congr fun origin horigin => (originObject_append (h origin horigin) more).2

/-- The origins that one more input adds. -/
structure Adds (inputs : List LinkInput) (entry : String) (origins : List Origin)
    (input : LinkInput) (added : List Origin) : Prop where
  found : ∀ origin ∈ added, origin.input = inputs.length ∧
    (originObject (inputs ++ [input]) origin).isSome = true
  nodup : added.Nodup
  direct : ∀ object, input = .object object → .direct inputs.length ∈ added
  demanded : ∀ before j i after, added = before ++ .member j i :: after →
    ∃ object name, originObject (inputs ++ [input]) (.member j i) = some object ∧
      Exports object name ∧
      Demanded entry (objectsOf (inputs ++ [input]) (origins ++ before)) name
  left : ∀ members, input = .archive members → ∀ (i : Nat) member, members[i]? = some member →
    .member inputs.length i ∉ added → ∀ name, Exports member.object name →
      ¬ Demanded entry (objectsOf (inputs ++ [input]) (origins ++ added)) name

theorem Selects.snoc {origins added : List Origin} {input : LinkInput}
    (h : Selects inputs entry origins) (hadds : Adds inputs entry origins input added) :
    Selects (inputs ++ [input]) entry (origins ++ added) := by
  have hlt : ∀ origin ∈ origins, origin.input < inputs.length :=
    fun origin horigin => (originObject_append (h.found origin horigin) []).1
  refine ⟨?_, ?_, ?_, ?_, ?_, ?_⟩
  · intro origin horigin
    rcases List.mem_append.mp horigin with horigin | horigin
    · rw [(originObject_append (h.found origin horigin) _).2]
      exact h.found origin horigin
    · exact (hadds.found origin horigin).2
  · refine List.pairwise_append.mpr ⟨h.ordered, ?_, ?_⟩
    · refine List.Pairwise.imp_of_mem ?_ hadds.nodup
      intro a b ha hb _
      rw [(hadds.found a ha).1, (hadds.found b hb).1]
    · intro a ha b hb
      rw [(hadds.found b hb).1]
      exact (hlt a ha).le
  · refine List.nodup_append.mpr ⟨h.nodup, hadds.nodup, ?_⟩
    rintro a ha b hb rfl
    have hinput := (hadds.found a hb).1
    have := hlt a ha
    omega
  · intro j object hj
    -- Of the earlier inputs nothing changes; of the new one `Adds` says it.
    rcases getElem?_snoc hj with ⟨-, hj⟩ | ⟨rfl, heq⟩
    · exact List.mem_append_left _ (h.direct j object hj)
    · exact List.mem_append_right _ (hadds.direct object heq.symm)
  · intro before j i after heq
    -- The member was picked by the new input or before it.
    rcases List.append_eq_append_iff.mp heq with ⟨mid, hbefore, hadded⟩ | ⟨mid, horigins, hrest⟩
    · obtain ⟨object, name, hobject, hexports, hdemanded⟩ := hadds.demanded mid j i after hadded
      exact ⟨object, name, hobject, hexports, hbefore ▸ hdemanded⟩
    · cases mid with
      | nil =>
          have hbefore : before = origins := by simpa using horigins.symm
          obtain ⟨object, name, hobject, hexports, hdemanded⟩ :=
            hadds.demanded [] j i after (by simpa using hrest.symm)
          refine ⟨object, name, hobject, hexports, ?_⟩
          rw [hbefore]
          simpa using hdemanded
      | cons o mid =>
          obtain ⟨rfl, -⟩ := List.cons.inj hrest
          obtain ⟨object, name, hobject, hexports, hdemanded⟩ :=
            h.demanded before j i mid horigins
          have hmem : ∀ origin ∈ before, origin ∈ origins := by
            intro origin horigin
            rw [horigins]
            exact List.mem_append_left _ horigin
          have hfound := h.found (.member j i) (by rw [horigins]; simp)
          refine ⟨object, name, ?_, hexports, ?_⟩
          · rw [(originObject_append hfound _).2]
            exact hobject
          · rw [objectsOf_append fun origin horigin => h.found origin (hmem origin horigin)]
            exact hdemanded
  · intro j members hj i member hmember hout name hexports
    rcases getElem?_snoc hj with ⟨hj', hj⟩ | ⟨rfl, heq⟩
    · have hnone : added.filter (fun o => o.input ≤ j) = [] := by
        rw [List.filter_eq_nil_iff]
        intro origin horigin
        rw [(hadds.found origin horigin).1]
        simpa using hj'
      rw [List.filter_append, hnone, List.append_nil, objectsOf_append]
      · refine h.left j members hj i member hmember ?_ name hexports
        exact fun hin => hout (List.mem_append_left _ hin)
      · exact fun origin horigin => h.found origin (List.mem_of_mem_filter horigin)
    · have hall : (origins ++ added).filter (fun o => o.input ≤ inputs.length) =
          origins ++ added := by
        rw [List.filter_eq_self]
        intro origin horigin
        rcases List.mem_append.mp horigin with horigin | horigin
        · simpa using (hlt origin horigin).le
        · simp [(hadds.found origin horigin).1]
      rw [hall]
      refine hadds.left members heq.symm i member hmember ?_ name hexports
      exact fun hin => hout (List.mem_append_right _ hin)

theorem adds_direct (object : ObjectFile) :
    Adds inputs entry origins (.object object) [.direct inputs.length] := by
  refine ⟨?_, List.nodup_singleton _, fun _ _ => List.mem_singleton_self _, ?_, nofun⟩
  · intro origin horigin
    rw [List.mem_singleton] at horigin
    subst horigin
    exact ⟨rfl, by simp [originObject]⟩
  · intro before j i after heq
    have hmem : Origin.member j i ∈ [Origin.direct inputs.length] := by
      rw [heq]
      simp
    cases List.mem_singleton.mp hmem

theorem originObject_member (members : List ArchiveObject) (i : Nat) :
    originObject (inputs ++ [.archive members]) (.member inputs.length i) =
      members[i]?.map ArchiveObject.object := by
  simp [originObject]

theorem objectsOf_members (h : ∀ origin ∈ origins, (originObject inputs origin).isSome = true)
    (members : List ArchiveObject) (picked : List Nat) :
    objectsOf (inputs ++ [.archive members])
        (origins ++ picked.map (Origin.member inputs.length)) =
      objectsOf inputs origins ++ memberObjects members picked := by
  have hpicked : objectsOf (inputs ++ [.archive members])
      (picked.map (Origin.member inputs.length)) = memberObjects members picked := by
    unfold objectsOf memberObjects
    rw [List.filterMap_map]
    exact List.filterMap_congr fun i _ => originObject_member members i
  rw [← hpicked, ← objectsOf_append h [.archive members]]
  exact List.filterMap_append

theorem adds_archive (hfound : ∀ origin ∈ origins, (originObject inputs origin).isSome = true)
    {picked : List Nat} (h : Extraction entry members (objectsOf inputs origins) [] picked) :
    Adds inputs entry origins (.archive members) (picked.map (Origin.member inputs.length)) := by
  refine ⟨?_, ?_, nofun, ?_, ?_⟩
  · intro origin horigin
    obtain ⟨i, hi, rfl⟩ := List.mem_map.mp horigin
    rw [originObject_member]
    exact ⟨rfl, by simp [h.found i hi]⟩
  · exact h.nodup.map fun i j hij => (Origin.member.inj hij).2
  · intro before j i after heq
    obtain ⟨earlier, rest, hpicked, hbefore, hrest⟩ := List.map_eq_append_iff.mp heq
    obtain ⟨i', later, rfl, hi', -⟩ := List.map_eq_cons_iff.mp hrest
    obtain ⟨rfl, rfl⟩ := Origin.member.inj hi'
    obtain ⟨member, name, hmember, hexports, hdemanded⟩ := h.demanded earlier i' later hpicked
    refine ⟨member.object, name, ?_, hexports, ?_⟩
    · rw [originObject_member, hmember]
      rfl
    · rw [← hbefore, objectsOf_members hfound]
      exact hdemanded
  · intro members' heq i member hmember hout name hexports
    cases heq
    rw [objectsOf_members hfound]
    refine h.left i member hmember (List.not_mem_nil) (fun hi => ?_) name hexports
    exact hout (List.mem_map_of_mem hi)

theorem selectInput_ok {input : LinkInput} (h : Selects inputs entry origins)
    (hs : s.selected = objectsOf inputs origins)
    (hrun : selectInput entry maxBytes input s = .ok u s') :
    ∃ added, Adds inputs entry origins input added ∧
      s'.selected = objectsOf (inputs ++ [input]) (origins ++ added) := by
  cases input with
  | object object =>
      refine ⟨_, adds_direct object, ?_⟩
      unfold selectInput at hrun
      obtain ⟨_, t, hget, htail⟩ := bind_run_ok_iff.mp hrun
      cases hget
      obtain ⟨_, t, hrequire, hpush⟩ := bind_run_ok_iff.mp htail
      obtain ⟨-, rfl⟩ := require_run_ok_iff.mp hrequire
      obtain ⟨_, w, hpay, hmodify⟩ := bind_run_ok_iff.mp hpush
      cases hmodify
      have happend : objectsOf (inputs ++ [.object object]) (origins ++ [.direct inputs.length]) =
          objectsOf inputs origins ++ [object] := by
        rw [← objectsOf_append h.found [.object object]]
        simp [objectsOf, originObject]
      rw [happend, ← hs, ← checkPayload_ok hpay]
  | archive members =>
      have hrounds : members.length < ([] : List Nat).length + (members.length + 1) := by
        rw [List.length_nil]
        omega
      obtain ⟨picked, hpicked, hafter⟩ := extract_ok hrun List.nodup_nil nofun hrounds
      rw [hs] at hpicked hafter
      exact ⟨_, adds_archive h.found hpicked, by rw [hafter, objectsOf_members h.found]⟩

theorem selectInputs_ok {inputs rest : List LinkInput} (h : Selects inputs entry origins)
    (hs : s.selected = objectsOf inputs origins)
    (hrun : rest.forM (selectInput entry maxBytes) s = .ok u s') :
    ∃ origins', Selects (inputs ++ rest) entry origins' ∧
      s'.selected = objectsOf (inputs ++ rest) origins' := by
  induction rest generalizing inputs origins s with
  | nil =>
      cases hrun
      rw [List.append_nil]
      exact ⟨origins, h, hs⟩
  | cons input rest ih =>
      rw [List.forM_eq_forM, List.forM_cons] at hrun
      obtain ⟨_, t, hinput, hrun⟩ := bind_run_ok_iff.mp hrun
      obtain ⟨added, hadds, ht⟩ := selectInput_ok h hs hinput
      have hsplit : inputs ++ input :: rest = (inputs ++ [input]) ++ rest := by simp
      rw [hsplit]
      exact ih (h.snoc hadds) ht hrun

/-- **Selection** keeps the direct objects, in order, and extracts the members that were
demanded, until nothing of an archive is. -/
theorem select_selects (inputs : List LinkInput) (entry : String) (maxBytes : Nat)
    (objects : List ObjectFile) (h : select inputs entry maxBytes = .ok objects) :
    ∃ origins, Selects inputs entry origins ∧ objects = objectsOf inputs origins := by
  unfold select at h
  have hempty : Selects [] entry [] := by
    refine ⟨nofun, List.Pairwise.nil, List.nodup_nil, nofun, ?_, nofun⟩
    intro before j i after heq
    cases before <;> cases heq
  cases hrun : inputs.forM (selectInput entry maxBytes)
      { selected := [], fuel := 10000000, payloadBytes := 0 } with
  | error e t =>
      simp only [hrun] at h
      cases h
  | ok u t =>
      simp only [hrun] at h
      cases h
      exact selectInputs_ok hempty rfl hrun

/-- The members of the archive call one another backwards. -/
def chainedInputs : List LinkInput :=
  [.object (callingObject "_start" "second"),
    .archive
      [{ name := "first.o", object := callingObject "first" "_start" },
        { name := "second.o", object := callingObject "second" "first" }]]

theorem select_selects_chainedInputs :
    ∃ objects origins, select chainedInputs "_start" 65536 = .ok objects ∧
      objects.length = 3 ∧ Selects chainedInputs "_start" origins ∧
      objects = objectsOf chainedInputs origins := by
  have hcount : (select chainedInputs "_start" 65536).toOption.map List.length = some 3 := by
    decide +kernel
  cases h : select chainedInputs "_start" 65536 with
  | error e =>
      rw [h] at hcount
      cases hcount
  | ok objects =>
      rw [h] at hcount
      obtain ⟨origins, hselects, hobjects⟩ := select_selects _ _ _ objects h
      exact ⟨objects, origins, rfl, Option.some.inj hcount, hselects, hobjects⟩

end Whale.Linker
