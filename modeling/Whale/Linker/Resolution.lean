import Whale.Linker.Demand
import Whale.Object.Valid

set_option autoImplicit false

/-! # When every reference resolves

The symbol table of valid objects without two strong definitions of a name holds exactly the
keys that are defined (`addDefinitions_ok`), so `resolve` succeeds exactly when every
relocation finds its key or is weak (`resolve_isOk_iff`). The scan behind archive selection
asks the same question of names. The two agree but for a relocation that names a symbol its
own object declares local without defining it, when another object exports that name
(`unresolved_nil_iff_resolve`). -/

namespace Whale.Linker

/-! ## Definitions -/

variable {object : ObjectFile}

/-- The definitions of the objects, with the index of their object. -/
def definitionsOf (objects : List (ObjectFile × Nat)) : List (Nat × ObjectSymbol) :=
  objects.flatMap fun e => (e.1.symbols.filter (·.sectionIndex.isSome)).map (e.2, ·)

def definitionKey (d : Nat × ObjectSymbol) : SymbolKey := symbolKey d.1 d.2.binding d.2.name

/-- Two definitions of one key are neither local nor both strong. -/
def Compatible (a b : Nat × ObjectSymbol) : Prop :=
  definitionKey a = definitionKey b →
    b.2.binding ≠ .local ∧ ¬ (a.2.binding = .global ∧ b.2.binding = .global)

/-- The table holds the keys of the definitions `done`, each with the binding of one of
them. -/
structure Holds (symbols : AssocMap SymbolKey ResolvedSymbol) (done : List (Nat × ObjectSymbol)) :
    Prop where
  keys : ∀ key, (symbols.get key).isSome = true ↔ ∃ d ∈ done, definitionKey d = key
  binding : ∀ key r, symbols.get key = some r →
    ∃ d ∈ done, definitionKey d = key ∧ d.2.binding = r.binding

variable {symbols : AssocMap SymbolKey ResolvedSymbol} {done : List (Nat × ObjectSymbol)}
  {d : Nat × ObjectSymbol}

/-- Setting the key of a definition adds that definition. -/
theorem Holds.insert (h : Holds symbols done) {r : ResolvedSymbol} (hr : r.binding = d.2.binding) :
    Holds (symbols.insert (definitionKey d) r) (done ++ [d]) := by
  constructor
  · intro key
    rw [AssocMap.get_insert]
    by_cases hkey : key = definitionKey d
    · simp only [hkey, if_true, Option.isSome_some, true_iff]
      exact ⟨d, by simp, rfl⟩
    · rw [if_neg hkey, h.keys key]
      constructor
      · rintro ⟨e, he, hekey⟩
        exact ⟨e, List.mem_append_left _ he, hekey⟩
      · rintro ⟨e, he, hekey⟩
        rcases List.mem_append.mp he with he | he
        · exact ⟨e, he, hekey⟩
        · cases List.mem_singleton.mp he
          exact absurd hekey.symm hkey
  · intro key r' hget
    rw [AssocMap.get_insert] at hget
    by_cases hkey : key = definitionKey d
    · rw [if_pos hkey] at hget
      cases hget
      exact ⟨d, by simp, hkey.symm, hr.symm⟩
    · rw [if_neg hkey] at hget
      obtain ⟨e, he, hrest⟩ := h.binding key r' hget
      exact ⟨e, List.mem_append_left _ he, hrest⟩

/-- A table that already has the key of a definition holds that definition too. -/
theorem Holds.keep (h : Holds symbols done) (hd : (symbols.get (definitionKey d)).isSome = true) :
    Holds symbols (done ++ [d]) := by
  constructor
  · intro key
    rw [h.keys key]
    constructor
    · rintro ⟨e, he, hekey⟩
      exact ⟨e, List.mem_append_left _ he, hekey⟩
    · rintro ⟨e, he, rfl⟩
      rcases List.mem_append.mp he with he | he
      · exact ⟨e, he, rfl⟩
      · cases List.mem_singleton.mp he
        exact (h.keys _).mp hd
  · intro key r hget
    obtain ⟨e, he, hrest⟩ := h.binding key r hget
    exact ⟨e, List.mem_append_left _ he, hrest⟩

/-- The entry of a definition. -/
def definedSymbol (i : Nat) (sym : ObjectSymbol) : ResolvedSymbol where
  name := sym.name
  objectIndex := some i
  sectionIndex := sym.sectionIndex
  value := sym.value
  size := sym.size
  binding := sym.binding
  kind := sym.kind
  visibility := sym.visibility

variable {sym : ObjectSymbol}

/-- A definition whose key is new is taken. -/
theorem addDefinition_new {i : Nat} (h : symbols.get (definitionKey (i, sym)) = none) :
    addDefinition i symbols sym =
      .ok (symbols.insert (definitionKey (i, sym)) (definedSymbol i sym)) := by
  have hkey : symbolKey i sym.binding sym.name = definitionKey (i, sym) := rfl
  simp only [addDefinition, hkey, h]
  rfl

/-- A second definition of an exported key replaces the first or is ignored, unless both are
strong. -/
theorem addDefinition_again {i : Nat} {existing : ResolvedSymbol}
    (h : symbols.get (definitionKey (i, sym)) = some existing) (hlocal : sym.binding ≠ .local)
    (hstrong : ¬ (existing.binding = .global ∧ sym.binding = .global)) :
    addDefinition i symbols sym = .ok symbols ∨
      addDefinition i symbols sym =
        .ok (symbols.insert (definitionKey (i, sym)) (definedSymbol i sym)) := by
  have hkey : symbolKey i sym.binding sym.name = definitionKey (i, sym) := rfl
  simp only [addDefinition, hkey, h, if_neg hlocal]
  split
  · rename_i hexisting hsym
    exact absurd ⟨hexisting, hsym⟩ hstrong
  · exact .inl rfl
  · exact .inl rfl
  · exact .inr rfl

/-- One definition that is compatible with those before it is taken. -/
theorem addDefinition_ok (h : Holds symbols done) {i : Nat}
    (hcompat : ∀ a ∈ done, Compatible a (i, sym)) :
    ∃ symbols', addDefinition i symbols sym = .ok symbols' ∧
      Holds symbols' (done ++ [(i, sym)]) := by
  have hbinding : (definedSymbol i sym).binding = sym.binding := rfl
  cases hget : symbols.get (definitionKey (i, sym)) with
  | none => exact ⟨_, addDefinition_new hget, h.insert hbinding⟩
  | some existing =>
      obtain ⟨d, hd, hdkey, hdbinding⟩ := h.binding _ _ hget
      obtain ⟨hlocal, hstrong⟩ := hcompat d hd hdkey
      rw [hdbinding] at hstrong
      have hsome : (symbols.get (definitionKey (i, sym))).isSome = true := by
        rw [hget]
        rfl
      rcases addDefinition_again hget hlocal hstrong with heq | heq
      · exact ⟨_, heq, h.keep hsome⟩
      · exact ⟨_, heq, h.insert hbinding⟩

variable {e : ObjectFile × Nat}

theorem addDefinitions_ok (h : Holds symbols done) {news : List ObjectSymbol}
    (hcompat : (done ++ news.map (e.2, ·)).Pairwise Compatible) :
    ∃ symbols', news.foldlM (addDefinition e.2) symbols = .ok symbols' ∧
      Holds symbols' (done ++ news.map (e.2, ·)) := by
  induction news generalizing symbols done with
  | nil => exact ⟨symbols, rfl, by simpa using h⟩
  | cons sym news ih =>
      have hsplit : done ++ (sym :: news).map (e.2, ·) =
          (done ++ [(e.2, sym)]) ++ news.map (e.2, ·) := by simp
      rw [hsplit] at hcompat ⊢
      have hfirst := (List.pairwise_append.mp hcompat).1
      obtain ⟨symbols', hadd, hholds⟩ := addDefinition_ok h fun a ha =>
        (List.pairwise_append.mp hfirst).2.2 a ha _ (List.mem_singleton_self _)
      obtain ⟨symbols'', hrest, hall⟩ := ih hholds hcompat
      exact ⟨symbols'', foldlM_cons_ok.mpr ⟨symbols', hadd, hrest⟩, hall⟩

variable {es : List (ObjectFile × Nat)}

theorem foldlM_addDefinitions_ok (h : Holds symbols done)
    (hcompat : (done ++ definitionsOf es).Pairwise Compatible) :
    ∃ symbols', es.foldlM addDefinitions symbols = .ok symbols' ∧
      Holds symbols' (done ++ definitionsOf es) := by
  induction es generalizing symbols done with
  | nil => exact ⟨symbols, rfl, by simpa [definitionsOf] using h⟩
  | cons e es ih =>
      have hsplit : done ++ definitionsOf (e :: es) =
          (done ++ (e.1.symbols.filter (·.sectionIndex.isSome)).map (e.2, ·)) ++
            definitionsOf es := by
        simp [definitionsOf]
      rw [hsplit] at hcompat ⊢
      obtain ⟨symbols', hobject, hholds⟩ :=
        addDefinitions_ok h (List.pairwise_append.mp hcompat).1
      obtain ⟨symbols'', hrest, hall⟩ := ih hholds hcompat
      exact ⟨symbols'', foldlM_cons_ok.mpr ⟨symbols', hobject, hrest⟩, hall⟩

/-! ### Definitions that do not clash -/

/-- A strong definition. -/
def isStrong (s : ObjectSymbol) : Bool := s.sectionIndex.isSome && s.binding = .global

/-- No name has two strong definitions. -/
def StrongUnique (objects : List ObjectFile) : Prop :=
  (((objects.flatMap ObjectFile.symbols).filter isStrong).map ObjectSymbol.name).Nodup

theorem definitionKey_local (h : d.2.binding = .local) : definitionKey d = .local d.1 d.2.name := by
  simp [definitionKey, symbolKey, h]

theorem definitionKey_global (h : d.2.binding ≠ .local) : definitionKey d = .global d.2.name := by
  simp [definitionKey, symbolKey, h]

/-- Equal keys name the same symbol, and a local one of the same object. -/
theorem definitionKey_inj {a b : Nat × ObjectSymbol} (h : definitionKey a = definitionKey b) :
    a.2.name = b.2.name ∧ (b.2.binding = .local → a.1 = b.1) := by
  by_cases ha : a.2.binding = .local <;> by_cases hb : b.2.binding = .local
  · rw [definitionKey_local ha, definitionKey_local hb] at h
    obtain ⟨hindex, hname⟩ := SymbolKey.local.inj h
    exact ⟨hname, fun _ => hindex⟩
  · rw [definitionKey_local ha, definitionKey_global hb] at h
    cases h
  · rw [definitionKey_global ha, definitionKey_local hb] at h
    cases h
  · rw [definitionKey_global ha, definitionKey_global hb] at h
    exact ⟨SymbolKey.global.inj h, fun hlocal => absurd hlocal hb⟩

theorem pairwise_local (hindices : (es.map Prod.snd).Nodup)
    (hnames : ∀ e ∈ es, (e.1.symbols.map ObjectSymbol.name).Nodup) :
    (definitionsOf es).Pairwise fun a b =>
      definitionKey a = definitionKey b → b.2.binding ≠ .local := by
  refine List.pairwise_flatMap.mpr ⟨fun e he => ?_, ?_⟩
  · rw [List.pairwise_map]
    have hdistinct := List.pairwise_map.mp (hnames e he)
    refine List.Pairwise.imp ?_ (hdistinct.sublist List.filter_sublist)
    exact fun {a b} hne hkey _ => hne (definitionKey_inj hkey).1
  · refine List.Pairwise.imp ?_ (List.pairwise_map.mp hindices)
    intro e e' hne a ha b hb hkey hlocal
    obtain ⟨_, -, rfl⟩ := List.mem_map.mp ha
    obtain ⟨_, -, rfl⟩ := List.mem_map.mp hb
    exact hne ((definitionKey_inj hkey).2 hlocal)

theorem map_definitionsOf (objects : List ObjectFile) (k : Nat) :
    (definitionsOf (objects.zipIdx k)).map Prod.snd =
      (objects.flatMap ObjectFile.symbols).filter (·.sectionIndex.isSome) := by
  induction objects generalizing k with
  | nil => rfl
  | cons o objects ih =>
      have hrest := ih (k + 1)
      unfold definitionsOf at hrest ⊢
      rw [List.zipIdx_cons, List.flatMap_cons, List.map_append, hrest, List.flatMap_cons,
        List.filter_append, List.map_map]
      simp [Function.comp_def]

variable {objects : List ObjectFile}

theorem pairwise_strong (h : StrongUnique objects) :
    (definitionsOf objects.zipIdx).Pairwise fun a b =>
      definitionKey a = definitionKey b → ¬ (a.2.binding = .global ∧ b.2.binding = .global) := by
  have hdistinct := List.pairwise_filter.mp (List.pairwise_map.mp h)
  have hfiltered := hdistinct.sublist (List.filter_sublist (p := (·.sectionIndex.isSome)))
  rw [← map_definitionsOf objects 0, List.pairwise_map] at hfiltered
  refine List.Pairwise.imp_of_mem ?_ hfiltered
  rintro a b ha hb hne hkey ⟨hastrong, hbstrong⟩
  have hdefined : ∀ d ∈ definitionsOf objects.zipIdx, d.2.sectionIndex.isSome = true := by
    intro d hd
    have hmem := List.mem_map_of_mem (f := Prod.snd) hd
    rw [map_definitionsOf] at hmem
    simpa using (List.mem_filter.mp hmem).2
  refine hne ?_ ?_ (definitionKey_inj hkey).1
  · simp [isStrong, hdefined a ha, hastrong]
  · simp [isStrong, hdefined b hb, hbstrong]

theorem definitions_compatible (hnames : ∀ o ∈ objects, (o.symbols.map ObjectSymbol.name).Nodup)
    (hstrong : StrongUnique objects) : (definitionsOf objects.zipIdx).Pairwise Compatible := by
  have hindices : (objects.zipIdx.map Prod.snd).Nodup := by
    rw [List.zipIdx_map_snd]
    exact List.nodup_range'
  have hlocal := pairwise_local hindices fun e he =>
    hnames e.1 (List.fst_mem_of_mem_zipIdx he)
  refine (hlocal.and (pairwise_strong hstrong)).imp ?_
  exact fun ⟨hl, hs⟩ hkey => ⟨hl hkey, hs hkey⟩

/-! ## References -/

/-- The object declares the name as a local symbol without a definition. -/
def LocalUndefined (object : ObjectFile) (name : String) : Prop :=
  ∃ symbol ∈ object.symbols, symbol.name = name ∧ symbol.binding = .local ∧
    symbol.sectionIndex = none

/-- The declaration `resolve` finds for a name. -/
def declarationOf (object : ObjectFile) (name : String) : Option ObjectSymbol :=
  AssocMap.get name (AssocMap.extend [] (object.symbols.map fun s => (s.name, s)))

variable {name : String}

theorem declarationOf_eq_some (hnames : (object.symbols.map ObjectSymbol.name).Nodup)
    {d : ObjectSymbol} :
    declarationOf object name = some d ↔ d ∈ object.symbols ∧ d.name = name := by
  have hunique : AssocMap.UniqueKeys (object.symbols.map fun s => (s.name, s)) := by
    unfold AssocMap.UniqueKeys
    rw [List.map_map]
    exact hnames
  unfold declarationOf
  rw [AssocMap.get_extend hunique, AssocMap.get_nil, Option.or_none]
  constructor
  · intro h
    obtain ⟨s, hs, heq⟩ := List.mem_map.mp (AssocMap.mem_of_get h)
    cases heq
    exact ⟨hs, rfl⟩
  · rintro ⟨hd, rfl⟩
    exact AssocMap.get_of_mem hunique (List.mem_map.mpr ⟨d, hd, rfl⟩)

/-- The key a reference is looked up under. -/
def referenceKey (object : ObjectFile) (i : Nat) (name : String) : SymbolKey :=
  if (declarationOf object name).any (·.binding = .local) then .local i name else .global name

/-- The reference has a definition, or is weak. -/
def Resolves (symbols : AssocMap SymbolKey ResolvedSymbol) (object : ObjectFile) (i : Nat)
    (name : String) : Prop :=
  (symbols.get (referenceKey object i name)).isSome = true ∨
    (declarationOf object name).any (·.binding = .weak) = true

theorem addReference_isOk {i : Nat} (c : Collected) (reloc : ObjectRelocation) :
    (∃ c', addReference symbols object i c reloc = .ok c') ↔
      Resolves symbols object i reloc.symbol := by
  have hcond : ¬ ((symbols.get (referenceKey object i reloc.symbol)).isNone = true ∧
      (declarationOf object reloc.symbol).any (·.binding = .weak) = false) ↔
      Resolves symbols object i reloc.symbol := by
    unfold Resolves
    rw [not_and_or, Bool.not_eq_true, Option.isNone_eq_false_iff, Bool.not_eq_false]
  rw [← hcond]
  constructor
  · rintro ⟨c', h⟩
    obtain ⟨_, hrequire, -⟩ := bind_ok_iff.mp h
    exact require_ok_iff.mp hrequire
  · intro h
    exact ⟨_, bind_ok_iff.mpr ⟨(), require_of h _, rfl⟩⟩

theorem foldlM_isOk_iff {ε α β : Type} {f : β → α → Except ε β} {P : α → Prop} {xs : List α}
    (h : ∀ b, ∀ a ∈ xs, (∃ b', f b a = .ok b') ↔ P a) (b : β) :
    (∃ b', xs.foldlM f b = .ok b') ↔ ∀ a ∈ xs, P a := by
  induction xs generalizing b with
  | nil => exact ⟨fun _ _ hmem => (nomatch hmem), fun _ => ⟨b, rfl⟩⟩
  | cons x xs ih =>
      have htail := fun b => ih (fun b a ha => h b a (List.mem_cons_of_mem _ ha)) b
      rw [List.forall_mem_cons, ← h b x List.mem_cons_self]
      constructor
      · rintro ⟨c, hc⟩
        obtain ⟨b', hb', hrest⟩ := foldlM_cons_ok.mp hc
        exact ⟨⟨b', hb'⟩, (htail b').mp ⟨c, hrest⟩⟩
      · rintro ⟨⟨b', hb'⟩, hrest⟩
        obtain ⟨c, hc⟩ := (htail b').mpr hrest
        exact ⟨c, foldlM_cons_ok.mpr ⟨b', hb', hc⟩⟩

theorem foldlM_addReferences_isOk {c : Collected} :
    (∃ c', es.foldlM (addReferences symbols) c = .ok c') ↔
      ∀ e ∈ es, ∀ r ∈ e.1.relocations, Resolves symbols e.1 e.2 r.symbol := by
  have hobject : ∀ (c : Collected) (e : ObjectFile × Nat),
      (∃ c', addReferences symbols c e = .ok c') ↔
        ∀ r ∈ e.1.relocations, Resolves symbols e.1 e.2 r.symbol := by
    intro c e
    unfold addReferences
    exact foldlM_isOk_iff (fun c r _ => addReference_isOk c r) c
  exact foldlM_isOk_iff (fun c e _ => hobject c e) c

/-- Objects that pass the checks. -/
def Accepted (objects : List ObjectFile) : Prop :=
  ∀ o ∈ objects, o.target.validateAmd64 = .ok () ∧ o.validate = .ok ()

theorem Accepted.names (h : Accepted objects) :
    ∀ o ∈ objects, (o.symbols.map ObjectSymbol.name).Nodup :=
  fun o ho => ObjectFile.validate_unique (h o ho).2

theorem checkInputs_iff : objects.zipIdx.forM checkInput = .ok () ↔ Accepted objects := by
  have hcheck : ∀ e, checkInput e = .ok () ↔
      e.1.target.validateAmd64 = .ok () ∧ e.1.validate = .ok () := by
    intro e
    unfold checkInput
    cases e.1.target.validateAmd64 <;> cases e.1.validate <;> simp
  rw [forM_ok_iff]
  refine ⟨fun h o ho => ?_, fun h e he => (hcheck e).mpr (h e.1 (List.fst_mem_of_mem_zipIdx he))⟩
  obtain ⟨i, hi⟩ := List.getElem?_of_mem ho
  exact (hcheck (o, i)).mp (h _ (List.mk_mem_zipIdx_iff_getElem?.mpr hi))

/-- What the object itself says about a name settles it, or another object exports it. -/
def Settled (objects : List ObjectFile) (object : ObjectFile) (name : String) : Prop :=
  (∃ symbol ∈ object.symbols, symbol.name = name ∧ SelfSufficient symbol) ∨
    (∃ o ∈ objects, Exports o name) ∧ ¬ LocalUndefined object name

/-- The keys of the table, in terms of the objects. -/
theorem Holds.get_global (h : Holds symbols (definitionsOf objects.zipIdx)) :
    (symbols.get (.global name)).isSome = true ↔ ∃ o ∈ objects, Exports o name := by
  rw [h.keys]
  constructor
  · rintro ⟨d, hd, hkey⟩
    obtain ⟨e, he, hd⟩ := List.mem_flatMap.mp hd
    obtain ⟨s, hs, rfl⟩ := List.mem_map.mp hd
    obtain ⟨hs, hdefined⟩ := List.mem_filter.mp hs
    by_cases hlocal : s.binding = .local
    · rw [definitionKey_local (d := (e.2, s)) hlocal] at hkey
      cases hkey
    · rw [definitionKey_global (d := (e.2, s)) hlocal] at hkey
      refine ⟨e.1, List.fst_mem_of_mem_zipIdx he, s, hs, ?_, SymbolKey.global.inj hkey⟩
      simp [exports, hdefined, hlocal]
  · rintro ⟨o, ho, s, hs, hexports, rfl⟩
    obtain ⟨i, hi⟩ := List.mem_iff_getElem?.mp ho
    unfold exports at hexports
    rw [Bool.and_eq_true, decide_eq_true_eq] at hexports
    refine ⟨(i, s), List.mem_flatMap.mpr ⟨(o, i), ?_, ?_⟩, definitionKey_global hexports.2⟩
    · exact List.mk_mem_zipIdx_iff_getElem?.mpr hi
    · exact List.mem_map.mpr ⟨s, List.mem_filter.mpr ⟨hs, hexports.1⟩, rfl⟩

theorem Holds.get_local (h : Holds symbols (definitionsOf objects.zipIdx)) (he : e ∈ objects.zipIdx)
    :
    (symbols.get (.local e.2 name)).isSome = true ↔
      ∃ s ∈ e.1.symbols, s.name = name ∧ s.binding = .local ∧ s.sectionIndex.isSome = true := by
  rw [h.keys]
  constructor
  · rintro ⟨d, hd, hkey⟩
    obtain ⟨e', he', hd⟩ := List.mem_flatMap.mp hd
    obtain ⟨s, hs, rfl⟩ := List.mem_map.mp hd
    obtain ⟨hs, hdefined⟩ := List.mem_filter.mp hs
    by_cases hlocal : s.binding = .local
    · rw [definitionKey_local (d := (e'.2, s)) hlocal] at hkey
      obtain ⟨hindex, hname⟩ := SymbolKey.local.inj hkey
      have hsame : e'.1 = e.1 := by
        have h' := List.mem_zipIdx_iff_getElem?.mp he'
        have h'' := List.mem_zipIdx_iff_getElem?.mp he
        rw [show e'.2 = e.2 from hindex, h''] at h'
        exact (Option.some.inj h').symm
      exact ⟨s, hsame ▸ hs, hname, hlocal, hdefined⟩
    · rw [definitionKey_global (d := (e'.2, s)) hlocal] at hkey
      cases hkey
  · rintro ⟨s, hs, rfl, hlocal, hdefined⟩
    refine ⟨(e.2, s), List.mem_flatMap.mpr ⟨e, he, ?_⟩, definitionKey_local hlocal⟩
    exact List.mem_map.mpr ⟨s, List.mem_filter.mpr ⟨hs, hdefined⟩, rfl⟩

/-- A declared name is settled by its only declaration. -/
theorem settled_declared (hnames : (object.symbols.map ObjectSymbol.name).Nodup) {d : ObjectSymbol}
    (hd : declarationOf object name = some d) :
    Settled objects object name ↔
      SelfSufficient d ∨ (∃ o ∈ objects, Exports o name) ∧
        ¬ (d.binding = .local ∧ d.sectionIndex = none) := by
  obtain ⟨hmem, hname⟩ := (declarationOf_eq_some hnames).mp hd
  have honly : ∀ s ∈ object.symbols, s.name = name → s = d := by
    intro s hs hsname
    have hsome := (declarationOf_eq_some hnames).mpr ⟨hs, hsname⟩
    rw [hd] at hsome
    exact (Option.some.inj hsome).symm
  have hself : (∃ s ∈ object.symbols, s.name = name ∧ SelfSufficient s) ↔ SelfSufficient d := by
    constructor
    · rintro ⟨s, hs, hsname, h⟩
      exact honly s hs hsname ▸ h
    · exact fun h => ⟨d, hmem, hname, h⟩
  have hundefined : LocalUndefined object name ↔ d.binding = .local ∧ d.sectionIndex = none := by
    constructor
    · rintro ⟨s, hs, hsname, h⟩
      exact honly s hs hsname ▸ h
    · exact fun h => ⟨d, hmem, hname, h⟩
  rw [Settled, hself, hundefined]

/-- A reference resolves exactly when its name is settled. -/
theorem resolves_iff_settled (h : Holds symbols (definitionsOf objects.zipIdx))
    (he : e ∈ objects.zipIdx) (hnames : (e.1.symbols.map ObjectSymbol.name).Nodup) (name : String) :
    Resolves symbols e.1 e.2 name ↔ Settled objects e.1 name := by
  cases hd : declarationOf e.1 name with
  | none =>
      have habsent : ∀ s ∈ e.1.symbols, s.name ≠ name := by
        intro s hs hsname
        have hsome := (declarationOf_eq_some hnames).mpr ⟨hs, hsname⟩
        rw [hd] at hsome
        cases hsome
      have hself : ¬ ∃ s ∈ e.1.symbols, s.name = name ∧ SelfSufficient s := by
        rintro ⟨s, hs, hsname, -⟩
        exact habsent s hs hsname
      have hundefined : ¬ LocalUndefined e.1 name := by
        rintro ⟨s, hs, hsname, -⟩
        exact habsent s hs hsname
      simp [Resolves, referenceKey, hd, h.get_global, Settled, hself, hundefined]
  | some d =>
      obtain ⟨hmem, hname⟩ := (declarationOf_eq_some hnames).mp hd
      rw [settled_declared hnames hd, SelfSufficient]
      -- A local name needs its own object, a global one any object, a weak one none.
      cases hbinding : d.binding with
      | «local» =>
          have hkey : (symbols.get (.local e.2 name)).isSome = true ↔
              d.sectionIndex.isSome = true := by
            rw [h.get_local he]
            constructor
            · rintro ⟨s, hs, hsname, -, hdefined⟩
              have hsome := (declarationOf_eq_some hnames).mpr ⟨hs, hsname⟩
              rw [hd] at hsome
              exact Option.some.inj hsome ▸ hdefined
            · exact fun hdefined => ⟨d, hmem, hname, hbinding, hdefined⟩
          cases hsection : d.sectionIndex <;>
            simp [Resolves, referenceKey, hd, hbinding, hkey, hsection]
      | global => simp [Resolves, referenceKey, hd, hbinding, h.get_global]
      | weak =>
          cases hsection : d.sectionIndex with
          | none => simp [Resolves, hd, hbinding]
          | some i =>
              have hexports : Exports e.1 name := by
                refine ⟨d, hmem, ?_, hname⟩
                simp [exports, hsection, hbinding]
              simp only [Resolves, hd, Option.any_some, hbinding, decide_true, or_true, true_iff]
              refine .inr ⟨⟨e.1, List.fst_mem_of_mem_zipIdx he, hexports⟩, ?_⟩
              rintro ⟨⟨⟩, -⟩

/-- Resolution succeeds exactly when every relocation names a settled symbol. -/
theorem resolve_isOk_iff (h : Accepted objects) (hstrong : StrongUnique objects) :
    (∃ table, resolve objects = .ok table) ↔
      ∀ o ∈ objects, ∀ r ∈ o.relocations, Settled objects o r.symbol := by
  have hempty : Holds [] [] := ⟨fun _ => ⟨nofun, nofun⟩, nofun⟩
  obtain ⟨symbols, hdefinitions, hholds⟩ :=
    foldlM_addDefinitions_ok hempty (definitions_compatible h.names hstrong)
  have hreferences : (∃ table, resolve objects = .ok table) ↔
      ∃ c, objects.zipIdx.foldlM (addReferences symbols)
        { references := [], weakUndefined := [] } = .ok c := by
    unfold resolve
    rw [checkInputs_iff.mpr h, ok_bind, hdefinitions, ok_bind]
    constructor
    · rintro ⟨table, htable⟩
      obtain ⟨c, hc, -⟩ := bind_ok_iff.mp htable
      exact ⟨c, hc⟩
    · rintro ⟨c, hc⟩
      exact ⟨_, bind_ok_iff.mpr ⟨c, hc, rfl⟩⟩
  rw [hreferences, foldlM_addReferences_isOk]
  constructor
  · intro hall o ho r hr
    obtain ⟨i, hi⟩ := List.mem_iff_getElem?.mp ho
    have he : (o, i) ∈ objects.zipIdx := List.mk_mem_zipIdx_iff_getElem?.mpr hi
    exact (resolves_iff_settled hholds he (h.names o ho) _).mp (hall _ he r hr)
  · intro hall e he r hr
    have ho := List.fst_mem_of_mem_zipIdx he
    exact (resolves_iff_settled hholds he (h.names _ ho) _).mpr (hall _ ho r hr)

/-! ## Agreement with the selection's scan -/

/-- A relocation names a symbol that its object declares local and undefined, and that some
object exports. -/
def StrayLocal (objects : List ObjectFile) : Prop :=
  ∃ o ∈ objects, ∃ r ∈ o.relocations, LocalUndefined o r.symbol ∧
    ∃ o' ∈ objects, Exports o' r.symbol

/-- A relocation names a symbol that its object cannot supply and that no object exports. -/
def Dangling (objects : List ObjectFile) : Prop :=
  ∃ o ∈ objects, ∃ name, Demands o name ∧ ∀ o' ∈ objects, ¬ Exports o' name

theorem unresolvedNames_eq_nil_iff {entry : String} (hentry : ∃ o ∈ objects, Exports o entry) :
    unresolvedNames entry objects = [] ↔ ¬ Dangling objects := by
  rw [List.eq_nil_iff_forall_not_mem]
  simp only [mem_unresolvedNames]
  constructor
  · rintro hnone ⟨o, ho, name, hdemands, hexports⟩
    exact hnone name ⟨hexports, .inr ⟨o, ho, hdemands⟩⟩
  · rintro hno name ⟨hexports, rfl | ⟨o, ho, hdemands⟩⟩
    · obtain ⟨o, ho, hentry⟩ := hentry
      exact hexports o ho hentry
    · exact hno ⟨o, ho, name, hdemands, hexports⟩

/-- A local declaration without a definition is the only declaration of its name, so nothing
in the object supplies it. -/
theorem LocalUndefined.not_settled (hnames : (object.symbols.map ObjectSymbol.name).Nodup)
    (h : LocalUndefined object name) : ¬ Settled objects object name := by
  obtain ⟨d, hmem, hname, hlocal, hsection⟩ := h
  have hd := (declarationOf_eq_some hnames).mpr ⟨hmem, hname⟩
  rw [settled_declared hnames hd, SelfSufficient]
  simp [hlocal, hsection]

/-- Every reference is settled exactly when none dangles and none is a stray local. -/
theorem settled_iff (h : Accepted objects) :
    (∀ o ∈ objects, ∀ r ∈ o.relocations, Settled objects o r.symbol) ↔
      ¬ Dangling objects ∧ ¬ StrayLocal objects := by
  constructor
  · intro hall
    refine ⟨?_, ?_⟩
    · rintro ⟨o, ho, name, ⟨⟨r, hr, rfl⟩, hself⟩, hexports⟩
      rcases hall o ho r hr with ⟨s, hs, hname, hsufficient⟩ | ⟨⟨o', ho', hexported⟩, -⟩
      · exact hself s hs hname hsufficient
      · exact hexports o' ho' hexported
    · rintro ⟨o, ho, r, hr, hundefined, -⟩
      exact hundefined.not_settled (h.names o ho) (hall o ho r hr)
  · rintro ⟨hdangling, hstray⟩ o ho r hr
    by_cases hself : ∃ s ∈ o.symbols, s.name = r.symbol ∧ SelfSufficient s
    · exact .inl hself
    · have hexported : ∃ o' ∈ objects, Exports o' r.symbol := by
        by_contra hnone
        refine hdangling ⟨o, ho, r.symbol, ⟨⟨r, hr, rfl⟩, ?_⟩, ?_⟩
        · exact fun s hs hname hsufficient => hself ⟨s, hs, hname, hsufficient⟩
        · exact fun o' ho' hexports => hnone ⟨o', ho', hexports⟩
      exact .inr ⟨hexported, fun hundefined => hstray ⟨o, ho, r, hr, hundefined, hexported⟩⟩

/-- **The scan for unresolved names agrees with resolution** exactly when a stray local is not
the only thing that is wrong. -/
theorem unresolved_nil_iff_resolve (objects : List ObjectFile) (entry : String)
    (h : Accepted objects) (hentry : ∃ o ∈ objects, Exports o entry)
    (hstrong : StrongUnique objects) (s : Selection) (hs : s.selected = objects)
    (hfuel : scanCost objects ≤ s.fuel) :
    ∃ names s', unresolved entry s = .ok names s' ∧
      ((names = [] ↔ ∃ table, resolve objects = .ok table) ↔
        (StrayLocal objects → Dangling objects)) := by
  subst hs
  refine ⟨_, _, unresolved_run hfuel, ?_⟩
  rw [unresolvedNames_eq_nil_iff hentry, resolve_isOk_iff h hstrong, settled_iff h]
  constructor
  · intro hagree hstray
    by_contra hdangling
    exact (hagree.mp hdangling).2 hstray
  · intro hcondition
    constructor
    · exact fun hdangling => ⟨hdangling, fun hstray => hdangling (hcondition hstray)⟩
    · exact fun hboth => hboth.1

theorem unresolved_nil_iff_resolve_calls :
    ∃ names s', unresolved "_start"
        { selected := [callingObject "_start" "helper", callingObject "helper" "_start"]
          fuel := 10000000, payloadBytes := 0 } = .ok names s' ∧
      ((names = [] ↔ ∃ table, resolve
          [callingObject "_start" "helper", callingObject "helper" "_start"] = .ok table) ↔
        (StrayLocal [callingObject "_start" "helper", callingObject "helper" "_start"] →
          Dangling [callingObject "_start" "helper", callingObject "helper" "_start"])) := by
  refine unresolved_nil_iff_resolve _ "_start" ?_ ?_ ?_ _ rfl (by decide +kernel)
  · unfold Accepted
    decide +kernel
  · unfold Exports
    decide +kernel
  · unfold StrongUnique
    decide +kernel

/-- The first object declares `helper` local without defining it; the second exports it. -/
def strayObjects : List ObjectFile :=
  [{ callingObject "_start" "helper" with
      symbols := (callingObject "_start" "helper").symbols ++
        [{ kind := .noType, name := "helper", sectionIndex := none, value := 0, size := 0
           binding := .local, visibility := .default }] },
    callingObject "helper" "_start"]

theorem strayObjects_disagree :
    Accepted strayObjects ∧ (∃ o ∈ strayObjects, Exports o "_start") ∧
      StrongUnique strayObjects ∧
      (∃ s', unresolved "_start"
        { selected := strayObjects, fuel := 10000000, payloadBytes := 0 } = .ok [] s') ∧
      ¬ ∃ table, resolve strayObjects = .ok table := by
  refine ⟨?_, ?_, ?_, ?_, ?_⟩
  · unfold Accepted
    decide +kernel
  · unfold Exports
    decide +kernel
  · unfold StrongUnique
    decide +kernel
  · exact ⟨_, rfl⟩
  · rintro ⟨table, htable⟩
    have hfails : (resolve strayObjects).toOption.isNone = true := by decide +kernel
    rw [htable] at hfails
    cases hfails

end Whale.Linker
