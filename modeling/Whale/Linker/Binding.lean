import Mathlib.Data.List.Find
import Mathlib.Data.List.Pairwise
import Whale.Linker.Resolution

set_option autoImplicit false

/-! # What a relocation is bound to

The rule by which a name finds its definition (`bindingOf`), stated over the objects alone, and
the table that `resolve` computes. -/

namespace Whale.Linker

/-! ## The rule -/

inductive Binding where
  | definition (objectIndex : Nat) (symbol : ObjectSymbol)
  /-- The zero value of a weak name without a definition. -/
  | null
  deriving DecidableEq

/-- The first definition of the name with the binding. -/
def definitionOf (objects : List ObjectFile) (binding : SymbolBinding) (name : String) :
    Option (Nat × ObjectSymbol) :=
  (definitionsOf objects.zipIdx).find? fun d => d.2.binding = binding ∧ d.2.name = name

/-- A local name is that of its own object. Any other is the strong definition, else the first
weak one, else zero where its own object declares it weak. -/
def bindingOf (objects : List ObjectFile) (object : ObjectFile) (i : Nat) (name : String) :
    Option Binding :=
  let declaration := object.symbols.find? (·.name = name)
  if declaration.any (·.binding = .local) then
    (declaration.filter (·.sectionIndex.isSome)).map (.definition i)
  else
    match definitionOf objects .global name, definitionOf objects .weak name with
    | some d, _ => some (.definition d.1 d.2)
    | none, some d => some (.definition d.1 d.2)
    | none, none => if declaration.any (·.binding = .weak) then some .null else none

/-- The entry of the symbol table for a binding of the name. -/
def Binding.Entry (name : String) (r : ResolvedSymbol) : Binding → Prop
  | .definition i symbol => r = definedSymbol i symbol
  | .null => r.name = name ∧ r.objectIndex = none ∧ r.sectionIndex = none ∧ r.value = 0 ∧
      r.size = 0 ∧ r.binding = .weak

/-- The relocations of the objects in input order, each with its object. -/
def relocationsOf (objects : List ObjectFile) : List ((ObjectFile × Nat) × ObjectRelocation) :=
  objects.zipIdx.flatMap fun e => e.1.relocations.map (e, ·)

/-- The reference stands for the relocation, and its target is what the rule says. -/
structure BoundTo (objects : List ObjectFile) (table : SymbolTable)
    (x : (ObjectFile × Nat) × ObjectRelocation) (ref : ResolvedReference) : Prop where
  site : ref.objectIndex = x.1.2 ∧ ref.sectionIndex = x.2.sectionIndex ∧ ref.offset = x.2.offset
  bound : ∃ b r, bindingOf objects x.1.1 x.1.2 x.2.symbol = some b ∧
    table.symbols.get ref.target = some r ∧ b.Entry x.2.symbol r ∧
    (ref.weakUndefined = true ↔ b = .null)

/-! ## The definition that is taken -/

/-- The first strong definition of a key, else the first one. -/
def chosen (done : List (Nat × ObjectSymbol)) (key : SymbolKey) : Option (Nat × ObjectSymbol) :=
  (done.find? fun d => definitionKey d = key ∧ d.2.binding = .global).or
    (done.find? fun d => definitionKey d = key)

variable {done : List (Nat × ObjectSymbol)} {d : Nat × ObjectSymbol}

theorem chosen_append_ne {key : SymbolKey} (h : definitionKey d ≠ key) :
    chosen (done ++ [d]) key = chosen done key := by
  simp [chosen, List.find?_append, h]

theorem chosen_none {key : SymbolKey} (h : chosen done key = none) :
    ∀ d ∈ done, definitionKey d ≠ key := by
  obtain ⟨-, hany⟩ := Option.or_eq_none_iff.mp h
  intro d hd
  simpa using List.find?_eq_none.mp hany d hd

theorem chosen_append_new (h : chosen done (definitionKey d) = none) :
    chosen (done ++ [d]) (definitionKey d) = some d := by
  obtain ⟨hstrong, hany⟩ := Option.or_eq_none_iff.mp h
  unfold chosen
  rw [List.find?_append, List.find?_append, hstrong, hany]
  by_cases hglobal : d.2.binding = .global <;> simp [hglobal]

theorem chosen_spec {key : SymbolKey} (h : chosen done key = some d) :
    d ∈ done ∧ definitionKey d = key ∧
      (d.2.binding = .global ∨ ∀ a ∈ done, definitionKey a = key → a.2.binding ≠ .global) := by
  unfold chosen at h
  rcases Option.or_eq_some_iff.mp h with hstrong | ⟨hnone, hany⟩
  · have hd := List.find?_some hstrong
    rw [decide_eq_true_eq] at hd
    exact ⟨List.mem_of_find?_eq_some hstrong, hd.1, .inl hd.2⟩
  · have hd := List.find?_some hany
    rw [decide_eq_true_eq] at hd
    refine ⟨List.mem_of_find?_eq_some hany, hd, .inr fun a ha hkey hglobal => ?_⟩
    have hnot := List.find?_eq_none.mp hnone a ha
    rw [decide_eq_true_eq] at hnot
    exact hnot ⟨hkey, hglobal⟩

/-- A weak definition changes nothing behind another one. -/
theorem chosen_append_weak (hweak : d.2.binding ≠ .global) {e : Nat × ObjectSymbol}
    (h : chosen done (definitionKey d) = some e) :
    chosen (done ++ [d]) (definitionKey d) = some e := by
  rw [← h]
  unfold chosen at h ⊢
  rw [List.find?_append, List.find?_append]
  rcases Option.or_eq_some_iff.mp h with hstrong | ⟨hnone, hany⟩
  · rw [hstrong]
    rfl
  · rw [hnone, hany]
    simp [hweak]

/-- A strong definition is taken when there is none before it. -/
theorem chosen_append_strong (hstrong : d.2.binding = .global)
    (h : ∀ a ∈ done, definitionKey a = definitionKey d → a.2.binding ≠ .global) :
    chosen (done ++ [d]) (definitionKey d) = some d := by
  have hnone : (done.find? fun a =>
      decide (definitionKey a = definitionKey d ∧ a.2.binding = .global)) = none := by
    refine List.find?_eq_none.mpr fun a ha => ?_
    rw [decide_eq_true_eq]
    exact fun ⟨hkey, hglobal⟩ => h a ha hkey hglobal
  unfold chosen
  rw [List.find?_append, hnone]
  simp [hstrong]

/-! ## The table of the definitions -/

/-- Two strong definitions do not have one key. -/
def NotBothStrong (a b : Nat × ObjectSymbol) : Prop :=
  definitionKey a = definitionKey b → ¬ (a.2.binding = .global ∧ b.2.binding = .global)

/-- The table has the chosen definition of every key. -/
structure Chooses (symbols : AssocMap SymbolKey ResolvedSymbol)
    (done : List (Nat × ObjectSymbol)) : Prop where
  get : ∀ key, symbols.get key = (chosen done key).map fun d => definedSymbol d.1 d.2
  strong : done.Pairwise NotBothStrong

variable {symbols : AssocMap SymbolKey ResolvedSymbol}

theorem Chooses.insert (h : Chooses symbols done)
    (hchosen : chosen (done ++ [d]) (definitionKey d) = some d)
    (hstrong : ∀ a ∈ done, NotBothStrong a d) :
    Chooses (symbols.insert (definitionKey d) (definedSymbol d.1 d.2)) (done ++ [d]) := by
  constructor
  · intro key
    rw [AssocMap.get_insert]
    by_cases hkey : key = definitionKey d
    · rw [if_pos hkey, hkey, hchosen]
      rfl
    · rw [if_neg hkey, h.get, chosen_append_ne (Ne.symm hkey)]
  · refine List.pairwise_append.mpr ⟨h.strong, List.pairwise_singleton _ _, fun a ha b hb => ?_⟩
    rw [List.mem_singleton.mp hb]
    exact hstrong a ha

variable {symbols' : AssocMap SymbolKey ResolvedSymbol}

/-- One definition: the table keeps choosing, or two strong ones meet. -/
theorem addDefinition_chooses (h : Chooses symbols done) {i : Nat} {sym : ObjectSymbol}
    (hadd : addDefinition i symbols sym = .ok symbols') :
    Chooses symbols' (done ++ [(i, sym)]) := by
  have hkey : symbolKey i sym.binding sym.name = definitionKey (i, sym) := rfl
  have hget := h.get (definitionKey (i, sym))
  cases hchosen : chosen done (definitionKey (i, sym)) with
  | none =>
      rw [hchosen] at hget
      rw [addDefinition_new hget] at hadd
      cases hadd
      refine h.insert (chosen_append_new hchosen) fun a ha heq => ?_
      exact absurd heq (chosen_none hchosen a ha)
  | some e =>
      obtain ⟨hmem, hsame, hbest⟩ := chosen_spec hchosen
      rw [hchosen] at hget
      simp only [addDefinition, hkey, hget, Option.map_some] at hadd
      by_cases hlocal : sym.binding = .local
      · rw [if_pos hlocal] at hadd
        cases hadd
      · rw [if_neg hlocal] at hadd
        have hexisting : (definedSymbol e.1 e.2).binding = e.2.binding := rfl
        -- A weak definition behind another one is ignored.
        have hkeep : sym.binding = .weak → Chooses symbols (done ++ [(i, sym)]) := by
          intro hweak
          have hnot : sym.binding ≠ .global := by
            rw [hweak]
            rintro ⟨⟩
          constructor
          · intro key
            rw [h.get]
            by_cases hk : definitionKey (i, sym) = key
            · rw [← hk, chosen_append_weak (d := (i, sym)) hnot hchosen, hchosen]
            · rw [chosen_append_ne hk]
          · refine List.pairwise_append.mpr
              ⟨h.strong, List.pairwise_singleton _ _, fun a ha b hb => ?_⟩
            rw [List.mem_singleton.mp hb]
            exact fun _ hboth => hnot hboth.2
        split at hadd
        · cases hadd
        · rename_i hsym
          cases hadd
          exact hkeep hsym
        · rename_i hsym
          cases hadd
          exact hkeep hsym
        · rename_i hbothStrong hglobalWeak hweakWeak
          cases hadd
          rw [hexisting] at hbothStrong hglobalWeak hweakWeak
          have hglobal : sym.binding = .global := by
            cases hsym : sym.binding with
            | «local» => exact absurd hsym hlocal
            | global => rfl
            | weak =>
                cases he : e.2.binding with
                | «local» =>
                    rw [definitionKey_local he,
                      definitionKey_global (d := (i, sym)) hlocal] at hsame
                    cases hsame
                | global => exact (hglobalWeak he hsym).elim
                | weak => exact (hweakWeak he hsym).elim
          have hbefore : ∀ a ∈ done, definitionKey a = definitionKey (i, sym) →
              a.2.binding ≠ .global :=
            hbest.resolve_left fun he => hbothStrong he hglobal
          refine h.insert (chosen_append_strong (d := (i, sym)) hglobal hbefore) ?_
          exact fun a ha heq hboth => hbefore a ha heq hboth.1

theorem foldlM_addDefinition_chooses {i : Nat} {news : List ObjectSymbol} (h : Chooses symbols done)
    (hadd : news.foldlM (addDefinition i) symbols = .ok symbols') :
    Chooses symbols' (done ++ news.map (i, ·)) := by
  induction news generalizing symbols done with
  | nil =>
      cases hadd
      simpa using h
  | cons sym news ih =>
      obtain ⟨mid, hfirst, hrest⟩ := foldlM_cons_ok.mp hadd
      have hall := ih (addDefinition_chooses h hfirst) hrest
      rwa [List.append_assoc] at hall

theorem foldlM_addDefinitions_chooses {es : List (ObjectFile × Nat)} (h : Chooses symbols done)
    (hadd : es.foldlM addDefinitions symbols = .ok symbols') :
    Chooses symbols' (done ++ definitionsOf es) := by
  induction es generalizing symbols done with
  | nil =>
      cases hadd
      simpa [definitionsOf] using h
  | cons e es ih =>
      obtain ⟨mid, hfirst, hrest⟩ := foldlM_cons_ok.mp hadd
      have hall := ih (foldlM_addDefinition_chooses h hfirst) hrest
      rwa [List.append_assoc] at hall

theorem chooses_nil : Chooses [] [] := ⟨fun _ => rfl, List.Pairwise.nil⟩

variable {objects : List ObjectFile}

/-- Definitions that all went into a table have at most one strong definition of a name. -/
theorem strongUnique_of_pairwise (h : (definitionsOf objects.zipIdx).Pairwise NotBothStrong) :
    StrongUnique objects := by
  have hfiltered : ((objects.flatMap ObjectFile.symbols).filter
      (·.sectionIndex.isSome)).Pairwise fun a b =>
        a.binding = .global → b.binding = .global → a.name ≠ b.name := by
    rw [← map_definitionsOf objects 0, List.pairwise_map]
    refine h.imp fun {a b} hab ha hb hname => hab ?_ ⟨ha, hb⟩
    have hnot : ∀ {x : Nat × ObjectSymbol}, x.2.binding = .global → x.2.binding ≠ .local :=
      fun hx hlocal => by rw [hx] at hlocal; cases hlocal
    rw [definitionKey_global (hnot ha), definitionKey_global (hnot hb), hname]
  unfold StrongUnique List.Nodup
  rw [List.pairwise_map, List.pairwise_filter]
  rw [List.pairwise_filter] at hfiltered
  refine hfiltered.imp fun {a b} hab ha hb => ?_
  unfold isStrong at ha hb
  rw [Bool.and_eq_true, decide_eq_true_eq] at ha hb
  exact hab ha.1 hb.1 ha.2 hb.2

/-! ## The key of a reference -/

variable {name : String}

theorem definitionKey_eq_global :
    definitionKey d = .global name ↔ d.2.binding ≠ .local ∧ d.2.name = name := by
  by_cases hlocal : d.2.binding = .local
  · simp [definitionKey_local hlocal, hlocal]
  · simp [definitionKey_global hlocal, hlocal]

theorem chosen_global (objects : List ObjectFile) (name : String) :
    chosen (definitionsOf objects.zipIdx) (.global name) =
      (definitionOf objects .global name).or (definitionOf objects .weak name) := by
  have hstrong : ∀ d : Nat × ObjectSymbol,
      (definitionKey d = .global name ∧ d.2.binding = .global) ↔
        (d.2.binding = .global ∧ d.2.name = name) := by
    intro d
    rw [definitionKey_eq_global]
    constructor
    · exact fun h => ⟨h.2, h.1.2⟩
    · exact fun h => ⟨⟨by rw [h.1]; exact nofun, h.2⟩, h.1⟩
  unfold chosen definitionOf
  simp only [hstrong]
  cases hfirst : (definitionsOf objects.zipIdx).find? fun d =>
      decide (d.2.binding = .global ∧ d.2.name = name) with
  | some d => rfl
  | none =>
      rw [Option.none_or, Option.none_or]
      refine List.find?_congr fun d hd => ?_
      have hnot := List.find?_eq_none.mp hfirst d hd
      rw [decide_eq_true_eq] at hnot
      refine decide_eq_decide.mpr ?_
      rw [definitionKey_eq_global]
      cases hbinding : d.2.binding with
      | «local» => simp
      | global => simpa using fun hname => hnot ⟨hbinding, hname⟩
      | weak => simp

theorem mem_definitionsOf :
    d ∈ definitionsOf objects.zipIdx ↔
      ∃ o, objects[d.1]? = some o ∧ d.2 ∈ o.symbols ∧ d.2.sectionIndex.isSome = true := by
  unfold definitionsOf
  rw [List.mem_flatMap]
  constructor
  · rintro ⟨e, he, hd⟩
    obtain ⟨s, hs, rfl⟩ := List.mem_map.mp hd
    obtain ⟨hs, hdefined⟩ := List.mem_filter.mp hs
    exact ⟨e.1, List.mem_zipIdx_iff_getElem?.mp he, hs, hdefined⟩
  · rintro ⟨o, ho, hs, hdefined⟩
    refine ⟨(o, d.1), List.mk_mem_zipIdx_iff_getElem?.mpr ho, ?_⟩
    exact List.mem_map.mpr ⟨d.2, List.mem_filter.mpr ⟨hs, hdefined⟩, rfl⟩

variable {object : ObjectFile}

theorem declarationOf_eq_find (hnames : (object.symbols.map ObjectSymbol.name).Nodup)
    (name : String) : object.symbols.find? (·.name = name) = declarationOf object name := by
  cases hfind : object.symbols.find? (·.name = name) with
  | none =>
      cases hd : declarationOf object name with
      | none => rfl
      | some d =>
          obtain ⟨hmem, hname⟩ := (declarationOf_eq_some hnames).mp hd
          have hnot := List.find?_eq_none.mp hfind d hmem
          rw [decide_eq_true_eq] at hnot
          exact absurd hname hnot
  | some d =>
      have hname := List.find?_some hfind
      rw [decide_eq_true_eq] at hname
      exact ((declarationOf_eq_some hnames).mpr ⟨List.mem_of_find?_eq_some hfind, hname⟩).symm

variable {e : ObjectFile × Nat}

/-- A local key is that of the declaration, where the declaration is a definition. -/
theorem chosen_local (he : e ∈ objects.zipIdx) (hnames : (e.1.symbols.map ObjectSymbol.name).Nodup)
    {d : ObjectSymbol} (hd : declarationOf e.1 name = some d) (hlocal : d.binding = .local) :
    chosen (definitionsOf objects.zipIdx) (.local e.2 name) =
      if d.sectionIndex.isSome = true then some (e.2, d) else none := by
  obtain ⟨hmem, hname⟩ := (declarationOf_eq_some hnames).mp hd
  have hobject := List.mem_zipIdx_iff_getElem?.mp he
  have honly : ∀ a ∈ definitionsOf objects.zipIdx, definitionKey a = .local e.2 name →
      a = (e.2, d) ∧ d.sectionIndex.isSome = true := by
    rintro ⟨i, s⟩ ha hkey
    obtain ⟨o, ho, hs, hdefined⟩ := mem_definitionsOf.mp ha
    by_cases hslocal : s.binding = .local
    · rw [definitionKey_local (d := (i, s)) hslocal] at hkey
      obtain ⟨rfl, hsname⟩ := SymbolKey.local.inj hkey
      have hsame : o = e.1 := Option.some.inj (ho.symm.trans hobject)
      have hs' := (declarationOf_eq_some hnames).mpr ⟨hsame ▸ hs, hsname⟩
      rw [hd] at hs'
      cases hs'
      exact ⟨rfl, hdefined⟩
    · rw [definitionKey_global (d := (i, s)) hslocal] at hkey
      cases hkey
  cases hchosen : chosen (definitionsOf objects.zipIdx) (.local e.2 name) with
  | some a =>
      obtain ⟨ha, hkey, -⟩ := chosen_spec hchosen
      obtain ⟨rfl, hdefined⟩ := honly a ha hkey
      rw [if_pos hdefined]
  | none =>
      rw [if_neg]
      intro hdefined
      refine chosen_none hchosen (e.2, d) (mem_definitionsOf.mpr ⟨e.1, hobject, hmem, hdefined⟩) ?_
      rw [definitionKey_local (d := (e.2, d)) hlocal, hname]

/-- The binding of a name without a local declaration. -/
theorem bindingOf_global {i : Nat} (hnames : (object.symbols.map ObjectSymbol.name).Nodup)
    (hlocal : (declarationOf object name).any (·.binding = .local) = false) :
    bindingOf objects object i name =
      match chosen (definitionsOf objects.zipIdx) (.global name) with
      | some d => some (.definition d.1 d.2)
      | none =>
          if (declarationOf object name).any (·.binding = .weak) then some .null else none := by
  unfold bindingOf
  rw [declarationOf_eq_find hnames]
  dsimp only
  rw [hlocal, if_neg Bool.false_ne_true, chosen_global]
  cases definitionOf objects .global name with
  | some d => rfl
  | none => cases definitionOf objects .weak name <;> rfl

/-- The binding of a name is the definition its key has in the table; without one it is null
where the name is declared weak. -/
theorem bindingOf_eq (h : Chooses symbols (definitionsOf objects.zipIdx)) (he : e ∈ objects.zipIdx)
    (hnames : (e.1.symbols.map ObjectSymbol.name).Nodup) (name : String) :
    (∃ d : Nat × ObjectSymbol, bindingOf objects e.1 e.2 name = some (.definition d.1 d.2) ∧
        symbols.get (referenceKey e.1 e.2 name) = some (definedSymbol d.1 d.2)) ∨
      symbols.get (referenceKey e.1 e.2 name) = none ∧
        bindingOf objects e.1 e.2 name =
          if (declarationOf e.1 name).any (·.binding = .weak) then some .null else none := by
  rw [h.get]
  unfold referenceKey
  cases hlocal : (declarationOf e.1 name).any (·.binding = .local) with
  | false =>
      rw [if_neg Bool.false_ne_true, bindingOf_global hnames hlocal]
      cases chosen (definitionsOf objects.zipIdx) (.global name) with
      | some d => exact .inl ⟨d, rfl, rfl⟩
      | none => exact .inr ⟨rfl, rfl⟩
  | true =>
      unfold bindingOf
      rw [declarationOf_eq_find hnames]
      dsimp only
      rw [hlocal, if_pos rfl, if_pos rfl]
      cases hd : declarationOf e.1 name with
      | none =>
          rw [hd] at hlocal
          cases hlocal
      | some d =>
          rw [hd, Option.any_some, decide_eq_true_eq] at hlocal
          rw [chosen_local he hnames hd hlocal]
          by_cases hdefined : d.sectionIndex.isSome = true
          · rw [if_pos hdefined]
            exact .inl ⟨(e.2, d), by simp [hdefined], rfl⟩
          · rw [if_neg hdefined]
            have hnone : d.sectionIndex = none := by simpa using hdefined
            exact .inr ⟨rfl, by simp [hnone, hlocal]⟩

/-! ## The references -/

def referenceOf (symbols : AssocMap SymbolKey ResolvedSymbol)
    (x : (ObjectFile × Nat) × ObjectRelocation) : ResolvedReference where
  objectIndex := x.1.2
  sectionIndex := x.2.sectionIndex
  offset := x.2.offset
  target := referenceKey x.1.1 x.1.2 x.2.symbol
  weakUndefined := (symbols.get (referenceKey x.1.1 x.1.2 x.2.symbol)).isNone

/-- What is collected for the relocations `done`. -/
structure Collects (symbols : AssocMap SymbolKey ResolvedSymbol)
    (done : List ((ObjectFile × Nat) × ObjectRelocation)) (c : Collected) : Prop where
  references : c.references = done.map (referenceOf symbols)
  unique : AssocMap.UniqueKeys c.weakUndefined
  nulls : ∀ key r, c.weakUndefined.get key = some r →
    symbols.get key = none ∧ ∃ name, key = .global name ∧ Binding.null.Entry name r
  present : ∀ x ∈ done, symbols.get (referenceKey x.1.1 x.1.2 x.2.symbol) = none →
    (c.weakUndefined.get (referenceKey x.1.1 x.1.2 x.2.symbol)).isSome = true

theorem collects_nil (symbols : AssocMap SymbolKey ResolvedSymbol) :
    Collects symbols [] { references := [], weakUndefined := [] } where
  references := rfl
  unique := AssocMap.uniqueKeys_nil
  nulls := nofun
  present _ hx := absurd hx List.not_mem_nil

/-- The entry of a weak name without a definition. -/
def nullSymbol (name : String) (declaration : ObjectSymbol) : ResolvedSymbol where
  name := name
  objectIndex := none
  sectionIndex := none
  value := 0
  size := 0
  binding := .weak
  kind := declaration.kind
  visibility := declaration.visibility

/-- The null entries after one more relocation. -/
def nullsAfter (symbols : AssocMap SymbolKey ResolvedSymbol) (e : ObjectFile × Nat)
    (nulls : AssocMap SymbolKey ResolvedSymbol) (r : ObjectRelocation) :
    AssocMap SymbolKey ResolvedSymbol :=
  match (symbols.get (referenceKey e.1 e.2 r.symbol)).isNone, declarationOf e.1 r.symbol with
  | true, some d =>
      if (nulls.get (referenceKey e.1 e.2 r.symbol)).isSome then nulls
      else nulls.insert (referenceKey e.1 e.2 r.symbol) (nullSymbol r.symbol d)
  | _, _ => nulls

theorem addReference_ok {c c' : Collected} {r : ObjectRelocation}
    (hadd : addReference symbols e.1 e.2 c r = .ok c') :
    c'.references = c.references ++ [referenceOf symbols (e, r)] ∧
      (((symbols.get (referenceKey e.1 e.2 r.symbol)).isSome = true ∧
          c'.weakUndefined = c.weakUndefined) ∨
        symbols.get (referenceKey e.1 e.2 r.symbol) = none ∧
          ((c.weakUndefined.get (referenceKey e.1 e.2 r.symbol)).isSome = true ∧
              c'.weakUndefined = c.weakUndefined ∨
            ∃ d, declarationOf e.1 r.symbol = some d ∧ d.binding = .weak ∧
              c'.weakUndefined = c.weakUndefined.insert (referenceKey e.1 e.2 r.symbol)
                (nullSymbol r.symbol d))) := by
  have hresolves := (addReference_isOk c r).mp ⟨c', hadd⟩
  have hrun : addReference symbols e.1 e.2 c r = (do
      require (¬ ((symbols.get (referenceKey e.1 e.2 r.symbol)).isNone = true ∧
          (declarationOf e.1 r.symbol).any (·.binding = .weak) = false))
        (ResolveError.unresolved r.symbol e.2 r.sectionIndex r.offset)
      return {
        references := c.references ++ [referenceOf symbols (e, r)]
        weakUndefined := nullsAfter symbols e c.weakUndefined r }) := rfl
  rw [hrun] at hadd
  obtain ⟨-, hc⟩ := require_then_ok_iff.mp hadd
  cases hc
  refine ⟨rfl, ?_⟩
  unfold Resolves at hresolves
  unfold nullsAfter
  -- A defined key needs nothing more; an undefined one must be declared weak.
  cases hget : symbols.get (referenceKey e.1 e.2 r.symbol) with
  | some d => exact .inl ⟨rfl, rfl⟩
  | none =>
      right
      rw [hget] at hresolves
      cases hd : declarationOf e.1 r.symbol with
      | none =>
          rw [hd] at hresolves
          rcases hresolves with h | h <;> cases h
      | some d =>
          rw [hd] at hresolves
          have hweak : d.binding = .weak := by
            rcases hresolves with hsome | hany
            · cases hsome
            · simpa using hany
          refine ⟨rfl, ?_⟩
          by_cases hseen : (c.weakUndefined.get (referenceKey e.1 e.2 r.symbol)).isSome = true
          · exact .inl ⟨hseen, if_pos hseen⟩
          · exact .inr ⟨d, rfl, hweak, if_neg hseen⟩

theorem addReference_collects {done : List ((ObjectFile × Nat) × ObjectRelocation)}
    {c c' : Collected} {r : ObjectRelocation} (h : Collects symbols done c)
    (hadd : addReference symbols e.1 e.2 c r = .ok c') :
    Collects symbols (done ++ [(e, r)]) c' := by
  obtain ⟨hreferences, hnulls⟩ := addReference_ok hadd
  have hlist : c'.references = (done ++ [(e, r)]).map (referenceOf symbols) := by
    rw [hreferences, h.references, List.map_append]
    rfl
  -- The last relocation has an entry; those before it keep theirs.
  have hpresent : ∀ {nulls : AssocMap SymbolKey ResolvedSymbol},
      (∀ key, (c.weakUndefined.get key).isSome = true → (nulls.get key).isSome = true) →
      (symbols.get (referenceKey e.1 e.2 r.symbol) = none →
        (nulls.get (referenceKey e.1 e.2 r.symbol)).isSome = true) →
      ∀ x ∈ done ++ [(e, r)], symbols.get (referenceKey x.1.1 x.1.2 x.2.symbol) = none →
        (nulls.get (referenceKey x.1.1 x.1.2 x.2.symbol)).isSome = true := by
    intro nulls hkeep hlast x hx hnone
    rcases List.mem_append.mp hx with hx | hx
    · exact hkeep _ (h.present x hx hnone)
    · rw [List.mem_singleton.mp hx] at hnone ⊢
      exact hlast hnone
  rcases hnulls with ⟨hsome, heq⟩ | ⟨hnone, ⟨hseen, heq⟩ | ⟨d, hd, hweak, heq⟩⟩
  · refine ⟨hlist, heq ▸ h.unique, heq ▸ h.nulls, heq ▸ hpresent (fun _ h => h) fun hnone => ?_⟩
    rw [hnone] at hsome
    cases hsome
  · exact ⟨hlist, heq ▸ h.unique, heq ▸ h.nulls, heq ▸ hpresent (fun _ h => h) fun _ => hseen⟩
  · refine ⟨hlist, heq ▸ AssocMap.uniqueKeys_insert _ _ h.unique, ?_, ?_⟩
    · intro key v hv
      rw [heq, AssocMap.get_insert] at hv
      by_cases hkey : key = referenceKey e.1 e.2 r.symbol
      · rw [if_pos hkey] at hv
        cases hv
        refine ⟨hkey ▸ hnone, r.symbol, ?_, rfl, rfl, rfl, rfl, rfl, rfl⟩
        rw [hkey, referenceKey, hd]
        simp [hweak]
      · rw [if_neg hkey] at hv
        exact h.nulls key v hv
    · rw [heq]
      refine hpresent (fun key hkey => ?_) fun _ => ?_
      · rw [AssocMap.get_insert]
        split
        · rfl
        · exact hkey
      · rw [AssocMap.get_insert_self]
        rfl

theorem foldlM_addReferences_collects {es : List (ObjectFile × Nat)}
    {done : List ((ObjectFile × Nat) × ObjectRelocation)} {c c' : Collected}
    (h : Collects symbols done c) (hadd : es.foldlM (addReferences symbols) c = .ok c') :
    Collects symbols (done ++ es.flatMap fun e => e.1.relocations.map (e, ·)) c' := by
  have hobject : ∀ {e : ObjectFile × Nat} {rs : List ObjectRelocation}
      {done : List ((ObjectFile × Nat) × ObjectRelocation)} {c c' : Collected},
      Collects symbols done c → rs.foldlM (addReference symbols e.1 e.2) c = .ok c' →
      Collects symbols (done ++ rs.map (e, ·)) c' := by
    intro e rs
    induction rs with
    | nil =>
        intro done c c' h hadd
        cases hadd
        simpa using h
    | cons r rs ih =>
        intro done c c' h hadd
        obtain ⟨mid, hfirst, hrest⟩ := foldlM_cons_ok.mp hadd
        have hall := ih (addReference_collects h hfirst) hrest
        rwa [List.append_assoc] at hall
  induction es generalizing done c with
  | nil =>
      cases hadd
      simpa using h
  | cons e es ih =>
      obtain ⟨mid, hfirst, hrest⟩ := foldlM_cons_ok.mp hadd
      have hall := ih (hobject h hfirst) hrest
      rwa [List.append_assoc] at hall

/-! ## The symbol table -/

variable {table : SymbolTable}

theorem resolve_ok (h : resolve objects = .ok table) :
    ∃ symbols c, Chooses symbols (definitionsOf objects.zipIdx) ∧
      Collects symbols (relocationsOf objects) c ∧
      (∀ e ∈ objects.zipIdx, ∀ r ∈ e.1.relocations, Resolves symbols e.1 e.2 r.symbol) ∧
      table = { symbols := symbols.extend c.weakUndefined, references := c.references } := by
  obtain ⟨_, -, h₁⟩ := bind_ok_iff.mp h
  obtain ⟨symbols, hsymbols, h₂⟩ := bind_ok_iff.mp h₁
  obtain ⟨c, hc, h₃⟩ := bind_ok_iff.mp h₂
  cases h₃
  exact ⟨symbols, c, foldlM_addDefinitions_chooses chooses_nil hsymbols,
    foldlM_addReferences_collects (collects_nil symbols) hc,
    foldlM_addReferences_isOk.mp ⟨c, hc⟩, rfl⟩

theorem StrongUnique.of_resolve (h : resolve objects = .ok table) : StrongUnique objects := by
  obtain ⟨symbols, c, hchooses, -⟩ := resolve_ok h
  exact strongUnique_of_pairwise hchooses.strong

theorem resolves_iff_bound (h : Chooses symbols (definitionsOf objects.zipIdx))
    (he : e ∈ objects.zipIdx) (hnames : (e.1.symbols.map ObjectSymbol.name).Nodup) (name : String) :
    Resolves symbols e.1 e.2 name ↔ bindingOf objects e.1 e.2 name ≠ none := by
  unfold Resolves
  rcases bindingOf_eq h he hnames name with ⟨d, hbinding, hget⟩ | ⟨hget, hbinding⟩
  · rw [hget, hbinding]
    simp
  · rw [hget, hbinding]
    cases (declarationOf e.1 name).any (·.binding = .weak) <;> simp

theorem mem_relocationsOf {x : (ObjectFile × Nat) × ObjectRelocation} :
    x ∈ relocationsOf objects ↔ x.1 ∈ objects.zipIdx ∧ x.2 ∈ x.1.1.relocations := by
  unfold relocationsOf
  rw [List.mem_flatMap]
  constructor
  · rintro ⟨e, he, hx⟩
    obtain ⟨r, hr, rfl⟩ := List.mem_map.mp hx
    exact ⟨he, hr⟩
  · exact fun ⟨he, hr⟩ => ⟨x.1, he, List.mem_map.mpr ⟨x.2, hr, rfl⟩⟩

/-- Resolution succeeds exactly when no name has two strong definitions and every relocation is
bound. -/
theorem resolve_isOk_iff_bound (h : Accepted objects) :
    (∃ table, resolve objects = .ok table) ↔ StrongUnique objects ∧
      ∀ x ∈ relocationsOf objects, bindingOf objects x.1.1 x.1.2 x.2.symbol ≠ none := by
  constructor
  · rintro ⟨table, htable⟩
    obtain ⟨symbols, c, hchooses, -, hresolves, -⟩ := resolve_ok htable
    refine ⟨StrongUnique.of_resolve htable, fun x hx => ?_⟩
    obtain ⟨he, hr⟩ := mem_relocationsOf.mp hx
    have hnames := h.names _ (List.fst_mem_of_mem_zipIdx he)
    exact (resolves_iff_bound hchooses he hnames _).mp (hresolves _ he _ hr)
  · rintro ⟨hstrong, hbound⟩
    have hempty : Holds [] [] := ⟨fun _ => ⟨nofun, nofun⟩, nofun⟩
    obtain ⟨symbols, hdefinitions, -⟩ :=
      @foldlM_addDefinitions_ok _ _ objects.zipIdx hempty (definitions_compatible h.names hstrong)
    have hchooses := foldlM_addDefinitions_chooses chooses_nil hdefinitions
    have hresolves : ∀ e ∈ objects.zipIdx, ∀ r ∈ e.1.relocations,
        Resolves symbols e.1 e.2 r.symbol := by
      intro e he r hr
      have hnames := h.names _ (List.fst_mem_of_mem_zipIdx he)
      exact (resolves_iff_bound hchooses he hnames _).mpr
        (hbound (e, r) (mem_relocationsOf.mpr ⟨he, hr⟩))
    obtain ⟨c, hc⟩ := (foldlM_addReferences_isOk (c := ⟨[], []⟩)).mpr hresolves
    refine ⟨{ symbols := symbols.extend c.weakUndefined, references := c.references }, ?_⟩
    unfold resolve
    rw [checkInputs_iff.mpr h, ok_bind, hdefinitions, ok_bind, hc]
    rfl

theorem resolve_bound (h : Accepted objects) (htable : resolve objects = .ok table) :
    List.Forall₂ (BoundTo objects table) (relocationsOf objects) table.references := by
  obtain ⟨symbols, c, hchooses, hcollects, hresolves, rfl⟩ := resolve_ok htable
  rw [hcollects.references, List.forall₂_map_right_iff, List.forall₂_same]
  intro x hx
  obtain ⟨he, hr⟩ := mem_relocationsOf.mp hx
  have hnames := h.names _ (List.fst_mem_of_mem_zipIdx he)
  refine ⟨⟨rfl, rfl, rfl⟩, ?_⟩
  show ∃ b r, _ ∧ AssocMap.get (referenceKey x.1.1 x.1.2 x.2.symbol)
    (symbols.extend c.weakUndefined) = some r ∧ _ ∧ _
  rw [AssocMap.get_extend hcollects.unique]
  -- A chosen definition stands in the table; without one only the weak null is left.
  rcases bindingOf_eq hchooses he hnames x.2.symbol with ⟨d, hbinding, hget⟩ | ⟨hget, hbinding⟩
  · have hnull : AssocMap.get (referenceKey x.1.1 x.1.2 x.2.symbol) c.weakUndefined = none := by
      cases hsome : AssocMap.get (referenceKey x.1.1 x.1.2 x.2.symbol) c.weakUndefined with
      | none => rfl
      | some r =>
          have hnone := (hcollects.nulls _ r hsome).1
          rw [hget] at hnone
          cases hnone
    refine ⟨_, definedSymbol d.1 d.2, hbinding, by rw [hnull, hget]; rfl, rfl, ?_⟩
    simp [referenceOf, hget]
  · have hresolved := (resolves_iff_bound hchooses he hnames _).mp (hresolves _ he _ hr)
    have hnull := hcollects.present x hx hget
    obtain ⟨r, hr⟩ := Option.isSome_iff_exists.mp hnull
    obtain ⟨-, name, hname, hentry⟩ := hcollects.nulls _ r hr
    have hsame : name = x.2.symbol := by
      unfold referenceKey at hname
      split at hname
      · cases hname
      · exact (SymbolKey.global.inj hname).symm
    have hweak : bindingOf objects x.1.1 x.1.2 x.2.symbol = some .null := by
      rw [hbinding] at hresolved ⊢
      split
      · rfl
      · rename_i hnot
        rw [if_neg hnot] at hresolved
        exact absurd rfl hresolved
    refine ⟨.null, r, hweak, by rw [hr]; rfl, hsame ▸ hentry, ?_⟩
    simp [referenceOf, hget]

/-- The strong definition of a name is what the table has under the name. -/
theorem resolve_strong (htable : resolve objects = .ok table) {i : Nat} {o : ObjectFile}
    (ho : objects[i]? = some o) {s : ObjectSymbol} (hs : s ∈ o.symbols)
    (hstrong : isStrong s = true) :
    table.symbols.get (.global s.name) = some (definedSymbol i s) := by
  obtain ⟨symbols, c, hchooses, hcollects, -, rfl⟩ := resolve_ok htable
  unfold isStrong at hstrong
  rw [Bool.and_eq_true, decide_eq_true_eq] at hstrong
  have hmem : (i, s) ∈ definitionsOf objects.zipIdx := mem_definitionsOf.mpr ⟨o, ho, hs, hstrong.1⟩
  have hkey : definitionKey (i, s) = .global s.name := by
    refine definitionKey_eq_global.mpr ⟨?_, rfl⟩
    rw [hstrong.2]
    exact nofun
  have hsymm : Std.Symm NotBothStrong :=
    ⟨fun a b hab heq hboth => hab heq.symm ⟨hboth.2, hboth.1⟩⟩
  have hchosen : chosen (definitionsOf objects.zipIdx) (.global s.name) = some (i, s) := by
    cases hd : chosen (definitionsOf objects.zipIdx) (.global s.name) with
    | none => exact absurd hkey (chosen_none hd _ hmem)
    | some d =>
        obtain ⟨hdmem, hdkey, hbest⟩ := chosen_spec hd
        have hglobal := hbest.resolve_right fun hnone => hnone _ hmem hkey hstrong.2
        by_contra hne
        have hdifferent : d ≠ (i, s) := fun heq => hne (by rw [heq])
        exact hchooses.strong.forall hdmem hmem hdifferent (hdkey.trans hkey.symm)
          ⟨hglobal, hstrong.2⟩
  have hget := hchooses.get (.global s.name)
  rw [hchosen] at hget
  show AssocMap.get _ (symbols.extend c.weakUndefined) = _
  rw [AssocMap.get_extend hcollects.unique, hget]
  cases hsome : AssocMap.get (.global s.name) c.weakUndefined with
  | none => rfl
  | some r =>
      have hnone := (hcollects.nulls _ r hsome).1
      rw [hget] at hnone
      cases hnone

/-! ## The order of the objects -/

variable {objects' : List ObjectFile}

theorem Accepted.perm (h : Accepted objects) (hperm : objects.Perm objects') : Accepted objects' :=
  fun o ho => h o (hperm.mem_iff.mpr ho)

theorem StrongUnique.perm (h : StrongUnique objects) (hperm : objects.Perm objects') :
    StrongUnique objects' :=
  (((hperm.flatMap_right ObjectFile.symbols).filter isStrong).map ObjectSymbol.name).nodup_iff.mp h

theorem Settled.perm (h : Settled objects object name) (hperm : objects.Perm objects') :
    Settled objects' object name :=
  h.imp_right fun ⟨⟨o, ho, hexports⟩, hnot⟩ => ⟨⟨o, hperm.mem_iff.mp ho, hexports⟩, hnot⟩

theorem resolve_perm (h : Accepted objects) (hperm : objects.Perm objects')
    (hok : ∃ table, resolve objects = .ok table) : ∃ table, resolve objects' = .ok table := by
  have hstrong : StrongUnique objects := StrongUnique.of_resolve hok.choose_spec
  have hsettled := (resolve_isOk_iff h hstrong).mp hok
  refine (resolve_isOk_iff (h.perm hperm) (hstrong.perm hperm)).mpr fun o ho r hr => ?_
  exact (hsettled o (hperm.mem_iff.mpr ho) r hr).perm hperm

/-- **Symbol resolution** follows the rule: references are bound by it, it fails exactly when a
name has two strong definitions or a relocation is left unbound, and the order of the objects
matters to neither success nor the names with a strong definition. -/
theorem resolve_binds (objects : List ObjectFile) (h : Accepted objects) :
    (∀ table, resolve objects = .ok table →
      List.Forall₂ (BoundTo objects table) (relocationsOf objects) table.references) ∧
    ((∃ e, resolve objects = .error e) ↔ ¬ StrongUnique objects ∨
      ∃ x ∈ relocationsOf objects, bindingOf objects x.1.1 x.1.2 x.2.symbol = none) ∧
    ∀ objects' : List ObjectFile, objects.Perm objects' →
      ((∃ table, resolve objects = .ok table) ↔ ∃ table, resolve objects' = .ok table) ∧
      ∀ table table', resolve objects = .ok table → resolve objects' = .ok table' →
        ∀ o ∈ objects, ∀ s ∈ o.symbols, isStrong s = true →
          ∃ i i', objects[i]? = some o ∧ objects'[i']? = some o ∧
            table.symbols.get (.global s.name) = some (definedSymbol i s) ∧
            table'.symbols.get (.global s.name) = some (definedSymbol i' s) := by
  refine ⟨fun table htable => resolve_bound h htable, ?_, fun objects' hperm => ⟨?_, ?_⟩⟩
  · have hok := resolve_isOk_iff_bound h
    cases hresolve : resolve objects with
    | ok table =>
        rw [hresolve] at hok
        obtain ⟨hstrong, hbound⟩ := hok.mp ⟨table, rfl⟩
        constructor
        · exact fun ⟨e, he⟩ => nomatch he
        · rintro (hnot | ⟨x, hx, hnone⟩)
          · exact absurd hstrong hnot
          · exact absurd hnone (hbound x hx)
    | error e =>
        rw [hresolve] at hok
        refine ⟨fun _ => ?_, fun _ => ⟨e, rfl⟩⟩
        by_contra hnot
        push Not at hnot
        obtain ⟨table, htable⟩ := hok.mpr hnot
        cases htable
  · exact ⟨resolve_perm h hperm, resolve_perm (h.perm hperm) hperm.symm⟩
  · intro table table' htable htable' o ho s hs hstrong
    obtain ⟨i, hi⟩ := List.mem_iff_getElem?.mp ho
    obtain ⟨i', hi'⟩ := List.mem_iff_getElem?.mp (hperm.mem_iff.mp ho)
    exact ⟨i, i', hi, hi', resolve_strong htable hi hs hstrong,
      resolve_strong htable' hi' hs hstrong⟩

theorem resolve_binds_calls :
    ∃ table, resolve [callingObject "_start" "helper", callingObject "helper" "_start"] =
        .ok table ∧
      List.Forall₂
        (BoundTo [callingObject "_start" "helper", callingObject "helper" "_start"] table)
        (relocationsOf [callingObject "_start" "helper", callingObject "helper" "_start"])
        table.references := by
  have haccepted : Accepted [callingObject "_start" "helper", callingObject "helper" "_start"] := by
    unfold Accepted
    decide
  have hok : (resolve [callingObject "_start" "helper", callingObject "helper" "_start"]).isOk =
      true := by decide
  cases htable : resolve [callingObject "_start" "helper", callingObject "helper" "_start"] with
  | error e =>
      rw [htable] at hok
      cases hok
  | ok table => exact ⟨table, rfl, (resolve_binds _ haccepted).1 table htable⟩

end Whale.Linker
