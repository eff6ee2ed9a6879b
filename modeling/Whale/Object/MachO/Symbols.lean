import Whale.Lib.Collect
import Whale.Object.MachO.Plan

set_option autoImplicit false

/-! # The symbols of Mach-O objects

The plan sorts the symbols into three groups and gives each its name in the string table and
its index (`plan_ok`); emission writes one record for each (`emit_ok`). -/

namespace Whale.MachO.Symbols

/-! ## The groups -/

/-- The entry of a symbol before it has a name in the string table. -/
def entry (s : ObjectSymbol) : Symbol where
  name := s.name
  sectionIndex := s.sectionIndex
  value := s.value
  global := decide (s.binding = .global)
  string := 0

/-- The known names are those in `names`. -/
def Knows (known names : List String) : Prop := ∀ n, n ∈ known ↔ n ∈ names

/-- The groups are those of the symbols. -/
structure Grouped (symbols : List ObjectSymbol) (g : Groups × List String) : Prop where
  locals : g.1.locals = (symbols.filter fun s =>
    s.sectionIndex.isSome && decide (s.binding ≠ .global)).map entry
  defined : g.1.defined = (symbols.filter fun s =>
    s.sectionIndex.isSome && decide (s.binding = .global)).map entry
  undefined : g.1.undefined = (symbols.filter fun s => s.sectionIndex.isNone).map entry
  known : Knows g.2 (symbols.map ObjectSymbol.name)
  external : ∀ s ∈ symbols, s.sectionIndex = none → s.binding = .global

theorem Knows.append {known names : List String} (h : Knows known names) (name : String) :
    Knows (name :: known) (names ++ [name]) := by
  intro n
  rw [List.mem_cons, List.mem_append, List.mem_singleton, h n, or_comm]

theorem Grouped.classify {symbols : List ObjectSymbol} {g g' : Groups × List String}
    {s : ObjectSymbol} (h : Grouped symbols g) (hstep : classify g s = .ok g') :
    Grouped (symbols ++ [s]) g' := by
  obtain ⟨_, -, h₁⟩ := bind_ok_iff.mp hstep
  obtain ⟨_, hglobal, h₂⟩ := bind_ok_iff.mp h₁
  cases h₂
  have hexternal : s.sectionIndex = none → s.binding = .global := fun hnone => by
    by_contra hne
    exact require_ok_iff.mp hglobal ⟨hnone, hne⟩
  have hknown : Knows (s.name :: g.2) ((symbols ++ [s]).map ObjectSymbol.name) := by
    rw [List.map_append]
    exact h.known.append s.name
  have hall : ∀ s' ∈ symbols ++ [s], s'.sectionIndex = none → s'.binding = .global := by
    intro s' hs'
    rcases List.mem_append.mp hs' with hs' | hs'
    · exact h.external s' hs'
    · cases List.mem_singleton.mp hs'
      exact hexternal
  -- The group by the section and the binding.
  cases hsection : s.sectionIndex with
  | none =>
      have hbinding := hexternal hsection
      refine ⟨?_, ?_, ?_, hknown, hall⟩
      · simp [hsection, h.locals]
      · simp [hsection, h.defined]
      · simp [hsection, h.undefined, hbinding, entry]
  | some i =>
      by_cases hbinding : s.binding = .global
      · refine ⟨?_, ?_, ?_, hknown, hall⟩
        · simp [hsection, hbinding, h.locals]
        · simp [hsection, hbinding, h.defined, entry]
        · simp [hsection, hbinding, h.undefined]
      · refine ⟨?_, ?_, ?_, hknown, hall⟩
        · simp [hsection, hbinding, h.locals, entry]
        · simp [hsection, hbinding, h.defined]
        · simp [hsection, hbinding, h.undefined]

theorem Grouped.foldl {rest symbols : List ObjectSymbol} {g g' : Groups × List String}
    (h : Grouped symbols g) (hfold : rest.foldlM Symbols.classify g = .ok g') :
    Grouped (symbols ++ rest) g' := by
  induction rest generalizing symbols g with
  | nil =>
      cases hfold
      rwa [List.append_nil]
  | cons s rest ih =>
      obtain ⟨g₁, hstep, hrest⟩ := foldlM_cons_ok.mp hfold
      have hall := ih (h.classify hstep) hrest
      rwa [List.append_assoc] at hall

/-- Each new name gets one undefined symbol, in the order of first occurrence. -/
theorem foldl_addUndefined {rs : List ObjectRelocation} {g : Groups × List String}
    {names : List String} (h : Knows g.2 names) :
    (rs.foldl addUndefined g).1 = { g.1 with
      undefined := g.1.undefined ++
        (newNames names (rs.map ObjectRelocation.symbol)).map undefinedSymbol } := by
  induction rs generalizing g names with
  | nil =>
      rw [List.map_nil, newNames_nil, List.map_nil, List.append_nil]
      rfl
  | cons r rs ih =>
      rw [List.foldl_cons, List.map_cons]
      unfold addUndefined
      by_cases hmem : r.symbol ∈ g.2
      · rw [if_pos hmem, newNames_cons_of_mem ((h _).mp hmem)]
        exact ih h
      · rw [if_neg hmem, newNames_cons_of_notMem fun hname => hmem ((h _).mpr hname)]
        have hrest := @ih ({ g.1 with undefined := g.1.undefined ++ [undefinedSymbol r.symbol] },
          r.symbol :: g.2) _ (h.append r.symbol)
        refine hrest.trans ?_
        rw [List.map_cons, List.append_assoc]
        rfl

/-! ## The table -/

/-- The entry of a symbol in a table whose strings are `strings`. -/
structure Named (strings : List UInt8) (e s : Symbol) : Prop where
  same : e = { s with string := e.string }
  bound : e.string < strings.length
  text : ∃ rest, strings.drop e.string = asBytes s.name ++ 0 :: rest

theorem Named.append {strings : List UInt8} {e s : Symbol} (h : Named strings e s)
    (more : List UInt8) : Named (strings ++ more) e s := by
  obtain ⟨rest, hrest⟩ := h.text
  have hbound := h.bound
  refine ⟨h.same, by rw [List.length_append]; omega, rest ++ more, ?_⟩
  rw [List.drop_append_of_le_length (by omega), hrest, List.append_assoc, List.cons_append]

/-- The entries are the symbols with their names, and a name has the index of its entry. -/
structure Table.Inv (limit : Nat) (t : Table) (symbols : List Symbol) : Prop where
  entries : List.Forall₂ (Named t.strings) t.entries symbols
  bound : t.strings.length ≤ max limit 1
  indices : ∀ name i, t.indices.get name = some i →
    (symbols.map Symbol.name)[i]? = some name
  known : ∀ name, (t.indices.get name).isSome = true ↔ name ∈ symbols.map Symbol.name

theorem Table.Inv.push {limit : Nat} {t t' : Table} {symbols : List Symbol} {s : Symbol}
    (h : t.Inv limit symbols) (hpush : push limit t s = .ok t') :
    t'.Inv limit (symbols ++ [s]) := by
  obtain ⟨_, hdiscard, h₁⟩ := bind_ok_iff.mp hpush
  obtain ⟨stop, hstop, -⟩ := bind_ok_iff.mp hdiscard
  obtain ⟨hsum, hle⟩ := Option.filter_eq_some_iff.mp (orThrow_ok_iff.mp hstop)
  obtain ⟨m, hm, hn⟩ := Option.bind_eq_some_iff.mp hsum
  obtain ⟨hm, -⟩ := checkedAdd_eq_some.mp hm
  obtain ⟨hn, -⟩ := checkedAdd_eq_some.mp hn
  have hlimit := of_decide_eq_true hle
  have hcount := h.entries.length_eq
  cases h₁
  refine ⟨?_, ?_, fun name i hget => ?_, fun name => ?_⟩
  · refine List.rel_append (h.entries.imp fun e s' hs => ?_) (.cons ⟨rfl, ?_, [], ?_⟩ .nil)
    · rw [List.append_assoc]
      exact hs.append _
    · simp only [List.length_append, List.length_singleton]
      omega
    · rw [List.append_assoc, List.drop_left]
  · simp only [List.length_append, List.length_singleton]
    omega
  · show ((symbols ++ [s]).map Symbol.name)[i]? = some name
    rw [List.map_append]
    -- The new name is bound to the new entry; the others keep theirs.
    by_cases hname : name = s.name
    · subst hname
      rw [AssocMap.get_insert_self] at hget
      cases hget
      have hlength : (symbols.map Symbol.name).length = t.entries.length := by
        rw [List.length_map, hcount]
      rw [List.getElem?_append_right (by omega), hlength, Nat.sub_self]
      rfl
    · rw [AssocMap.get_insert_ne hname] at hget
      have hold := h.indices name i hget
      rw [List.getElem?_append_left (List.getElem?_eq_some_iff.mp hold).1, hold]
  · rw [List.map_append, List.mem_append]
    by_cases hname : name = s.name
    · subst hname
      rw [AssocMap.get_insert_self]
      exact ⟨fun _ => .inr List.mem_cons_self, fun _ => rfl⟩
    · rw [AssocMap.get_insert_ne hname, h.known name]
      refine ⟨.inl, fun hmem => hmem.resolve_right fun hlast => ?_⟩
      exact hname (List.mem_singleton.mp hlast)

theorem Table.Inv.foldl {limit : Nat} {rest symbols : List Symbol} {t t' : Table}
    (h : t.Inv limit symbols) (hfold : rest.foldlM (Symbols.push limit) t = .ok t') :
    t'.Inv limit (symbols ++ rest) := by
  induction rest generalizing t symbols with
  | nil =>
      cases hfold
      rwa [List.append_nil]
  | cons s rest ih =>
      obtain ⟨u, hstep, hrest⟩ := foldlM_cons_ok.mp hfold
      have hall := ih (h.push hstep) hrest
      rwa [List.append_assoc] at hall

/-- The symbols of an object in the order of the file. -/
def ordered (o : ObjectFile) : List Symbol :=
  (localSymbols o).map entry ++ (definedSymbols o).map entry ++
    ((undefinedSymbols o).map entry ++ (undeclared o).map undefinedSymbol)

theorem map_ordered (o : ObjectFile) : (ordered o).map Symbol.name = symbolNames o := by
  unfold ordered symbolNames
  have hentry : ∀ symbols : List ObjectSymbol,
      (symbols.map entry).map Symbol.name = symbols.map ObjectSymbol.name := fun symbols => by
    rw [List.map_map]
    rfl
  have hundefined : ((undeclared o).map undefinedSymbol).map Symbol.name = undeclared o := by
    rw [List.map_map]
    exact List.map_id' _
  simp only [List.map_append, hentry, hundefined, List.append_assoc]

/-- Classified symbols are put into the table one after the other. -/
theorem plan_eq {o : ObjectFile} {g : Groups × List String} (limit : Nat)
    (h : o.symbols.foldlM classify ({ locals := [], defined := [], undefined := [] }, []) = .ok g) :
    plan o limit = ((ordered o).foldlM (push limit) { entries := [], indices := [], strings := [0] }
        >>= fun t => .ok (t, ((localSymbols o).length, (definedSymbols o).length,
          (undefinedSymbols o).length + (undeclared o).length))) ∧
      ∀ s ∈ o.symbols, s.sectionIndex = none → s.binding = .global := by
  have hstart : Grouped [] (({ locals := [], defined := [], undefined := [] } : Groups), []) :=
    ⟨rfl, rfl, rfl, fun _ => Iff.rfl, fun s hs => nomatch hs⟩
  have hgrouped := hstart.foldl h
  rw [List.nil_append] at hgrouped
  have hall := @foldl_addUndefined o.relocations g _ hgrouped.known
  refine ⟨?_, hgrouped.external⟩
  unfold plan
  rw [h, ok_bind]
  dsimp only
  rw [hall, hgrouped.locals, hgrouped.defined, hgrouped.undefined]
  simp only [List.length_map, List.length_append]
  rfl

theorem plan_ok {o : ObjectFile} {limit : Nat} {r : Table × (Nat × Nat × Nat)}
    (h : plan o limit = .ok r) :
    r.1.Inv limit (ordered o) ∧
      r.2 = ((localSymbols o).length, (definedSymbols o).length,
        (undefinedSymbols o).length + (undeclared o).length) ∧
      ∀ s ∈ o.symbols, s.sectionIndex = none → s.binding = .global := by
  obtain ⟨g, hgroups, -⟩ := bind_ok_iff.mp h
  obtain ⟨heq, hexternal⟩ := plan_eq limit hgroups
  rw [heq] at h
  obtain ⟨t, htable, hr⟩ := bind_ok_iff.mp h
  cases hr
  have hempty : Table.Inv limit { entries := [], indices := [], strings := [0] } [] :=
    ⟨.nil, by simp, fun _ _ hget => (nomatch hget), fun _ => ⟨nofun, fun hmem => nomatch hmem⟩⟩
  have hinv := hempty.foldl htable
  rw [List.nil_append] at hinv
  exact ⟨hinv, rfl, hexternal⟩

/-! ## Emission -/

/-- One record for each symbol, by induction on the symbols. -/
theorem emit_ok {sections : List Sections.Layout} {symbols : List Symbol}
    {out out' : List UInt8} {at' : Nat} (h : emit sections out at' symbols = .ok out')
    (hroom : at' + symbols.length * 16 ≤ out.length) :
    SameOutside (fun k => at' ≤ k ∧ k < at' + symbols.length * 16) out out' ∧
      ∀ (i : Nat) (s : Symbol), symbols[i]? = some s → ∃ v, value sections s = .ok v ∧
        ∀ w ∈ parts (at' + i * 16) s v, Holds out' w.1 w.2 := by
  induction symbols generalizing out at' with
  | nil =>
      cases h
      exact ⟨SameOutside.refl _ _, fun i s hs => nomatch hs⟩
  | cons s symbols ih =>
      obtain ⟨v, hvalue, hrest⟩ := bind_ok_iff.mp h
      rw [List.length_cons] at hroom
      -- The five fields of an entry stay inside its sixteen bytes, one behind the other.
      have hfits : ∀ w ∈ parts at' s v, at' ≤ w.1 ∧ w.1 + w.2.length ≤ at' + 16 := by
        simp only [parts, List.forall_mem_cons, List.not_mem_nil, length_leBytes,
          List.length_singleton]
        refine ⟨by omega, by omega, by omega, by omega, fun _ hw => hw.elim⟩
      have hinside : ∀ w ∈ parts at' s v, w.1 + w.2.length ≤ out.length := fun w hw => by
        have hw' := (hfits w hw).2
        omega
      have horder : InOrder (parts at' s v) := by
        simp [InOrder, parts, Precedes]
      have hframe := frame_writes hinside
      have hholds := holds_writes hinside horder
      obtain ⟨hframe', hholds'⟩ := ih hrest (by rw [hframe.length]; omega)
      refine ⟨(hframe.mono ?_).trans (hframe'.mono ?_), fun i s' hs' => ?_⟩
      · rintro k ⟨w, hw, h₁, h₂⟩
        have hw' := hfits w hw
        rw [List.length_cons]
        omega
      · intro k hk
        rw [List.length_cons]
        omega
      · cases i with
        | zero =>
            cases hs'
            refine ⟨v, hvalue, fun w hw => ?_⟩
            rw [Nat.zero_mul, Nat.add_zero] at hw
            have hw' := hfits w hw
            exact (hholds w hw).frame hframe' fun k h₁ h₂ h₃ => by omega
        | succ i =>
            obtain ⟨v', hv', hall⟩ := hholds' i s' hs'
            have hat : at' + (i + 1) * 16 = at' + 16 + i * 16 := by omega
            exact ⟨v', hv', by rw [hat]; exact hall⟩

end Whale.MachO.Symbols
