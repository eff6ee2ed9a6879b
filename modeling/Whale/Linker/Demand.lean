import Whale.Linker.Symbols

set_option autoImplicit false

/-! # What a selection demands

A name is demanded of the objects that follow when the entry or a relocation names it, no
object selected so far exports it and the object with the relocation does not satisfy it by
itself. `unresolved` spends one unit of work for each symbol and each relocation and returns
the demanded names (`unresolved_eq`, `mem_unresolvedNames`). -/

namespace Whale.Linker

/-! ## Demand -/

/-- The object has a global or weak definition of the name. -/
def Exports (object : ObjectFile) (name : String) : Prop :=
  ∃ symbol ∈ object.symbols, exports symbol = true ∧ symbol.name = name

/-- The symbol satisfies the references of its own object without any other object: a local
definition does, and a weak declaration, whose value is then zero. -/
def SelfSufficient (symbol : ObjectSymbol) : Prop :=
  symbol.binding = .local ∧ symbol.sectionIndex.isSome = true ∨
    symbol.binding = .weak ∧ symbol.sectionIndex.isNone = true

/-- A relocation of the object names a symbol the object cannot supply by itself. -/
def Demands (object : ObjectFile) (name : String) : Prop :=
  (∃ relocation ∈ object.relocations, relocation.symbol = name) ∧
    ∀ symbol ∈ object.symbols, symbol.name = name → ¬ SelfSufficient symbol

/-- The name must come from an object that is not selected yet. -/
def Demanded (entry : String) (objects : List ObjectFile) (name : String) : Prop :=
  (∀ object ∈ objects, ¬ Exports object name) ∧
    (name = entry ∨ ∃ object ∈ objects, Demands object name)

/-! ## Spending work -/

/-- `n` charges at once. -/
def spend (n : Nat) : SelectM Unit := fun s =>
  if n ≤ s.fuel then .ok () { s with fuel := s.fuel - n }
  else .error .workBudget { s with fuel := 0 }

theorem spend_run {n : Nat} {s : Selection} (h : n ≤ s.fuel) :
    spend n s = .ok () { s with fuel := s.fuel - n } := if_pos h

theorem spend_ok {n : Nat} {s s' : Selection} (h : spend n s = .ok () s') :
    s'.selected = s.selected := by
  unfold spend at h
  split at h
  · cases h
    rfl
  · cases h

theorem spend_zero : spend 0 = pure () := by
  funext s
  rw [spend_run (Nat.zero_le _)]
  rfl

theorem charge_eq : charge = spend 1 := by
  funext s
  have hrun : charge s = ((orThrow (checkedSub s.fuel 1) SelectionError.workBudget : SelectM Nat)
      >>= fun fuel => set { s with fuel := fuel }) s := rfl
  rw [hrun, bind_run, orThrow_run]
  by_cases h : 1 ≤ s.fuel
  · simp [checkedSub, h, spend]
  · have hzero : s.fuel = 0 := by omega
    simp [checkedSub, spend, hzero]
    rw [← hzero]

theorem spend_add (m n : Nat) : (do spend m; spend n) = spend (m + n) := by
  funext s
  rw [bind_run]
  unfold spend
  by_cases hm : m ≤ s.fuel
  · by_cases hn : m + n ≤ s.fuel
    · have hrest : n ≤ s.fuel - m := by omega
      simp [hm, hn, hrest, Nat.sub_sub]
    · have hrest : ¬ n ≤ s.fuel - m := by omega
      simp [hm, hn, hrest]
  · have hsum : ¬ m + n ≤ s.fuel := by omega
    simp [hm, hsum]

theorem charges_eq {α : Type} (xs : List α) : (xs.forM fun _ => charge) = spend xs.length := by
  induction xs with
  | nil => exact spend_zero.symm
  | cons x xs ih =>
      have hcons : ((x :: xs).forM fun _ => charge) = (do charge; xs.forM fun _ => charge) := rfl
      rw [hcons, ih, charge_eq, spend_add, List.length_cons, Nat.add_comm]

/-! ## The scan for unresolved names -/

def exportedNames (objects : List ObjectFile) : List String :=
  ((objects.flatMap ObjectFile.symbols).filter exports).map ObjectSymbol.name

/-- What `needs` returns. -/
def neededNames (definitions : List String) (object : ObjectFile) : List String :=
  let locals := (object.symbols.filter fun s =>
    s.binding = .local && s.sectionIndex.isSome).map ObjectSymbol.name
  let weak := (object.symbols.filter fun s =>
    s.binding = .weak && s.sectionIndex.isNone).map ObjectSymbol.name
  (object.relocations.map ObjectRelocation.symbol).filter fun name =>
    name ∉ definitions && name ∉ locals && name ∉ weak

/-- What `unresolved` returns. -/
def unresolvedNames (entry : String) (objects : List ObjectFile) : List String :=
  (if entry ∈ exportedNames objects then [] else [entry]) ++
    (objects.map (neededNames (exportedNames objects))).flatten

def relocationCount (objects : List ObjectFile) : Nat :=
  (objects.map fun o => o.relocations.length).sum

/-- The work of one scan. -/
def scanCost (objects : List ObjectFile) : Nat :=
  (objects.flatMap ObjectFile.symbols).length + relocationCount objects

theorem definitions_eq (objects : List ObjectFile) :
    definitions objects = (do
      spend (objects.flatMap ObjectFile.symbols).length
      return exportedNames objects) := by
  show ((objects.flatMap ObjectFile.symbols).forM fun _ => charge) >>= _ = _
  rw [charges_eq]
  rfl

theorem needs_eq (definitions : List String) (object : ObjectFile) :
    needs definitions object = (do
      spend object.relocations.length
      return neededNames definitions object) := by
  show (object.relocations.forM fun _ => charge) >>= _ = _
  rw [charges_eq]
  rfl

theorem mapM_needs (definitions : List String) (objects : List ObjectFile) :
    objects.mapM (needs definitions) = (do
      spend (relocationCount objects)
      return objects.map (neededNames definitions)) := by
  induction objects with
  | nil =>
      show pure [] = (spend 0 >>= fun _ => pure [])
      rw [spend_zero, pure_bind]
  | cons o objects ih =>
      rw [List.mapM_cons, ih, needs_eq, bind_assoc]
      have hcount : relocationCount (o :: objects) =
          o.relocations.length + relocationCount objects := rfl
      rw [hcount, ← spend_add]
      simp only [bind_assoc, pure_bind, List.map_cons]

theorem unresolved_eq (entry : String) (s : Selection) :
    unresolved entry s =
      (do spend (scanCost s.selected); return unresolvedNames entry s.selected) s := by
  show (definitions s.selected >>= fun d => s.selected.mapM (needs d) >>= fun n =>
    pure ((if entry ∈ d then [] else [entry]) ++ n.flatten)) s = _
  rw [definitions_eq]
  simp only [bind_assoc, pure_bind, mapM_needs]
  unfold scanCost
  rw [← spend_add]
  simp only [bind_assoc]
  rfl

theorem mem_exportedNames {objects : List ObjectFile} {name : String} :
    name ∈ exportedNames objects ↔ ∃ object ∈ objects, Exports object name := by
  simp only [exportedNames, List.mem_map, List.mem_filter, List.mem_flatMap, Exports]
  constructor
  · rintro ⟨symbol, ⟨⟨object, hobject, hsymbol⟩, hexports⟩, hname⟩
    exact ⟨object, hobject, symbol, hsymbol, hexports, hname⟩
  · rintro ⟨object, hobject, symbol, hsymbol, hexports, hname⟩
    exact ⟨symbol, ⟨⟨object, hobject, hsymbol⟩, hexports⟩, hname⟩

theorem mem_neededNames {definitions : List String} {object : ObjectFile} {name : String} :
    name ∈ neededNames definitions object ↔ name ∉ definitions ∧ Demands object name := by
  simp only [neededNames, List.mem_filter, List.mem_map, Bool.and_eq_true, decide_eq_true_eq,
    Demands, SelfSufficient]
  constructor
  · rintro ⟨hnamed, ⟨hdefined, hlocal⟩, hweak⟩
    refine ⟨hdefined, hnamed, fun symbol hsymbol hname => ?_⟩
    rintro (h | h)
    · exact hlocal ⟨symbol, ⟨hsymbol, h⟩, hname⟩
    · exact hweak ⟨symbol, ⟨hsymbol, h⟩, hname⟩
  · rintro ⟨hdefined, hnamed, hself⟩
    refine ⟨hnamed, ⟨hdefined, ?_⟩, ?_⟩
    · rintro ⟨symbol, ⟨hsymbol, h⟩, hname⟩
      exact hself symbol hsymbol hname (.inl h)
    · rintro ⟨symbol, ⟨hsymbol, h⟩, hname⟩
      exact hself symbol hsymbol hname (.inr h)

/-- The scan finds the demanded names. -/
theorem mem_unresolvedNames {entry : String} {objects : List ObjectFile} {name : String} :
    name ∈ unresolvedNames entry objects ↔ Demanded entry objects name := by
  have hexported : (∀ object ∈ objects, ¬ Exports object name) ↔ name ∉ exportedNames objects := by
    rw [mem_exportedNames]
    push Not
    rfl
  rw [unresolvedNames, List.mem_append, Demanded, hexported]
  simp only [List.mem_flatten, List.mem_map]
  constructor
  · rintro (h | ⟨_, ⟨object, hobject, rfl⟩, hname⟩)
    · split at h
      · cases h
      · rename_i hentry
        have hname : name = entry := List.mem_singleton.mp h
        exact ⟨hname ▸ hentry, .inl hname⟩
    · obtain ⟨hdefined, hdemands⟩ := mem_neededNames.mp hname
      exact ⟨hdefined, .inr ⟨object, hobject, hdemands⟩⟩
  · rintro ⟨hdefined, rfl | ⟨object, hobject, hdemands⟩⟩
    · rw [if_neg hdefined]
      exact .inl (List.mem_singleton.mpr rfl)
    · exact .inr ⟨_, ⟨object, hobject, rfl⟩, mem_neededNames.mpr ⟨hdefined, hdemands⟩⟩

theorem unresolved_ok {entry : String} {s s' : Selection} {names : List String}
    (h : unresolved entry s = .ok names s') :
    s'.selected = s.selected ∧ names = unresolvedNames entry s.selected := by
  rw [unresolved_eq, bind_run] at h
  cases hspend : spend (scanCost s.selected) s with
  | error e t =>
      rw [hspend] at h
      cases h
  | ok u t =>
      rw [hspend] at h
      cases h
      exact ⟨spend_ok hspend, rfl⟩

theorem unresolved_run {entry : String} {s : Selection} (h : scanCost s.selected ≤ s.fuel) :
    unresolved entry s = .ok (unresolvedNames entry s.selected)
      { s with fuel := s.fuel - scanCost s.selected } := by
  rw [unresolved_eq, bind_run, spend_run h]
  rfl

/-- An object whose text holds one call, to `callee`, and defines `name`. -/
def callingObject (name callee : String) : ObjectFile where
  target := ObjectTarget.x86_64WhaleLinux
  sections :=
    [{ name := ".text", kind := .text, zeroFill := 0, align := 16
       data := [0xe8, 0, 0, 0, 0, 0xc3] }]
  symbols :=
    [{ kind := .function, name := name, sectionIndex := some 0, value := 0, size := 6
       binding := .global, visibility := .default }]
  relocations :=
    [{ sectionIndex := 0, offset := 1, symbol := callee, addend := -4, kind := .plt32 }]

end Whale.Linker
