import Whale.Object.Object

set_option autoImplicit false

/-! # Symbols that only relocations name

A writer adds one undefined symbol for each of them, in the order of first occurrence. -/

namespace Whale

/-- The names in `names` that are not in `known`, each once. -/
def newNames (known names : List String) : List String :=
  (names.filter (· ∉ known)).eraseDups

/-- The names of relocated symbols that no symbol of the object has. -/
def undeclared (o : ObjectFile) : List String :=
  newNames (o.symbols.map ObjectSymbol.name) (o.relocations.map ObjectRelocation.symbol)

/-- The names of the symbols a writer puts out. -/
def outputNames (o : ObjectFile) : List String :=
  o.symbols.map ObjectSymbol.name ++ undeclared o

theorem newNames_nil (known : List String) : newNames known [] = [] := rfl

theorem newNames_cons_of_mem {known names : List String} {name : String} (h : name ∈ known) :
    newNames known (name :: names) = newNames known names := by
  unfold newNames
  rw [List.filter_cons_of_neg (by simpa using h)]

theorem newNames_cons_of_notMem {known names : List String} {name : String}
    (h : name ∉ known) :
    newNames known (name :: names) = name :: newNames (known ++ [name]) names := by
  unfold newNames
  rw [List.filter_cons_of_pos (by simpa using h), List.eraseDups_cons, List.filter_filter]
  congr 2
  refine List.filter_congr fun n _ => ?_
  by_cases hn : n = name <;> simp [hn, h]

theorem newNames_congr {known known' : List String} (h : ∀ n, n ∈ known ↔ n ∈ known')
    (names : List String) : newNames known names = newNames known' names := by
  unfold newNames
  have hsame : ∀ n ∈ names, decide (n ∉ known) = decide (n ∉ known') := fun n _ => by simp [h]
  rw [List.filter_congr hsame]

theorem mem_newNames {known names : List String} {name : String} :
    name ∈ newNames known names ↔ name ∈ names ∧ name ∉ known := by
  unfold newNames
  rw [List.mem_eraseDups, List.mem_filter, decide_eq_true_eq]

theorem newNames_append (known as bs : List String) :
    newNames known (as ++ bs) = newNames known as ++ newNames (known ++ as) bs := by
  induction as generalizing known with
  | nil => rw [List.nil_append, newNames_nil, List.nil_append, List.append_nil]
  | cons a as ih =>
      by_cases h : a ∈ known
      · rw [List.cons_append, newNames_cons_of_mem h, newNames_cons_of_mem h, ih]
        congr 1
        refine newNames_congr (fun n => ?_) bs
        simp only [List.mem_append, List.mem_cons]
        constructor
        · exact fun hn => hn.elim .inl fun hn => .inr (.inr hn)
        · rintro (hn | rfl | hn)
          · exact .inl hn
          · exact .inl h
          · exact .inr hn
      · rw [List.cons_append, newNames_cons_of_notMem h, newNames_cons_of_notMem h, ih,
          List.append_assoc, List.singleton_append, List.cons_append]

theorem newNames_eq_self {known names : List String} (hnodup : names.Nodup)
    (hnew : ∀ n ∈ names, n ∉ known) : newNames known names = names := by
  induction names generalizing known with
  | nil => rfl
  | cons name names ih =>
      obtain ⟨hname, hnodup⟩ := List.nodup_cons.mp hnodup
      rw [newNames_cons_of_notMem (hnew name List.mem_cons_self), ih hnodup]
      intro n hn hmem
      rcases List.mem_append.mp hmem with hmem | hmem
      · exact hnew n (List.mem_cons_of_mem _ hn) hmem
      · exact hname (List.mem_singleton.mp hmem ▸ hn)

theorem newNames_all {o : ObjectFile} (h : (o.symbols.map ObjectSymbol.name).Nodup) :
    newNames [] (o.symbols.map ObjectSymbol.name ++ o.relocations.map ObjectRelocation.symbol) =
      outputNames o := by
  rw [newNames_append, newNames_eq_self h (fun _ _ => List.not_mem_nil), List.nil_append]
  rfl

theorem mem_outputNames {o : ObjectFile} {r : ObjectRelocation} (h : r ∈ o.relocations) :
    r.symbol ∈ outputNames o := by
  unfold outputNames undeclared
  rw [List.mem_append, mem_newNames]
  by_cases hknown : r.symbol ∈ o.symbols.map ObjectSymbol.name
  · exact .inl hknown
  · exact .inr ⟨List.mem_map_of_mem h, hknown⟩

end Whale
