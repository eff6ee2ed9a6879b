import Mathlib.Data.List.Basic
import Whale.Asmobj.Convert

set_option autoImplicit false

/-! # The conversion as a map

What the conversion is for: names are looked up in a map from the bytes of a name to the last
symbol that has it. -/

namespace Whale.Asmobj

def Symbol.bytes (symbol : Symbol) : List UInt8 := symbol.name.bytes

def Relocation.bytes (r : Relocation) : List UInt8 := r.name.bytes

/-- The last symbol of a name. -/
def lastNamed (symbols : List Symbol) (name : List UInt8) : Option Symbol :=
  symbols.reverse.find? fun symbol => symbol.bytes = name

/-- Whether a name is undefined: no symbol has it, or the last one that has it is undefined. -/
def undefinedFlag (symbols : List Symbol) (name : List UInt8) : Nat :=
  match lastNamed symbols name with
  | none => 1
  | some symbol => if symbol.sectionIndex = noSection then 1 else 0

/-- The relocations that are the first of a name that is not known. -/
def newRows (known : List (List UInt8)) : List Relocation → List Relocation
  | [] => []
  | r :: rs =>
      if r.bytes ∈ known then newRows known rs else r :: newRows (known ++ [r.bytes]) rs

def machineOf (namespaceName : List UInt8) : Option Nat :=
  if namespaceName = aarch64.bytes then some 1
  else if namespaceName = riscv64.bytes then some 2
  else if namespaceName = loongarch64.bytes then some 3
  else none

/-- The rule of the target: the kind and the code of a relocation, or a status. -/
def selectKind (target : Target) (r : Relocation) (undefined : Nat) : Except Nat (Nat × Nat) :=
  if r.kind = 4 then
    if target.format = 2 then .ok (8, 2)
    else if undefined = 0 then .ok (3, 0)
    else .ok (4, 0)
  else if r.kind ≠ 6 then .ok (r.kind, 0)
  else
    match machineOf r.namespaceName.bytes with
    | none => .error 3
    | some machine =>
        if machine ≠ target.machine then .error 4
        else if target.format = 0 then .ok (6, r.code)
        else if target.format = 2 ∧ machine = 1 ∧ (r.code = 282 ∨ r.code = 283) then .ok (8, 2)
        else if target.format = 1 ∧ machine = 1 then
          if r.code = 274 then .ok (7, 5)
          else if r.code = 280 then .ok (7, 15)
          else if r.code = 282 ∨ r.code = 283 then .ok (7, 3)
          else .error 5
        else .error 6

structure Converted where
  sections : List Section
  symbols : List Symbol
  relocations : List Relocation

/-- A relocation with the kind and the code that the rule selects. -/
def convertRelocation (target : Target) (symbols : List Symbol) (r : Relocation) :
    Except Nat Relocation :=
  match selectKind target r (undefinedFlag symbols r.bytes) with
  | .error status => .error status
  | .ok (kind, code) => .ok (emitRelocation r kind code)

def convert (target : Target) (sections : List Section) (symbols : List Symbol)
    (relocations : List Relocation) : Except Nat Converted := do
  let converted ← relocations.mapM (convertRelocation target symbols)
  return {
    sections := sections.map emitSection
    symbols := symbols ++ (newRows (symbols.map Symbol.bytes) relocations).map emitUndefined
    relocations := converted }

/-! ## Names -/

theorem lastNamed_append (symbols : List Symbol) (symbol : Symbol) (name : List UInt8) :
    lastNamed (symbols ++ [symbol]) name =
      if symbol.bytes = name then some symbol else lastNamed symbols name := by
  unfold lastNamed
  rw [List.reverse_append, List.reverse_singleton, List.singleton_append, List.find?_cons]
  by_cases h : symbol.bytes = name
  · rw [if_pos h, decide_eq_true h]
  · rw [if_neg h, decide_eq_false h]

theorem undefinedFlag_append (symbols : List Symbol) (symbol : Symbol) (name : List UInt8) :
    undefinedFlag (symbols ++ [symbol]) name =
      if symbol.bytes = name then (if symbol.sectionIndex = noSection then 1 else 0)
      else undefinedFlag symbols name := by
  unfold undefinedFlag
  rw [lastNamed_append]
  by_cases h : symbol.bytes = name
  · rw [if_pos h, if_pos h]
  · rw [if_neg h, if_neg h]

theorem undefinedFlag_notMem {symbols : List Symbol} {name : List UInt8}
    (h : name ∉ symbols.map Symbol.bytes) : undefinedFlag symbols name = 1 := by
  have hnone : lastNamed symbols name = none := by
    apply List.find?_eq_none.mpr
    intro symbol hmem heq
    apply h
    rw [← of_decide_eq_true heq]
    exact List.mem_map_of_mem (List.mem_reverse.mp hmem)
  unfold undefinedFlag
  rw [hnone]

theorem newRows_congr {known known' : List (List UInt8)} (h : ∀ n, n ∈ known ↔ n ∈ known')
    (rs : List Relocation) : newRows known rs = newRows known' rs := by
  induction rs generalizing known known' with
  | nil => rfl
  | cons r rs ih =>
      unfold newRows
      by_cases hmem : r.bytes ∈ known
      · rw [if_pos hmem, if_pos ((h _).mp hmem), ih h]
      · rw [if_neg hmem, if_neg fun hmem' => hmem ((h _).mpr hmem')]
        congr 1
        apply ih
        intro n
        rw [List.mem_append, List.mem_append, h]

/-- The first row is new or not; then its name is known. -/
theorem newRows_cons (known : List (List UInt8)) (seen : List Relocation) (r : Relocation)
    (rs : List Relocation) :
    newRows (known ++ seen.map Relocation.bytes) (r :: rs) =
      if r.bytes ∈ known ++ seen.map Relocation.bytes then
        newRows (known ++ (seen ++ [r]).map Relocation.bytes) rs
      else r :: newRows (known ++ (seen ++ [r]).map Relocation.bytes) rs := by
  rw [List.map_append, ← List.append_assoc, List.map_singleton, newRows]
  by_cases hmem : r.bytes ∈ known ++ seen.map Relocation.bytes
  · rw [if_pos hmem, if_pos hmem]
    apply newRows_congr
    intro n
    rw [List.mem_append (t := [r.bytes]), List.mem_singleton]
    exact ⟨.inl, fun h => h.elim id fun heq => heq ▸ hmem⟩
  · rw [if_neg hmem, if_neg hmem]

/-- The new names, each once, in the order of their first occurrence. -/
theorem newRows_names (known : List (List UInt8)) (rs : List Relocation) :
    (newRows known rs).map Relocation.bytes =
      ((rs.map Relocation.bytes).filter (· ∉ known)).eraseDups := by
  induction rs generalizing known with
  | nil => rfl
  | cons r rs ih =>
      unfold newRows
      rw [List.map_cons]
      by_cases hmem : r.bytes ∈ known
      · rw [if_pos hmem, List.filter_cons_of_neg (by simpa using hmem), ih]
      · rw [if_neg hmem, List.filter_cons_of_pos (by simpa using hmem), List.map_cons, ih,
          List.eraseDups_cons, List.filter_filter]
        congr 2
        apply List.filter_congr
        intro n _
        by_cases hn : n = r.bytes
        · simp [hn]
        · simp [hn]

end Whale.Asmobj
