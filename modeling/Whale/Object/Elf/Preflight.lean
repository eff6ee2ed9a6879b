import Mathlib.Algebra.Order.BigOperators.Group.List
import Mathlib.Algebra.Order.Group.Nat
import Whale.Object.Elf.Write
import Whale.Object.Valid

set_option autoImplicit false

/-! # The size of an ELF object

The sizes of the tables and of the file of an object, without limits and without overflow. Each
part ends where the parts before it say, and no part is longer than the file. -/

namespace Whale.Elf

/-! ## Tables -/

/-- The number of relocations of each section that has any. -/
def relocationCounts (o : ObjectFile) : List Nat :=
  ((List.range o.sections.length).map fun i => (relocationsOf o i).length).filter (· ≠ 0)

/-- The symbols of the output and the null symbol. -/
def symbolCount (o : ObjectFile) : Nat := (outputNames o).length + 1

/-- The section headers: the null header and the metadata make four. -/
def headerCount (o : ObjectFile) : Nat := o.sections.length + (relocationCounts o).length + 4

/-- A name in a string table, with its zero byte. -/
def nameSize (name : String) : Nat := (asBytes name).length + 1

/-- The names of a section and of its relocation table. -/
def sectionNameSize (o : ObjectFile) (e : Section × Nat) : Nat :=
  nameSize e.1.name + if relocationsOf o e.2 = [] then 0 else nameSize e.1.name + 5

/-- The section-name table, before the names of the metadata. -/
def sectionNamesSize (o : ObjectFile) : Nat :=
  1 + (o.sections.zipIdx.map (sectionNameSize o)).sum

def metadataNamesSize : Nat := (metadataNames.map nameSize).sum

/-- A name in the string table of the symbols: the empty name is at its start. -/
def symbolNameSize (name : String) : Nat := if name = "" then 0 else nameSize name

def stringsSize (o : ObjectFile) : Nat := 1 + ((outputNames o).map symbolNameSize).sum

/-! ## The file -/

def sectionEnd (offset : Nat) (s : Section) : Nat :=
  if s.kind = .bss then offset else roundUp offset (max s.align.toNat 1) + s.data.length

/-- The end of a table of `count` records of 24 bytes. -/
def tableEnd (offset count : Nat) : Nat := roundUp offset 8 + count * 24

def sectionsEnd (o : ObjectFile) : Nat := o.sections.foldl sectionEnd 64

def relocationsEnd (o : ObjectFile) : Nat := (relocationCounts o).foldl tableEnd (sectionsEnd o)

def symbolsEnd (o : ObjectFile) : Nat := tableEnd (relocationsEnd o) (symbolCount o)

def tablesEnd (o : ObjectFile) : Nat :=
  symbolsEnd o + stringsSize o + (sectionNamesSize o + metadataNamesSize)

/-- The number of bytes of the file. -/
def fileSize (o : ObjectFile) : Nat := roundUp (tablesEnd o) 8 + headerCount o * 64

/-! ## Every part is within the file -/

theorem le_foldl_of_le {α : Type} {f : Nat → α → Nat} (hf : ∀ n a, n ≤ f n a) (n : Nat)
    (as : List α) : n ≤ as.foldl f n := by
  induction as generalizing n with
  | nil => exact le_rfl
  | cons a as ih => exact (hf n a).trans (ih (f n a))

theorem le_sectionEnd (offset : Nat) (s : Section) : offset ≤ sectionEnd offset s := by
  unfold sectionEnd
  split
  · exact le_rfl
  · exact (le_roundUp (by omega) offset).trans (Nat.le_add_right _ _)

theorem le_tableEnd (offset count : Nat) : offset ≤ tableEnd offset count :=
  (le_roundUp (by decide) offset).trans (Nat.le_add_right _ _)

theorem table_le_tableEnd (offset count : Nat) : count * 24 ≤ tableEnd offset count :=
  Nat.le_add_left _ _

variable {count : Nat}

theorem table_le_foldl {counts : List Nat} (h : count ∈ counts) (offset : Nat) :
    count * 24 ≤ counts.foldl tableEnd offset := by
  induction counts generalizing offset with
  | nil => cases h
  | cons first counts ih =>
      rcases List.mem_cons.mp h with rfl | h
      · exact (table_le_tableEnd offset count).trans (le_foldl_of_le le_tableEnd _ counts)
      · exact ih h _

section

variable (o : ObjectFile)

theorem sectionsEnd_le_relocationsEnd : sectionsEnd o ≤ relocationsEnd o :=
  le_foldl_of_le le_tableEnd _ _

theorem relocationsEnd_le_symbolsEnd : relocationsEnd o ≤ symbolsEnd o := le_tableEnd _ _

theorem tablesEnd_le_fileSize : tablesEnd o ≤ fileSize o :=
  (le_roundUp (by decide) _).trans (Nat.le_add_right _ _)

theorem symbolsEnd_le_fileSize : symbolsEnd o ≤ fileSize o :=
  calc symbolsEnd o ≤ symbolsEnd o + (stringsSize o + (sectionNamesSize o + metadataNamesSize)) :=
        Nat.le_add_right _ _
    _ = tablesEnd o := (Nat.add_assoc _ _ _).symm
    _ ≤ fileSize o := tablesEnd_le_fileSize o

theorem sectionsEnd_le_fileSize : sectionsEnd o ≤ fileSize o :=
  calc sectionsEnd o ≤ relocationsEnd o := sectionsEnd_le_relocationsEnd o
    _ ≤ symbolsEnd o := relocationsEnd_le_symbolsEnd o
    _ ≤ fileSize o := symbolsEnd_le_fileSize o

theorem stringsSize_le_fileSize : stringsSize o ≤ fileSize o := by
  have htables := tablesEnd_le_fileSize o
  unfold tablesEnd at htables
  omega

theorem sectionNamesSize_le_fileSize : sectionNamesSize o + metadataNamesSize ≤ fileSize o := by
  have htables := tablesEnd_le_fileSize o
  unfold tablesEnd at htables
  omega

theorem headers_le_fileSize : headerCount o * 64 ≤ fileSize o := Nat.le_add_left _ _

theorem symbols_le_fileSize : symbolCount o * 24 ≤ fileSize o :=
  (table_le_tableEnd _ _).trans (symbolsEnd_le_fileSize o)

theorem relocations_le_fileSize (h : count ∈ relocationCounts o) : count * 24 ≤ fileSize o :=
  calc count * 24 ≤ relocationsEnd o := table_le_foldl h _
    _ ≤ symbolsEnd o := relocationsEnd_le_symbolsEnd o
    _ ≤ fileSize o := symbolsEnd_le_fileSize o

end

/-! ## Counting -/

theorem nodup_eraseDups {α : Type} [DecidableEq α] (as : List α) : as.eraseDups.Nodup := by
  induction hn : as.length using Nat.strong_induction_on generalizing as with
  | _ n ih =>
      cases as with
      | nil => exact List.nodup_nil
      | cons a as =>
          rw [List.eraseDups_cons, List.nodup_cons]
          constructor
          · simp [List.mem_eraseDups]
          · have hle := List.length_filter_le (fun b => !b == a) as
            rw [List.length_cons] at hn
            exact ih _ (by omega) _ rfl

theorem mem_relocationCounts {o : ObjectFile} {i : Nat} (hi : i < o.sections.length)
    (h : relocationsOf o i ≠ []) : (relocationsOf o i).length ∈ relocationCounts o := by
  unfold relocationCounts
  rw [List.mem_filter]
  refine ⟨List.mem_map.mpr ⟨i, List.mem_range.mpr hi, rfl⟩, ?_⟩
  simpa using h

/-- In a valid object the sections that relocations name are those that have relocations. -/
theorem length_relocationCounts {o : ObjectFile} (hvalid : o.Valid) :
    (relocationCounts o).length = relocationSections o := by
  have hindices : (relocationCounts o).length =
      ((List.range o.sections.length).filter fun i => relocationsOf o i ≠ []).length := by
    unfold relocationCounts
    rw [List.filter_map, List.length_map]
    congr 2
    funext i
    simp
  rw [hindices]
  unfold relocationSections
  refine List.Perm.length_eq ((List.perm_ext_iff_of_nodup ?_ ?_).mpr fun i => ?_)
  · exact List.nodup_range.filter _
  · exact nodup_eraseDups _
  · rw [List.mem_filter, List.mem_range, List.mem_eraseDups, List.mem_map, decide_eq_true_eq]
    constructor
    · intro h
      obtain ⟨r, hr⟩ := List.exists_mem_of_ne_nil _ h.2
      unfold relocationsOf at hr
      obtain ⟨hmem, hindex⟩ := List.mem_filter.mp hr
      exact ⟨r, hmem, of_decide_eq_true hindex⟩
    · rintro ⟨r, hr, rfl⟩
      obtain ⟨-, s, hs, -⟩ := hvalid.relocations r hr
      refine ⟨(List.getElem?_eq_some_iff.mp hs).1, List.ne_nil_of_mem (a := r) ?_⟩
      unfold relocationsOf
      rw [List.mem_filter]
      exact ⟨hr, decide_eq_true rfl⟩

/-! # The preflight of the ELF writer

The preflight computes the size of the file. Where that size fits its limit and the format, no
check of the preflight fails. -/

/-! ## Checks that succeed -/

variable {offset : Nat}

theorem alignUp_eq {offset k : Nat} (hk : k ≤ 64) (h : roundUp offset (2 ^ k) < wordBound) :
    alignUp offset (2 ^ k) = .ok (roundUp offset (2 ^ k)) := by
  unfold alignUp
  rw [require_of (isPowerOfTwo_iff.mpr ⟨k, rfl⟩), ok_bind]
  exact orThrow_ok_iff.mpr ((checkedAlignUp_iff hk).mpr ⟨rfl, h⟩)

theorem advance_eq {offset size : Nat} (h : offset + size < wordBound) :
    advance offset size = .ok (offset + size) :=
  orThrow_ok_iff.mpr (checkedAdd_eq_some.mpr ⟨rfl, h⟩)

theorem checkedU32_eq {value : Nat} (h : value < 2 ^ 32) : checkedU32 value = .ok value := by
  unfold checkedU32
  rw [require_of h]
  rfl

variable {limit : Nat}

theorem checkedOutputSize_eq {size limit : Nat} (hlimit : size ≤ limit) (hword : size < 2 ^ 63) :
    checkedOutputSize size limit = .ok size := by
  unfold checkedOutputSize
  rw [require_of hlimit, ok_bind, require_of hword]
  rfl

theorem checkedTableBytes_eq {count stride limit : Nat} (hlimit : count * stride ≤ limit)
    (hword : count * stride < 2 ^ 63) :
    checkedTableBytes count stride limit = .ok (count * stride) := by
  have hsize : count * stride < wordBound := hword.trans (by decide)
  unfold checkedTableBytes
  rw [orThrow_ok_iff.mpr (checkedMul_eq_some.mpr ⟨rfl, hsize⟩), ok_bind]
  exact checkedOutputSize_eq hlimit hword

theorem checkedNameEnd_eq {current nameLen : Nat} (h : current + (nameLen + 1) < 2 ^ 32) :
    checkedNameEnd current nameLen = .ok (current + (nameLen + 1)) := by
  have hword : current + (nameLen + 1) < wordBound := h.trans (by decide)
  have hfirst : checkedAdd current nameLen = some (current + nameLen) :=
    checkedAdd_eq_some.mpr ⟨rfl, by omega⟩
  have hsum : (checkedAdd current nameLen >>= (checkedAdd · 1)) =
      some (current + (nameLen + 1)) := by
    rw [hfirst]
    exact checkedAdd_eq_some.mpr ⟨Nat.add_assoc _ _ _, hword⟩
  unfold checkedNameEnd
  rw [hsum, orThrow_some, ok_bind]
  exact checkedU32_eq h

theorem checkedSectionCount_ok_iff {input relocationSections count : Nat} :
    checkedSectionCount input relocationSections = .ok count ↔
      count = input + relocationSections + 4 ∧ count < 0xff00 := by
  unfold checkedSectionCount
  rw [bind_ok_iff]
  constructor
  · rintro ⟨sum, hsum, h⟩
    obtain ⟨first, hfirst, hsum⟩ := Option.bind_eq_some_iff.mp (orThrow_ok_iff.mp hsum)
    obtain ⟨rfl, -⟩ := checkedAdd_eq_some.mp hfirst
    obtain ⟨rfl, -⟩ := checkedAdd_eq_some.mp hsum
    obtain ⟨hlt, h⟩ := require_then_ok_iff.mp h
    cases h
    exact ⟨rfl, hlt⟩
  · rintro ⟨rfl, hlt⟩
    have hword : input + relocationSections + 4 < wordBound := hlt.trans (by decide)
    refine ⟨_, orThrow_ok_iff.mpr (Option.bind_eq_some_iff.mpr ⟨_,
      checkedAdd_eq_some.mpr ⟨rfl, by omega⟩, checkedAdd_eq_some.mpr ⟨rfl, hword⟩⟩), ?_⟩
    exact require_then_ok_iff.mpr ⟨hlt, rfl⟩

theorem alignUp_eight (h : roundUp offset 8 < wordBound) :
    alignUp offset 8 = .ok (roundUp offset 8) := alignUp_eq (k := 3) (by decide) h

theorem roundUp_lt {offset align : Nat} (h : 0 < align) : roundUp offset align < offset + align := by
  unfold roundUp
  have hle := Nat.div_mul_le_self (offset + align - 1) align
  omega

/-! ## The sizes -/

/-- What the preflight computes: the number of section headers and of symbols, and the size of the
file. -/
def preflightSizes (o : ObjectFile) (limit : Nat) : Except ObjectError (Nat × Nat × Nat) := do
  let counts ← countRelocations o.sections.length o.relocations []
  let sectionCount ← checkedSectionCount o.sections.length counts.length
  let (names, offset) ← o.sections.zipIdx.foldlM (preflightSection counts limit) (1, 64)
  let (symbols, strings) ← preflightNames limit
    (o.symbols.map ObjectSymbol.name ++ o.relocations.map ObjectRelocation.symbol) [] (1, 1)
  let _ ← checkedU32 symbols
  let offset ← ((List.range o.sections.length).filterMap fun i => counts.get i).foldlM
    (preflightTable limit 24) offset
  let offset ← preflightTable limit 24 offset symbols
  let names ← metadataNames.foldlM (fun names name => checkedNameEnd names (asBytes name).length)
    names
  let offset ← advance offset strings
  let offset ← advance offset names
  let headers ← checkedTableBytes sectionCount 64 limit
  let aligned ← alignUp offset 8
  let total ← advance aligned headers
  return (sectionCount, symbols, total)

/-- The preflight checks the sizes it computes. -/
theorem preflight_eq (o : ObjectFile) (limit : Nat) :
    preflight o limit = (do
      let (sectionCount, symbols, total) ← preflightSizes o limit
      let _ ← checkedOutputSize total limit
      let _ ← checkedTableBytes sectionCount 64 wordMax
      let _ ← checkedTableBytes symbols 56 wordMax
      let _ ← checkedTableBytes symbols 24 wordMax
      return ()) := by
  unfold preflight preflightSizes
  simp only [bind_assoc, pure_bind]

/-- The sizes of the object fit the limit and the format. -/
structure Fits (o : ObjectFile) (limit : Nat) : Prop where
  limit : fileSize o ≤ limit
  word : fileSize o < 2 ^ 63
  names : sectionNamesSize o + metadataNamesSize < 2 ^ 32
  strings : stringsSize o < 2 ^ 32
  symbols : symbolCount o < 2 ^ 32
  headers : headerCount o < 0xff00

/-! ## Counting relocations -/

theorem countRelocations_eq {sections : Nat} {relocations : List ObjectRelocation}
    {counts : AssocMap Nat Nat} (hindices : ∀ r ∈ relocations, r.sectionIndex < sections)
    (hfew : ∀ i, (counts.get i).getD 0 +
      (relocations.filter fun r => r.sectionIndex = i).length < wordBound)
    (hunique : counts.UniqueKeys) :
    ∃ all, countRelocations sections relocations counts = .ok all ∧ all.UniqueKeys ∧
      (∀ i, (all.get i).getD 0 = (counts.get i).getD 0 +
        (relocations.filter fun r => r.sectionIndex = i).length) ∧
      ∀ i, (all.get i).isSome = true ↔
        (counts.get i).isSome = true ∨ i ∈ relocations.map ObjectRelocation.sectionIndex := by
  -- `counts` holds what the relocations before have counted for each section.
  induction relocations generalizing counts with
  | nil => exact ⟨counts, rfl, hunique, fun i => rfl, fun i => by simp⟩
  | cons r relocations ih =>
      have hself : (r :: relocations).filter (fun r' => r'.sectionIndex = r.sectionIndex) =
          r :: relocations.filter (fun r' => r'.sectionIndex = r.sectionIndex) :=
        List.filter_cons_of_pos (by simp)
      have hfirst := hfew r.sectionIndex
      rw [hself, List.length_cons] at hfirst
      have hcount : advance ((counts.get r.sectionIndex).getD 0) 1 = .ok _ := advance_eq (by omega)
      have hget : ∀ i, ((counts.insert r.sectionIndex
          ((counts.get r.sectionIndex).getD 0 + 1)).get i).getD 0 +
            (relocations.filter fun r => r.sectionIndex = i).length =
          (counts.get i).getD 0 +
            ((r :: relocations).filter fun r => r.sectionIndex = i).length := by
        intro i
        rw [AssocMap.get_insert]
        by_cases hi : i = r.sectionIndex
        · subst hi
          rw [if_pos rfl, hself, List.length_cons, Option.getD_some]
          omega
        · have hne : ¬ decide (r.sectionIndex = i) = true :=
            fun h => hi (of_decide_eq_true h).symm
          rw [if_neg hi, List.filter_cons, if_neg hne]
      obtain ⟨all, hall, hkeys, hsum, hsome⟩ := ih
        (fun r' hr' => hindices r' (List.mem_cons_of_mem _ hr'))
        (fun i => by rw [hget]; exact hfew i)
        (AssocMap.uniqueKeys_insert r.sectionIndex ((counts.get r.sectionIndex).getD 0 + 1) hunique)
      refine ⟨all, ?_, hkeys, fun i => (hsum i).trans (hget i), fun i => ?_⟩
      · unfold countRelocations
        rw [require_of (hindices r List.mem_cons_self), ok_bind, hcount, ok_bind]
        exact hall
      · rw [hsome, AssocMap.get_insert, List.map_cons, List.mem_cons]
        by_cases hi : i = r.sectionIndex
        · simp [hi]
        · simp [hi]

/-- The counts of a valid object, and how many there are. -/
theorem countRelocations_valid {o : ObjectFile} (hvalid : o.Valid)
    (hfew : ∀ i, (relocationsOf o i).length < wordBound) :
    ∃ counts, countRelocations o.sections.length o.relocations [] = .ok counts ∧
      counts.length = relocationSections o ∧
      (∀ i, counts.get i = none ↔ relocationsOf o i = []) ∧
      (List.range o.sections.length).filterMap (fun i => counts.get i) = relocationCounts o := by
  obtain ⟨counts, hok, hkeys, hsum, hsome⟩ := @countRelocations_eq o.sections.length o.relocations []
    (fun r hr => (hvalid.relocations r hr).2.elim fun s hs =>
      (List.getElem?_eq_some_iff.mp hs.1).1)
    (fun i => by rw [AssocMap.get_nil, Option.getD_none, Nat.zero_add]; exact hfew i)
    AssocMap.uniqueKeys_nil
  simp only [AssocMap.get_nil, Option.getD_none, Nat.zero_add, Option.isSome_none, Bool.false_eq_true,
    false_or] at hsum hsome
  have hnone : ∀ i, counts.get i = none ↔ relocationsOf o i = [] := by
    intro i
    rw [← Option.not_isSome_iff_eq_none, hsome]
    unfold relocationsOf
    rw [List.filter_eq_nil_iff, List.mem_map]
    constructor
    · exact fun h r hr hi => h ⟨r, hr, of_decide_eq_true hi⟩
    · rintro h ⟨r, hr, hi⟩
      exact h r hr (decide_eq_true hi)
  refine ⟨counts, hok, ?_, hnone, ?_⟩
  · unfold relocationSections
    have hlength : (counts.map Prod.fst).length = counts.length := List.length_map Prod.fst
    rw [← hlength]
    refine List.Perm.length_eq ((List.perm_ext_iff_of_nodup hkeys (nodup_eraseDups _)).mpr ?_)
    intro i
    rw [List.mem_eraseDups, ← hsome, ← Option.ne_none_iff_isSome, ne_eq, AssocMap.get_eq_none_iff,
      not_not]
  · unfold relocationCounts
    rw [← List.filterMap_eq_filter, List.filterMap_map]
    congr 1
    funext i
    have hi := hsum i
    have hzero := hnone i
    unfold relocationsOf at hzero ⊢
    cases hget : counts.get i with
    | none => simp [hzero.mp hget, Option.guard]
    | some n =>
        rw [hget, Option.getD_some] at hi
        have hne : n ≠ 0 := by
          intro h
          rw [h] at hi
          rw [hzero.mpr (List.length_eq_zero_iff.mp hi.symm)] at hget
          cases hget
        simp [← hi, hne, Option.guard]

/-! ## Sections and names -/

/-- The sizes after a section. -/
def sectionStep (o : ObjectFile) (sizes : Nat × Nat) (e : Section × Nat) : Nat × Nat :=
  (sizes.1 + sectionNameSize o e, sectionEnd sizes.2 e.1)

theorem foldl_sectionStep (o : ObjectFile) (entries : List (Section × Nat)) (sizes : Nat × Nat) :
    entries.foldl (sectionStep o) sizes =
      (sizes.1 + (entries.map (sectionNameSize o)).sum,
        (entries.map Prod.fst).foldl sectionEnd sizes.2) := by
  induction entries generalizing sizes with
  | nil => rfl
  | cons e entries ih =>
      rw [List.foldl_cons, ih]
      unfold sectionStep
      rw [List.map_cons, List.sum_cons, List.map_cons, List.foldl_cons, Nat.add_assoc]

/-- The sizes so far pass the checks. -/
structure SizesFit (limit : Nat) (sizes : Nat × Nat) : Prop where
  names : sizes.1 < 2 ^ 32
  namesLimit : sizes.1 ≤ limit
  offset : sizes.2 < 2 ^ 63
  offsetLimit : sizes.2 ≤ limit

theorem SizesFit.back {o : ObjectFile} {sizes : Nat × Nat} {e : Section × Nat}
    (h : SizesFit limit (sectionStep o sizes e)) : SizesFit limit sizes := by
  have hoffset := le_sectionEnd sizes.2 e.1
  have hnames := h.names
  have hnamesLimit := h.namesLimit
  unfold sectionStep at h hnames hnamesLimit
  refine ⟨?_, ?_, hoffset.trans_lt h.offset, hoffset.trans h.offsetLimit⟩
  · exact (Nat.le_add_right _ _).trans_lt hnames
  · exact (Nat.le_add_right _ _).trans hnamesLimit

theorem preflightSection_eq {o : ObjectFile} {counts : AssocMap Nat Nat} {e : Section × Nat}
    (hvalid : e.1.Valid) (hcounts : counts.get e.2 = none ↔ relocationsOf o e.2 = [])
    {sizes : Nat × Nat} (h : SizesFit limit (sectionStep o sizes e)) :
    preflightSection counts limit sizes e = .ok (sectionStep o sizes e) := by
  obtain ⟨s, index⟩ := e
  obtain ⟨names, offset⟩ := sizes
  obtain ⟨k, hk, hpow⟩ := hvalid.align_pow
  have hbefore := h.back
  have hnames := h.names
  have hnamesLimit := h.namesLimit
  have hend := h.offset
  have hendLimit := h.offsetLimit
  have hoffset := hbefore.offset
  unfold sectionStep sectionNameSize at hnames hnamesLimit
  unfold sectionStep at hend hendLimit
  unfold nameSize at hnames hnamesLimit
  simp only at hpow
  simp only at hnames hnamesLimit hend hendLimit hoffset hcounts
  -- An alignment is at most half of the words, and so is the offset.
  have hround : roundUp offset (2 ^ k) < wordBound := by
    have hlt : roundUp offset (2 ^ k) < offset + 2 ^ k := roundUp_lt (Nat.two_pow_pos k)
    have hk : 2 ^ k ≤ 2 ^ 63 := by
      refine Nat.pow_le_pow_right (by decide) ?_
      have hword := s.align.toNat_lt
      have hlt : max s.align.toNat 1 < 2 ^ 64 := by omega
      rw [hpow] at hlt
      have hk := (Nat.pow_lt_pow_iff_right (by decide)).mp hlt
      omega
    unfold wordBound
    omega
  unfold preflightSection
  simp only
  rw [checkedNameEnd_eq (by omega), ok_bind, checkedOutputSize_eq (by omega) (by omega), ok_bind,
    require_of hvalid.align, ok_bind, hpow, alignUp_eq hk hround, ok_bind]
  have hdata : (if s.kind = .bss then (pure offset : Except ObjectError Nat)
      else advance (roundUp offset (2 ^ k)) s.fileSize) = .ok (sectionEnd offset s) := by
    unfold sectionEnd at hend ⊢
    by_cases hbss : s.kind = .bss
    · rw [if_pos hbss, if_pos hbss]
      rfl
    · rw [if_neg hbss, hpow] at hend
      rw [if_neg hbss, if_neg hbss, hpow]
      unfold Section.fileSize
      rw [if_neg hbss]
      exact advance_eq (hend.trans (by decide))
  have hrest : ∀ stop, stop = sectionEnd offset s →
      (do
        let names ← if (counts.get index).isNone = true
          then pure (names + ((asBytes s.name).length + 1))
          else do
            let length ← advance (asBytes s.name).length 5
            let names ← checkedNameEnd (names + ((asBytes s.name).length + 1)) length
            let _ ← checkedOutputSize names limit
            pure names
        let _ ← checkedOutputSize stop limit
        return (names, stop) : Except ObjectError (Nat × Nat)) =
        .ok (sectionStep o (names, offset) (s, index)) := by
    rintro stop rfl
    unfold sectionStep sectionNameSize nameSize
    by_cases hnone : relocationsOf o index = []
    · rw [if_pos hnone] at hnames hnamesLimit
      rw [hcounts.mpr hnone, Option.isNone_none, if_pos rfl, if_pos hnone]
      simp only [pure_bind]
      rw [checkedOutputSize_eq hendLimit hend, ok_bind]
      rfl
    · rw [if_neg hnone] at hnames hnamesLimit
      have hsome : ¬ (counts.get index).isNone = true := by
        rw [Option.isNone_iff_eq_none, hcounts]
        exact hnone
      rw [if_neg hsome, if_neg hnone]
      simp only
      rw [advance_eq (by unfold wordBound; omega), ok_bind, checkedNameEnd_eq (by omega), ok_bind,
        checkedOutputSize_eq (by omega) (by omega), ok_bind, pure_bind,
        checkedOutputSize_eq hendLimit hend, ok_bind, pure_eq_ok]
      congr 2
      omega
  by_cases hbss : s.kind = .bss
  · rw [if_pos hbss] at hdata ⊢
    exact hrest _ (Except.ok.inj hdata)
  · rw [if_neg hbss] at hdata ⊢
    rw [hdata, ok_bind]
    exact hrest _ rfl

theorem symbolNameSize_empty : symbolNameSize "" = 0 := rfl

theorem symbolNameSize_of_ne {name : String} (h : name ≠ "") :
    symbolNameSize name = (asBytes name).length + 1 := if_neg h

theorem length_asBytes_le_symbolNameSize (name : String) :
    (asBytes name).length ≤ symbolNameSize name := by
  unfold symbolNameSize nameSize
  split
  · rename_i hempty
    rw [hempty]
    decide
  · exact Nat.le_succ _

/-- Each name that is new adds a symbol and its place in the string table. -/
theorem preflightNames_eq {names seen : List String} {symbols strings : Nat}
    (hlengths : ∀ name ∈ names, (asBytes name).length ≤ limit ∧ (asBytes name).length < 2 ^ 63)
    (hsymbols : symbols + (newNames seen names).length < 2 ^ 32)
    (hstrings : strings + ((newNames seen names).map symbolNameSize).sum < 2 ^ 32)
    (hlimit : strings + ((newNames seen names).map symbolNameSize).sum ≤ limit) :
    preflightNames limit names seen (symbols, strings) =
      .ok (symbols + (newNames seen names).length,
        strings + ((newNames seen names).map symbolNameSize).sum) := by
  induction names generalizing seen symbols strings with
  | nil => rfl
  | cons name names ih =>
      obtain ⟨hlength, hword⟩ := hlengths name List.mem_cons_self
      have hrest : ∀ n ∈ names, (asBytes n).length ≤ limit ∧ (asBytes n).length < 2 ^ 63 :=
        fun n hn => hlengths n (List.mem_cons_of_mem _ hn)
      unfold preflightNames
      rw [checkedOutputSize_eq hlength hword, ok_bind]
      by_cases hseen : name ∈ seen
      · rw [newNames_cons_of_mem hseen] at hsymbols hstrings hlimit ⊢
        rw [if_pos hseen]
        exact ih hrest hsymbols hstrings hlimit
      · have hnew : newNames (seen ++ [name]) names = newNames (name :: seen) names := by
          refine newNames_congr (fun n => ?_) names
          rw [List.mem_append, List.mem_singleton, List.mem_cons]
          exact or_comm
        rw [newNames_cons_of_notMem hseen, hnew] at hsymbols hstrings hlimit ⊢
        rw [List.length_cons] at hsymbols ⊢
        rw [List.map_cons, List.sum_cons] at hstrings hlimit ⊢
        rw [if_neg hseen, advance_eq (by unfold wordBound; omega), ok_bind]
        by_cases hempty : name = ""
        · subst hempty
          rw [symbolNameSize_empty, Nat.zero_add] at hstrings hlimit ⊢
          rw [if_pos rfl, ih hrest (by omega) hstrings hlimit, Nat.add_right_comm, Nat.add_assoc]
        · rw [symbolNameSize_of_ne hempty] at hstrings hlimit ⊢
          rw [← Nat.add_assoc] at hstrings hlimit
          rw [if_neg hempty, checkedNameEnd_eq (by omega), ok_bind,
            checkedOutputSize_eq (by omega) (by omega), ok_bind,
            ih hrest (by omega) hstrings hlimit, Nat.add_right_comm symbols, Nat.add_assoc symbols,
            Nat.add_assoc strings]

/-! ## Tables -/

theorem preflightTable_eq (hlimit : tableEnd offset count ≤ limit)
    (hword : tableEnd offset count < 2 ^ 63) :
    preflightTable limit 24 offset count = .ok (tableEnd offset count) := by
  unfold tableEnd at hlimit hword ⊢
  have hbytes : count * 24 ≤ limit := (Nat.le_add_left _ _).trans hlimit
  have hround : roundUp offset 8 < wordBound :=
    ((Nat.le_add_right _ _).trans_lt hword).trans (by decide)
  unfold preflightTable
  rw [checkedTableBytes_eq hbytes ((Nat.le_add_left _ _).trans_lt hword), ok_bind,
    alignUp_eight hround, ok_bind]
  exact advance_eq (hword.trans (by decide))

theorem preflightTables_eq {counts : List Nat} (hlimit : counts.foldl tableEnd offset ≤ limit)
    (hword : counts.foldl tableEnd offset < 2 ^ 63) :
    counts.foldlM (preflightTable limit 24) offset = .ok (counts.foldl tableEnd offset) := by
  refine foldlM_ok_of_bounded (fun offset => offset ≤ limit ∧ offset < 2 ^ 63) ?_ ?_
    ⟨hlimit, hword⟩
  · intro offset count h
    have hle := le_tableEnd offset count
    exact ⟨hle.trans h.1, hle.trans_lt h.2⟩
  · intro count _ offset h
    exact preflightTable_eq h.1 h.2

theorem metadataNames_eq {names : Nat} (h : names + metadataNamesSize < 2 ^ 32) :
    metadataNames.foldlM (fun names name => checkedNameEnd names (asBytes name).length) names =
      .ok (names + metadataNamesSize) := by
  have hsymtab : (asBytes ".symtab").length = 7 := by decide
  have hstrtab : (asBytes ".strtab").length = 7 := by decide
  have hshstrtab : (asBytes ".shstrtab").length = 9 := by decide
  have hsize : metadataNamesSize = 26 := by decide
  rw [hsize] at h ⊢
  unfold metadataNames
  rw [List.foldlM_cons, hsymtab, checkedNameEnd_eq (by omega), ok_bind, List.foldlM_cons, hstrtab,
    checkedNameEnd_eq (by omega), ok_bind, List.foldlM_cons, hshstrtab,
    checkedNameEnd_eq (by omega), ok_bind]
  rfl

/-! ## The whole preflight -/

theorem symbolNameSize_le {o : ObjectFile} {name : String} (h : name ∈ outputNames o) :
    symbolNameSize name ≤ stringsSize o :=
  calc symbolNameSize name ≤ ((outputNames o).map symbolNameSize).sum :=
        List.le_sum_of_mem (List.mem_map_of_mem h)
    _ ≤ stringsSize o := Nat.le_add_left _ _

/-- Every name that a symbol or a relocation has is in the string table. -/
theorem length_name_le {o : ObjectFile} {name : String}
    (h : name ∈ o.symbols.map ObjectSymbol.name ++ o.relocations.map ObjectRelocation.symbol) :
    (asBytes name).length ≤ stringsSize o := by
  have hout : name ∈ outputNames o := by
    rcases List.mem_append.mp h with h | h
    · exact List.mem_append_left _ h
    · obtain ⟨r, hr, rfl⟩ := List.mem_map.mp h
      exact mem_outputNames hr
  exact (length_asBytes_le_symbolNameSize name).trans (symbolNameSize_le hout)

theorem preflightSizes_eq {o : ObjectFile} (hvalid : o.validate = .ok ()) (h : Fits o limit) :
    preflightSizes o limit = .ok (headerCount o, symbolCount o, fileSize o) := by
  have hobject := ObjectFile.validate_valid hvalid
  have hsections := ObjectFile.validate_sections hvalid
  have hfile := h.word
  have hlimit := h.limit
  have hfew : ∀ i, (relocationsOf o i).length < wordBound := by
    intro i
    by_cases hempty : relocationsOf o i = []
    · rw [hempty]
      decide
    · obtain ⟨r, hr⟩ := List.exists_mem_of_ne_nil _ hempty
      unfold relocationsOf at hr
      obtain ⟨hmem, hindex⟩ := List.mem_filter.mp hr
      obtain ⟨-, s, hs, -⟩ := hobject.relocations r hmem
      rw [of_decide_eq_true hindex] at hs
      have hle := relocations_le_fileSize o
        (mem_relocationCounts (List.getElem?_eq_some_iff.mp hs).1 hempty)
      unfold wordBound
      omega
  obtain ⟨counts, hcounts, hlength, hnone, hall⟩ := countRelocations_valid hobject hfew
  have hheaders : checkedSectionCount o.sections.length counts.length = .ok (headerCount o) := by
    refine checkedSectionCount_ok_iff.mpr ⟨?_, h.headers⟩
    rw [hlength, ← length_relocationCounts hobject]
    rfl
  have hfold : o.sections.zipIdx.foldl (sectionStep o) (1, 64) =
      (sectionNamesSize o, sectionsEnd o) := by
    rw [foldl_sectionStep, List.zipIdx_map_fst]
    rfl
  have hsectionsLe := sectionsEnd_le_fileSize o
  have hnames := h.names
  have hnamesLe := sectionNamesSize_le_fileSize o
  -- Every sum of the source is bounded by the size of the file, which is a word.
  have hloop : o.sections.zipIdx.foldlM (preflightSection counts limit) (1, 64) =
      .ok (sectionNamesSize o, sectionsEnd o) := by
    rw [← hfold]
    refine foldlM_ok_of_bounded (SizesFit limit) (fun _ _ => SizesFit.back) ?_ ?_
    · intro e he sizes hfit
      have hmem : e.1 ∈ o.sections :=
        List.mem_of_getElem? (List.mem_zipIdx_iff_getElem?.mp he)
      exact preflightSection_eq (hsections e.1 hmem) (hnone e.2) hfit
    · rw [hfold]
      exact ⟨by simp only; omega, by simp only; omega, by simp only; omega, by simp only; omega⟩
  have hstringsLe := stringsSize_le_fileSize o
  have hnew := newNames_all (ObjectFile.validate_unique hvalid)
  have hsymbols := h.symbols
  have hstrings := h.strings
  have hcount : 1 + (outputNames o).length = symbolCount o := Nat.add_comm _ _
  have hpreflightNames : preflightNames limit
      (o.symbols.map ObjectSymbol.name ++ o.relocations.map ObjectRelocation.symbol) [] (1, 1) =
      .ok (symbolCount o, stringsSize o) := by
    have hlengths : ∀ name ∈ o.symbols.map ObjectSymbol.name ++
        o.relocations.map ObjectRelocation.symbol,
        (asBytes name).length ≤ limit ∧ (asBytes name).length < 2 ^ 63 := by
      intro name hname
      have hle := length_name_le hname
      omega
    rw [preflightNames_eq hlengths (by rw [hnew, hcount]; exact hsymbols)
      (by rw [hnew]; exact hstrings) (by rw [hnew]; exact hstringsLe.trans hlimit), hnew, hcount]
    rfl
  have hsymbolsEnd := symbolsEnd_le_fileSize o
  have hrelocationsEnd := (relocationsEnd_le_symbolsEnd o).trans hsymbolsEnd
  have htables := tablesEnd_le_fileSize o
  have hrelocationTables : (relocationCounts o).foldlM (preflightTable limit 24) (sectionsEnd o) =
      .ok (relocationsEnd o) :=
    preflightTables_eq (hrelocationsEnd.trans hlimit) (hrelocationsEnd.trans_lt hfile)
  have hsymbolTable : preflightTable limit 24 (relocationsEnd o) (symbolCount o) =
      .ok (symbolsEnd o) :=
    preflightTable_eq (hsymbolsEnd.trans hlimit) (hsymbolsEnd.trans_lt hfile)
  have hword : fileSize o < wordBound := hfile.trans (by decide)
  have hstringsEnd : symbolsEnd o + stringsSize o < wordBound :=
    ((Nat.le_add_right _ _).trans htables).trans_lt hword
  have hnamesEnd : symbolsEnd o + stringsSize o + (sectionNamesSize o + metadataNamesSize) <
      wordBound := htables.trans_lt hword
  have hheadersLe := headers_le_fileSize o
  have haligned : roundUp (tablesEnd o) 8 < wordBound :=
    (Nat.le_add_right _ (headerCount o * 64)).trans_lt hword
  unfold preflightSizes
  rw [hcounts, ok_bind, hheaders, ok_bind, hloop, ok_bind]
  simp only
  rw [hpreflightNames, ok_bind]
  simp only
  rw [checkedU32_eq hsymbols, ok_bind, hall, hrelocationTables, ok_bind, hsymbolTable, ok_bind,
    metadataNames_eq hnames, ok_bind, advance_eq hstringsEnd, ok_bind, advance_eq hnamesEnd, ok_bind,
    checkedTableBytes_eq (hheadersLe.trans hlimit) (hheadersLe.trans_lt hfile), ok_bind]
  rw [show symbolsEnd o + stringsSize o + (sectionNamesSize o + metadataNamesSize) = tablesEnd o
    from rfl, alignUp_eight haligned, ok_bind, advance_eq hword, ok_bind]
  rfl

theorem preflight_ok {o : ObjectFile} (hvalid : o.validate = .ok ()) (h : Fits o limit) :
    preflight o limit = .ok () := by
  have hsymbols := h.symbols
  have hheaders := h.headers
  have hmax : (2 : Nat) ^ 63 ≤ wordMax := by decide
  rw [preflight_eq, preflightSizes_eq hvalid h, ok_bind]
  simp only
  rw [checkedOutputSize_eq h.limit h.word, ok_bind,
    checkedTableBytes_eq (by omega) (by omega), ok_bind,
    checkedTableBytes_eq (by omega) (by omega), ok_bind,
    checkedTableBytes_eq (by omega) (by omega), ok_bind]
  rfl

end Whale.Elf
