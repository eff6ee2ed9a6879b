import Mathlib.Tactic.IntervalCases
import Whale.Object.MachO.Read
import Whale.Object.MachO.Write
import Whale.Object.Undeclared
import Whale.Object.Valid

set_option autoImplicit false

/-! # What a Mach-O file has of an object

The section names and segments are the mapped ones, symbol values are addresses, and symbols
come in three groups. The format has no sizes of symbols and no kinds. -/

namespace Whale.MachO

/-- A range of the data of section `index` that a relocation writes to. -/
def Relocated (o : ObjectFile) (index k : Nat) : Prop :=
  ∃ r ∈ o.relocations, r.sectionIndex = index ∧
    ∃ e, r.kind.machEncoding o.target.machine = some e ∧ r.offset ≤ k ∧ k < r.offset + e.2

def localSymbols (o : ObjectFile) : List ObjectSymbol :=
  o.symbols.filter fun s => s.sectionIndex.isSome && decide (s.binding ≠ .global)

def definedSymbols (o : ObjectFile) : List ObjectSymbol :=
  o.symbols.filter fun s => s.sectionIndex.isSome && decide (s.binding = .global)

def undefinedSymbols (o : ObjectFile) : List ObjectSymbol :=
  o.symbols.filter fun s => s.sectionIndex.isNone

/-- The names of the symbols in the order of the groups. -/
def symbolNames (o : ObjectFile) : List String :=
  (localSymbols o ++ definedSymbols o ++ undefinedSymbols o).map ObjectSymbol.name ++ undeclared o

/-- A symbol as the format has it; its value is an address. -/
def symbolImage (sections : List ImageSection) (s : ObjectSymbol) : ImageSymbol where
  name := asBytes s.name
  sectionIndex := s.sectionIndex
  value := s.sectionIndex.elim 0 fun i =>
    (sections[i]?.elim 0 ImageSection.address) + s.value.toNat
  external := decide (s.binding = .global)

def undefinedImage (name : String) : ImageSymbol where
  name := asBytes name
  sectionIndex := none
  value := 0
  external := true

/-- The read relocation is the one of the object. -/
structure RelocationMatches (o : ObjectFile) (r : ObjectRelocation) (e : ImageRelocation) :
    Prop where
  offset : e.offset = r.offset
  symbol : (symbolNames o)[e.symbol]? = some r.symbol
  type : r.kind.machEncoding o.target.machine = some (e.type, 2 ^ e.length)
  /-- All fields but plain addresses are relative. -/
  pcRelative : e.pcRelative = decide (e.type ≠ 0)
  addend : e.addend = r.addend.toInt

structure SectionMatches (o : ObjectFile) (index : Nat) (s : Section) (e : ImageSection) :
    Prop where
  name : e.name = asBytes (Sections.mappedName s.name)
  segment : e.segment = asBytes (Sections.segment s.kind)
  kind : e.kind = s.kind
  size : s.memorySize = some e.size
  align : 2 ^ e.align = max s.align.toNat 1
  aligned : 2 ^ e.align ∣ e.address
  length : e.data.length = s.fileSize
  data : s.kind ≠ .bss → ∀ k, ¬ Relocated o index k → e.data[k]? = s.data[k]?
  /-- The relocations of the section, the one with the greatest offset first. -/
  relocations : ∃ rs, List.Perm rs (o.relocations.filter (·.sectionIndex = index)) ∧
    rs.Pairwise (fun a b => b.offset < a.offset) ∧
    List.Forall₂ (RelocationMatches o) rs e.relocations

/-- The image in a file of `size` bytes is what the format has of the object. -/
structure Represents (o : ObjectFile) (size : Nat) (image : Image) : Prop where
  machine : image.machine = o.target.machine
  count : image.sections.length = o.sections.length
  sections : ∀ (index : Nat) (s : Section) (e : ImageSection), o.sections[index]? = some s →
    image.sections[index]? = some e → SectionMatches o index s e
  /-- The sections share no memory. -/
  addresses : image.sections.Pairwise fun a b => a.address + a.size ≤ b.address
  /-- The sections share no part of the file. -/
  files : image.sections.Pairwise fun a b => a.data ≠ [] → b.data ≠ [] →
    a.offset + a.data.length ≤ b.offset
  inside : ∀ e ∈ image.sections, e.data ≠ [] → e.offset + e.data.length ≤ size
  symbols : image.symbols =
    (localSymbols o).map (symbolImage image.sections) ++
      (definedSymbols o).map (symbolImage image.sections) ++
        ((undefinedSymbols o).map (symbolImage image.sections) ++
          (undeclared o).map undefinedImage)
  undefinedExternal : ∀ s ∈ image.symbols, s.sectionIndex = none → s.external = true
  localRange : image.localRange = (0, (localSymbols o).length)
  definedRange : image.definedRange = ((localSymbols o).length, (definedSymbols o).length)
  undefinedRange : image.undefinedRange =
    ((localSymbols o).length + (definedSymbols o).length,
      (undefinedSymbols o).length + (undeclared o).length)

/-! # The plan of Mach-O objects

Addresses and file offsets both only move forward, so every section gets its own part of the
memory and its own part of the file (`planSections_ok`). -/

theorem grow_ok {cursor bytes limit stop : Nat} (h : grow cursor bytes limit = .ok stop) :
    stop = cursor + bytes ∧ stop ≤ limit := by
  obtain ⟨hadd, hle⟩ := Option.filter_eq_some_iff.mp (orThrow_ok_iff.mp h)
  exact ⟨(checkedAdd_eq_some.mp hadd).1.symm, of_decide_eq_true hle⟩

/-- The segment and the flags of a section give back its kind. -/
theorem readKind_flags (kind : SectionKind) : Sections.flags kind < 2 ^ 32 ∧
    readKind (asBytes (Sections.segment kind)) (Sections.flags kind) = some kind := by
  cases kind <;> decide

/-! ## One section -/

/-- The layout of a section that starts in memory at `memory` or later and ends before
`memory'`, with its data between `lo` and `hi`. -/
structure Planned (memory memory' lo hi : Nat) (s : Section) (l : Sections.Layout) : Prop where
  name : l.name = Sections.mappedName s.name
  nameLength : (asBytes l.name).length ≤ 16
  nameZero : '\x00' ∉ l.name.toList
  segment : l.segment = Sections.segment s.kind
  address : memory ≤ l.address ∧ l.address + l.size ≤ memory'
  size : s.memorySize = some l.size
  align : 2 ^ l.alignment = max s.align.toNat 1 ∧ l.alignment < 32
  aligned : 2 ^ l.alignment ∣ l.address
  noData : NoData s → l.data = 0
  data : ¬ NoData s → lo ≤ l.data ∧ l.data + s.data.length ≤ hi
  flags : l.flags < 2 ^ 32 ∧ readKind (asBytes l.segment) l.flags = some s.kind

theorem Planned.mono {memory memory' lo hi m m' k k' : Nat} {s : Section} {l : Sections.Layout}
    (h : Planned memory memory' lo hi s l) (h₁ : m ≤ memory) (h₂ : memory' ≤ m') (h₃ : k ≤ lo)
    (h₄ : hi ≤ k') : Planned m m' k k' s l :=
  { h with
    address := ⟨Nat.le_trans h₁ h.address.1, Nat.le_trans h.address.2 h₂⟩
    data := fun hdata =>
      ⟨Nat.le_trans h₃ (h.data hdata).1, Nat.le_trans (h.data hdata).2 h₄⟩ }

theorem planData_ok {s : Section} {align cursor limit : Nat} {r : Nat × Nat}
    (h : Sections.planData s align cursor limit = .ok r) (hcursor : cursor ≤ limit) :
    cursor ≤ r.2 ∧ r.2 ≤ limit ∧ (NoData s → r.1 = 0) ∧
      (¬ NoData s → cursor ≤ r.1 ∧ r.1 + s.data.length = r.2) := by
  unfold Sections.planData at h
  by_cases hno : s.kind = .bss ∨ s.data = []
  · rw [if_pos hno] at h
    cases h
    exact ⟨Nat.le_refl _, hcursor, fun _ => rfl, fun hn => absurd hno hn⟩
  · rw [if_neg hno] at h
    obtain ⟨start, hstart, h₁⟩ := bind_ok_iff.mp h
    obtain ⟨stop, hstop, h₂⟩ := bind_ok_iff.mp h₁
    cases h₂
    obtain ⟨hstartEq, -⟩ := grow_ok hstart
    obtain ⟨hstopEq, hbound⟩ := grow_ok hstop
    have hle : cursor ≤ start := by omega
    have hsum : start + s.data.length = stop := by omega
    exact ⟨by omega, hbound, fun hn => absurd hn hno, fun _ => ⟨hle, hsum⟩⟩

theorem plan_ok {s : Section} {memory cursor limit : Nat} {p : Sections.Plan}
    (h : Sections.plan s memory cursor limit = .ok p) (hcursor : cursor ≤ limit) :
    Planned memory p.memory cursor p.cursor s p.layout ∧ memory ≤ p.memory ∧
      p.memory < 2 ^ 64 ∧ cursor ≤ p.cursor ∧ p.cursor ≤ limit := by
  obtain ⟨_, -, h₁⟩ := bind_ok_iff.mp h
  obtain ⟨_, halign, h₂⟩ := bind_ok_iff.mp h₁
  obtain ⟨_, hname, h₃⟩ := bind_ok_iff.mp h₂
  obtain ⟨aligned, haligned, h₄⟩ := bind_ok_iff.mp h₃
  obtain ⟨size, hsize, h₅⟩ := bind_ok_iff.mp h₄
  obtain ⟨stop, hstop, h₆⟩ := bind_ok_iff.mp h₅
  obtain ⟨data, hdata, h₇⟩ := bind_ok_iff.mp h₆
  obtain ⟨hpower, hmax⟩ := require_ok_iff.mp halign
  obtain ⟨k, hk⟩ := isPowerOfTwo_iff.mp hpower
  obtain ⟨hsum, -⟩ := checkedAdd_eq_some.mp (orThrow_ok_iff.mp haligned)
  obtain ⟨hend, hword⟩ := checkedAdd_eq_some.mp (orThrow_ok_iff.mp hstop)
  obtain ⟨hcursorLe, hlimit, hnone, hsome⟩ := planData_ok hdata hcursor
  have hnames := require_ok_iff.mp hname
  cases h₇
  rw [hk] at hsum hend hmax
  -- Rounding up to the next multiple does not go back.
  have hround : memory ≤ alignDown aligned (2 ^ k) := by
    have hlt : aligned % 2 ^ k < 2 ^ k := Nat.mod_lt _ (Nat.two_pow_pos k)
    have hdiv := Nat.div_add_mod aligned (2 ^ k)
    rw [alignDown_two_pow]
    omega
  have hlog : (max s.align.toNat 1).log2 = k := by rw [hk, Nat.log2_two_pow]
  have hsmall : k < 32 := by
    have hlt : 2 ^ k < 2 ^ 32 := Nat.lt_of_le_of_lt hmax (by decide)
    exact (Nat.pow_lt_pow_iff_right (by decide)).mp hlt
  refine ⟨?_, by show memory ≤ stop; omega, hword, hcursorLe, hlimit⟩
  exact {
    name := rfl
    nameLength := Nat.le_of_not_lt fun hlt => hnames (.inl hlt)
    nameZero := fun hmem => hnames (.inr (.inr hmem))
    segment := rfl
    address := by
      show memory ≤ alignDown aligned (max s.align.toNat 1) ∧
        alignDown aligned (max s.align.toNat 1) + size ≤ stop
      rw [hk]
      exact ⟨hround, Nat.le_of_eq hend⟩
    size := orThrow_ok_iff.mp hsize
    align := by
      show 2 ^ (max s.align.toNat 1).log2 = _ ∧ (max s.align.toNat 1).log2 < 32
      rw [hlog, hk]
      exact ⟨rfl, hsmall⟩
    aligned := by
      show 2 ^ (max s.align.toNat 1).log2 ∣ alignDown aligned (max s.align.toNat 1)
      rw [hlog, hk]
      exact two_pow_dvd_alignDown aligned k
    noData := hnone
    data := fun hn => ⟨(hsome hn).1, Nat.le_of_eq (hsome hn).2⟩
    flags := readKind_flags s.kind }

/-! ## All sections -/

/-- Two sections one after the other, in memory and in the file. -/
def Before (a b : Section × Sections.Layout) : Prop :=
  a.2.address + a.2.size ≤ b.2.address ∧
    (¬ NoData a.1 → ¬ NoData b.1 → a.2.data + a.1.data.length ≤ b.2.data)

theorem planSections_ok {limit memory cursor : Nat} {sections : List Section}
    {names : List (String × String)} {p : SectionPlans}
    (h : planSections limit sections names memory cursor = .ok p) (hcursor : cursor ≤ limit)
    (hmemory : memory < 2 ^ 64) :
    List.Forall₂ (Planned memory p.memory cursor p.cursor) sections p.layouts ∧
      (sections.zip p.layouts).Pairwise Before ∧ memory ≤ p.memory ∧ p.memory < 2 ^ 64 ∧
      cursor ≤ p.cursor ∧ p.cursor ≤ limit := by
  induction sections generalizing names memory cursor p with
  | nil =>
      cases h
      exact ⟨.nil, .nil, Nat.le_refl _, hmemory, Nat.le_refl _, hcursor⟩
  | cons s sections ih =>
      obtain ⟨q, hplan, h₁⟩ := bind_ok_iff.mp h
      obtain ⟨_, -, h₂⟩ := bind_ok_iff.mp h₁
      obtain ⟨rest, hrest, h₃⟩ := bind_ok_iff.mp h₂
      cases h₃
      obtain ⟨hplanned, hm, hq, hc, hl⟩ := plan_ok hplan hcursor
      obtain ⟨hall, hpairs, hm', hbound, hc', hl'⟩ := ih hrest hl hq
      refine ⟨.cons ?_ ?_, ?_, Nat.le_trans hm hm', hbound, Nat.le_trans hc hc', hl'⟩
      · exact hplanned.mono (Nat.le_refl _) hm' (Nat.le_refl _) hc'
      · exact hall.imp fun s' l' hs => hs.mono hm (Nat.le_refl _) hc (Nat.le_refl _)
      · -- Every later section starts where the plan of this one ended, or behind it.
        refine List.pairwise_cons.mpr ⟨fun e he => ?_, hpairs⟩
        have hlater := List.forall₂_zip hall he
        refine ⟨Nat.le_trans hplanned.address.2 hlater.address.1, fun hs he' => ?_⟩
        exact Nat.le_trans (hplanned.data hs).2 (hlater.data he').1

/-! ## Room for relocations -/

/-- A layout with room for the relocations of its section between `lo` and `hi`. -/
structure Placed (o : ObjectFile) (lo hi index : Nat) (l l' : Sections.Layout) : Prop where
  layout : l' = { l with count := (records o index).length, relocs := l'.relocs }
  room : records o index ≠ [] →
    lo ≤ l'.relocs ∧ l'.relocs + (records o index).length * 8 ≤ hi
  bound : l'.relocs ≤ hi

theorem planRelocations_ok {o : ObjectFile} {limit index cursor : Nat}
    {layouts : List Sections.Layout} {r : List Sections.Layout × Nat}
    (h : planRelocations o limit layouts index cursor = .ok r) (hcursor : cursor ≤ limit) :
    cursor ≤ r.2 ∧ r.2 ≤ limit ∧ r.1.length = layouts.length ∧
      (∀ (i : Nat) (l l' : Sections.Layout), layouts[i]? = some l → r.1[i]? = some l' →
        Placed o cursor r.2 (index + i) l l') ∧
      ∀ (i j : Nat) (l l' : Sections.Layout), i < j → r.1[i]? = some l → r.1[j]? = some l' →
        records o (index + i) ≠ [] → records o (index + j) ≠ [] →
          l.relocs + (records o (index + i)).length * 8 ≤ l'.relocs := by
  induction layouts generalizing index cursor r with
  | nil =>
      cases h
      exact ⟨Nat.le_refl _, hcursor, rfl, fun i l l' hl => (nomatch hl),
        fun i j l l' _ hl => (nomatch hl)⟩
  | cons l layouts ih =>
      obtain ⟨stop, hstop, h₁⟩ := bind_ok_iff.mp h
      obtain ⟨⟨placed, last⟩, hrest, h₂⟩ := bind_ok_iff.mp h₁
      cases h₂
      -- The first section takes the bytes between the cursor and `stop`.
      have hfirst : cursor ≤ stop ∧ stop ≤ limit ∧
          (records o index ≠ [] → stop = cursor + (records o index).length * 8) := by
        unfold place at hstop
        by_cases hzero : (records o index).length = 0
        · rw [if_pos hzero] at hstop
          cases hstop
          refine ⟨Nat.le_refl _, hcursor, fun hne => ?_⟩
          exact absurd (List.eq_nil_of_length_eq_zero hzero) hne
        · rw [if_neg hzero] at hstop
          obtain ⟨hsum, hle⟩ := grow_ok hstop
          exact ⟨by omega, hle, fun _ => hsum⟩
      obtain ⟨hle, hlimit, hroom⟩ := hfirst
      obtain ⟨hle', hlimit', hlength, hplaced, horder⟩ := ih hrest hlimit
      have hindex : ∀ i, index + (i + 1) = index + 1 + i := fun i => by omega
      have hself : records o index ≠ [] → (records o index).length ≠ 0 :=
        fun hne hzero => hne (List.eq_nil_of_length_eq_zero hzero)
      refine ⟨Nat.le_trans hle hle', hlimit', by simp [hlength], ?_, ?_⟩
      · intro i m m' hm hm'
        cases i with
        | zero =>
            cases hm
            cases hm'
            refine ⟨rfl, fun hne => ?_, ?_⟩
            · have hsum := hroom hne
              show cursor ≤ (if _ then 0 else cursor) ∧ (if _ then 0 else cursor) + _ ≤ last
              rw [if_neg (hself hne)]
              exact ⟨Nat.le_refl _, by simp only [Nat.add_zero]; omega⟩
            · show (if _ then 0 else cursor) ≤ last
              by_cases hzero : (records o index).length = 0
              · rw [if_pos hzero]
                exact Nat.zero_le _
              · rw [if_neg hzero]
                exact Nat.le_trans hle hle'
        | succ i =>
            have hnext := hplaced i m m' hm hm'
            rw [hindex]
            exact { hnext with room := fun hne =>
              ⟨Nat.le_trans hle (hnext.room hne).1, (hnext.room hne).2⟩ }
      · intro i j m m' hij hm hm' hi hj
        obtain ⟨j, rfl⟩ : ∃ n, j = n + 1 := ⟨j - 1, by omega⟩
        have hj' := hj
        rw [hindex] at hj'
        cases i with
        | zero =>
            cases hm
            obtain ⟨q, hq⟩ : ∃ q, layouts[j]? = some q := by
              have hlt := (List.getElem?_eq_some_iff.mp hm').1
              exact ⟨_, List.getElem?_eq_getElem (by simpa [hlength] using hlt)⟩
            have hlater := (hplaced j q m' hq hm').room hj'
            have hsum := hroom hi
            show (if _ then 0 else cursor) + _ ≤ m'.relocs
            rw [if_neg (hself hi)]
            simp only [Nat.add_zero]
            omega
        | succ i =>
            rw [hindex] at hi ⊢
            exact horder i j m m' (by omega) hm hm' hi hj'

end Whale.MachO
