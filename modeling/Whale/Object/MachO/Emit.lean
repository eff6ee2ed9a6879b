import Whale.Lib.Bits
import Whale.Object.MachO.Plan

set_option autoImplicit false

/-! # Relocated fields of Mach-O objects

Each relocation writes its addend into its own field, and the reader finds it there. The word
of a relocation packs the symbol, the mode, the length and the type (`read_word`). -/

namespace Whale.MachO

/-! ## Encodings -/

variable {machine : Machine}

/-- An address of eight bytes, or a relative field of four. -/
theorem machEncoding_cases {kind : RelocKind} {e : Nat × Nat}
    (h : kind.machEncoding machine = some e) :
    (machine = .x86_64 ∨ machine = .aArch64) ∧ e = (0, 8) ∨ machine = .aArch64 ∧ e = (2, 4) ∨
      machine = .x86_64 ∧ (e = (1, 4) ∨ e = (2, 4)) := by
  -- Each machine encodes few kinds, and of the specific codes only its own.
  cases machine with
  | x86_64 =>
      cases kind with
      | absolute64 =>
          cases h
          exact .inl ⟨.inl rfl, rfl⟩
      | relative32 =>
          cases h
          exact .inr (.inr ⟨rfl, .inl rfl⟩)
      | plt32 =>
          cases h
          exact .inr (.inr ⟨rfl, .inr rfl⟩)
      | machSpecific m code =>
          cases m with
          | x86_64 =>
              change (if code = 0 then some (0, 8) else if code = 1 ∨ code = 2 then
                some (code.toNat, 4) else none) = some e at h
              by_cases h0 : code = 0
              · rw [if_pos h0] at h
                cases h
                exact .inl ⟨.inl rfl, rfl⟩
              · rw [if_neg h0] at h
                by_cases h12 : code = 1 ∨ code = 2
                · rw [if_pos h12] at h
                  cases h
                  rcases h12 with rfl | rfl
                  · exact .inr (.inr ⟨rfl, .inl rfl⟩)
                  · exact .inr (.inr ⟨rfl, .inr rfl⟩)
                · rw [if_neg h12] at h
                  cases h
          | _ => cases h
      | _ => cases h
  | aArch64 =>
      cases kind with
      | absolute64 =>
          cases h
          exact .inl ⟨.inr rfl, rfl⟩
      | machSpecific m code =>
          cases m with
          | aArch64 =>
              change (if code = 0 then some (0, 8) else if code = 2 then some (2, 4) else none) =
                some e at h
              by_cases h0 : code = 0
              · rw [if_pos h0] at h
                cases h
                exact .inl ⟨.inr rfl, rfl⟩
              · rw [if_neg h0] at h
                by_cases h2 : code = 2
                · rw [if_pos h2] at h
                  cases h
                  exact .inr (.inl ⟨rfl, rfl⟩)
                · rw [if_neg h2] at h
                  cases h
          | _ => cases h
      | _ => cases h
  | _ => cases kind <;> cases h

/-- The logarithm of the width of a field. -/
def widthLog (width : Nat) : Nat := if width = 8 then 3 else 2

theorem machEncoding_width {kind : RelocKind} {e : Nat × Nat}
    (h : kind.machEncoding machine = some e) : 0 < e.2 ∧ e.2 = 2 ^ widthLog e.2 ∧ e.1 < 3 := by
  rcases machEncoding_cases h with ⟨-, rfl⟩ | ⟨-, rfl⟩ | ⟨-, rfl | rfl⟩ <;> decide

/-! ## The word of a relocation -/

variable {index : Nat}

theorem read_word {index code : Nat} {pc : Bool} {width : Nat} (hindex : index < 2 ^ 24)
    (hcode : code < 3) :
    let word := Relocations.word index code pc width
    word < 2 ^ 32 ∧ word % 2 ^ 24 = index ∧ word.testBit 24 = pc ∧
      word / 2 ^ 25 % 2 ^ 2 = widthLog width ∧ word.testBit 27 = true ∧
      word / 2 ^ 28 % 2 ^ 4 = code := by
  -- Above the symbol stand the other parts, as one number of eight bits.
  obtain ⟨high, hhigh, hword, hpc, hlength, hmark, htype⟩ : ∃ high : Nat, high < 2 ^ 8 ∧
      Relocations.word index code pc width = index ||| (high <<< 24) ∧ high.testBit 0 = pc ∧
      high / 2 % 4 = widthLog width ∧ high.testBit 3 = true ∧ high / 2 ^ 4 = code := by
    refine ⟨pc.toNat ||| (widthLog width <<< 1) ||| (1 <<< 3) ||| (code <<< 4), ?_⟩
    have hshift : Relocations.word index code pc width =
        index |||
          ((pc.toNat ||| (widthLog width <<< 1) ||| (1 <<< 3) ||| (code <<< 4)) <<< 24) := by
      unfold Relocations.word widthLog
      rw [Nat.shiftLeft_or_distrib, Nat.shiftLeft_or_distrib, Nat.shiftLeft_or_distrib]
      simp only [← Nat.shiftLeft_add, Nat.or_assoc]
    refine ⟨?_, hshift, ?_⟩
    all_goals
      unfold widthLog
      by_cases hwidth : width = 8 <;> cases pc <;> interval_cases code <;> simp [hwidth] <;> decide
  have hsum : Relocations.word index code pc width = high * 2 ^ 24 + index := by
    rw [hword, Nat.or_comm, Nat.shiftLeft_eq, Nat.mul_comm]
    exact (Nat.two_pow_add_eq_or_of_lt hindex high).symm
  dsimp only
  have hbit : ∀ i, (high * 2 ^ 24 + index).testBit (24 + i) = high.testBit i := fun i => by
    have hdiv : (high * 2 ^ 24 + index) / 2 ^ 24 = high := by omega
    rw [Nat.add_comm 24 i, Nat.testBit_add, hdiv]
  rw [hsum]
  refine ⟨by omega, by omega, ?_, by omega, ?_, by omega⟩
  · rw [← hpc]
    exact hbit 0
  · rw [← hmark]
    exact hbit 3

/-! ## Addends -/

/-- A field with the addend of the relocation. -/
def HoldsAddend (machine : Machine) (r : ObjectRelocation) (e : Nat × Nat) (field : List UInt8) :
    Prop :=
  ∀ bs, slice bs 0 e.2 = field →
    readAddend machine e.1 (widthLog e.2) (decide (e.1 ≠ 0)) bs = some r.addend.toInt

variable {r : ObjectRelocation}

/-- A relocation writes its field and nothing else. -/
theorem patch_ok {data data' : List UInt8} {code width : Nat} {pc : Bool}
    (h : Relocations.patch data r machine = .ok (data', (code, pc, width))) :
    r.kind.machEncoding machine = some (code, width) ∧ pc = decide (code ≠ 0) ∧
      ∃ field, field.length = width ∧ data' = Whale.patch data r.offset field ∧
        HoldsAddend machine r (code, width) field := by
  obtain ⟨e, hencoding, h₁⟩ := bind_ok_iff.mp h
  have henc := orThrow_ok_iff.mp hencoding
  obtain ⟨c, w⟩ := e
  dsimp only at h₁
  by_cases hwidth : w = 8
  · rw [if_pos hwidth] at h₁
    cases h₁
    refine ⟨henc, rfl, _, by rw [length_leBytes, hwidth], rfl, fun bs hbs => ?_⟩
    have hword : (BitVec.ofNat 64 (leValue (slice bs 0 8))).toInt = r.addend.toInt := by
      dsimp only at hbs
      rw [hwidth] at hbs
      have hlow := r.addend.le_toInt
      have hhigh := r.addend.toInt_lt
      rw [doubleword_of_slice hbs, BitVec.toInt_ofInt_eq_self (by decide) hlow hhigh]
    rcases machEncoding_cases henc with ⟨hm | hm, he⟩ | ⟨-, he⟩ | ⟨-, he | he⟩
    · cases he
      rw [hm]
      exact congrArg some hword
    · cases he
      rw [hm]
      exact congrArg some hword
    all_goals
      cases he
      cases hwidth
  · rw [if_neg hwidth] at h₁
    by_cases hmachine : machine = .aArch64
    · rw [if_pos hmachine] at h₁
      obtain ⟨_, hzero, h₂⟩ := bind_ok_iff.mp h₁
      obtain ⟨_, -, h₃⟩ := bind_ok_iff.mp h₂
      cases h₃
      have haddend : r.addend.toInt = 0 := by
        by_contra hne
        exact require_ok_iff.mp hzero (.inr hne)
      subst hmachine
      rcases machEncoding_cases henc with ⟨-, he⟩ | ⟨-, he⟩ | ⟨hm, -⟩
      · cases he
        exact absurd rfl hwidth
      · cases he
        refine ⟨henc, rfl, _, length_leBytes _ _, rfl, fun bs hbs => ?_⟩
        -- The branch field of the instruction is cleared, so it denotes zero.
        show some (((BitVec.ofNat 32 (leValue (slice bs 0 4))).extractLsb' 0 26).toInt * 4) = _
        have hmask : CoversField 0x03ffffff#32 0 26 := by decide
        rw [word_of_slice hbs, Relocations.clearBranch, hmask.and_not, haddend]
        rfl
      · cases hm
    · rw [if_neg hmachine] at h₁
      obtain ⟨_, -, h₂⟩ := bind_ok_iff.mp h₁
      obtain ⟨_, hrange, h₃⟩ := bind_ok_iff.mp h₂
      obtain ⟨hlow, hhigh⟩ := require_ok_iff.mp hrange
      cases h₃
      have hint : (BitVec.ofInt 32 (r.addend.toInt + 4)).toInt - 4 = r.addend.toInt := by
        rw [BitVec.toInt_ofInt_eq_self (by decide) (by omega) (by omega)]
        omega
      have hread : ∀ bs, slice bs 0 4 = leBytes 4 (BitVec.ofInt 32 (r.addend.toInt + 4)).toNat →
          some ((BitVec.ofNat 32 (leValue (slice bs 0 4))).toInt - 4) = some r.addend.toInt := by
        intro bs hbs
        rw [word_of_slice hbs, hint]
      rcases machEncoding_cases henc with ⟨-, he⟩ | ⟨hm, -⟩ | ⟨rfl, he | he⟩
      · cases he
        exact absurd rfl hwidth
      · exact absurd hm hmachine
      · cases he
        exact ⟨henc, rfl, _, length_leBytes _ _, rfl, hread⟩
      · cases he
        exact ⟨henc, rfl, _, length_leBytes _ _, rfl, hread⟩

/-! ## The data of a section -/

/-- All relocations of a section, one after the other. -/
inductive Patches (machine : Machine) : List UInt8 → List ObjectRelocation → List UInt8 → Prop
  | nil (data : List UInt8) : Patches machine data [] data
  | cons {data data' data'' : List UInt8} {r : ObjectRelocation} {rs : List ObjectRelocation}
      {e : Nat × Bool × Nat} (first : Relocations.patch data r machine = .ok (data', e))
      (rest : Patches machine data' rs data'') : Patches machine data (r :: rs) data''

/-- Position `k` is in the field of the relocation. -/
def InField (machine : Machine) (r : ObjectRelocation) (k : Nat) : Prop :=
  ∃ e, r.kind.machEncoding machine = some e ∧ r.offset ≤ k ∧ k < r.offset + e.2

/-- The fields do not overlap. -/
def Apart (machine : Machine) (a b : ObjectRelocation) : Prop :=
  ∀ e e', a.kind.machEncoding machine = some e → b.kind.machEncoding machine = some e' →
    a.offset + e.2 ≤ b.offset ∨ b.offset + e'.2 ≤ a.offset

variable {rs : List ObjectRelocation}

/-- Every field holds its addend, and all other bytes stay. -/
theorem Patches.spec {data data' : List UInt8} (h : Patches machine data rs data')
    (hfits : ∀ r ∈ rs, ∀ e, r.kind.machEncoding machine = some e → r.offset + e.2 ≤ data.length)
    (hapart : rs.Pairwise (Apart machine)) :
    SameOutside (fun k => ∃ r ∈ rs, InField machine r k) data data' ∧
      ∀ r ∈ rs, ∃ e field, r.kind.machEncoding machine = some e ∧ field.length = e.2 ∧
        Holds data' r.offset field ∧ HoldsAddend machine r e field := by
  induction h with
  | nil data => exact ⟨SameOutside.refl _ _, fun r hr => nomatch hr⟩
  | @cons data data₁ data₂ r rs e first rest ih =>
      obtain ⟨code, pc, width⟩ := e
      obtain ⟨henc, -, field, hlength, rfl, haddend⟩ := patch_ok first
      obtain ⟨hhead, htail⟩ := List.pairwise_cons.mp hapart
      have hroom : r.offset + field.length ≤ data.length := by
        rw [hlength]
        exact hfits r List.mem_cons_self _ henc
      have hstep := SameOutside.patch hroom
      obtain ⟨hrest, hfields⟩ := ih (fun r' hr' e' he' => by
        rw [hstep.length]
        exact hfits r' (List.mem_cons_of_mem _ hr') e' he') htail
      refine ⟨(hstep.mono fun k hk => ?_).trans (hrest.mono fun k hk => ?_), fun r' hr' => ?_⟩
      · exact ⟨r, List.mem_cons_self, _, henc, hk.1, by rw [← hlength]; exact hk.2⟩
      · obtain ⟨r', hr', hin⟩ := hk
        exact ⟨r', List.mem_cons_of_mem _ hr', hin⟩
      · rcases List.mem_cons.mp hr' with rfl | hr'
        · refine ⟨_, field, henc, hlength, ?_, haddend⟩
          refine (Holds.patch_self hroom).frame hrest ?_
          rintro k h₁ h₂ ⟨r₂, hr₂, e₂, he₂, h₃, h₄⟩
          have hdisjoint := hhead r₂ hr₂ _ e₂ henc he₂
          dsimp only at hdisjoint
          omega
        · exact hfields r' hr'

/-! # What emission leaves of the sections

A section owns its header, its data and its relocations. Emission writes only there, and what
it leaves of one section stays when the others are written (`emitSections_ok`). -/

/-! ## One section -/

/-- A text in a field of 16 bytes. -/
def padded (bs : List UInt8) : List UInt8 := bs ++ List.replicate (16 - bs.length) 0

theorem length_padded {bs : List UInt8} (h : bs.length ≤ 16) : (padded bs).length = 16 := by
  unfold padded
  rw [List.length_append, List.length_replicate]
  omega

/-- The position belongs to the section at `index`. -/
def Own (index : Nat) (s : Section) (l : Sections.Layout) (k : Nat) : Prop :=
  104 + index * 80 ≤ k ∧ k < 184 + index * 80 ∨
    (¬ NoData s ∧ l.data ≤ k ∧ k < l.data + s.data.length) ∨
      (l.relocs ≤ k ∧ k < l.relocs + l.count * 8)

/-- The section at `index` lies in a file of `stop` bytes; its relocations `rs` are behind the
data of all sections, which ends at `dataEnd`. -/
structure Fits (dataEnd stop index : Nat) (s : Section) (l : Sections.Layout)
    (rs : List ObjectRelocation) : Prop where
  name : (asBytes l.name).length ≤ 16
  segment : (asBytes l.segment).length ≤ 16
  header : 184 + index * 80 ≤ dataEnd
  noData : NoData s → l.data = 0
  data : ¬ NoData s → 184 + index * 80 ≤ l.data ∧ l.data + s.data.length ≤ dataEnd
  count : l.count = rs.length
  relocs : rs ≠ [] → ¬ NoData s ∧ dataEnd ≤ l.relocs ∧ l.relocs + rs.length * 8 ≤ stop
  order : dataEnd ≤ stop

/-- The record of one relocation stands at `at'`. -/
def RecordHolds (machine : Machine) (indices : AssocMap String Nat) (out : List UInt8)
    (at' : Nat) (r : ObjectRelocation) : Prop :=
  ∃ e, r.kind.machEncoding machine = some e ∧ Holds out at' (leBytes 4 r.offset) ∧
    Holds out (at' + 4) (leBytes 4 (Relocations.word ((indices.get r.symbol).getD 0) e.1
      (decide (e.1 ≠ 0)) e.2))

variable {indices : AssocMap String Nat} {out out' : List UInt8}

theorem RecordHolds.frame {at' : Nat} {touched : Nat → Prop}
    (h : RecordHolds machine indices out at' r) (hframe : SameOutside touched out out')
    (hout : ∀ k, at' ≤ k → k < at' + 8 → ¬ touched k) : RecordHolds machine indices out' at' r := by
  obtain ⟨e, henc, hoffset, hword⟩ := h
  refine ⟨e, henc, hoffset.frame hframe fun k h₁ h₂ => ?_, hword.frame hframe fun k h₁ h₂ => ?_⟩
  · rw [length_leBytes] at h₂
    exact hout k h₁ (by omega)
  · rw [length_leBytes] at h₂
    exact hout k (by omega) (by omega)

/-- What emission leaves of the section at `index`. -/
structure SectionHolds (machine : Machine) (indices : AssocMap String Nat) (out : List UInt8)
    (index : Nat) (s : Section) (l : Sections.Layout) (rs : List ObjectRelocation) : Prop where
  name : Holds out (104 + index * 80) (padded (asBytes l.name))
  segment : Holds out (104 + index * 80 + 16) (padded (asBytes l.segment))
  numbers : ∀ w ∈ Sections.parts index l, Holds out w.1 w.2
  data : ¬ NoData s → ∃ d, Patches machine s.data rs d ∧ d.length = s.data.length ∧
    Holds out l.data d
  records : ∀ (n : Nat) (r : ObjectRelocation), rs[n]? = some r →
    RecordHolds machine indices out (l.relocs + n * 8) r

variable {l : Sections.Layout}

theorem mem_parts {w : Nat × List UInt8} (h : w ∈ Sections.parts index l) :
    104 + index * 80 + 32 ≤ w.1 ∧ w.1 + w.2.length ≤ 104 + index * 80 + 68 := by
  unfold Sections.parts at h
  simp only [List.mem_cons, List.not_mem_nil, or_false] at h
  rcases h with rfl | rfl | rfl | rfl | rfl | rfl | rfl
  all_goals
    rw [length_leBytes]
    omega

/-- Writes outside the section leave it as it is. -/
theorem SectionHolds.frame {dataEnd stop index : Nat} {s : Section} {touched : Nat → Prop}
    (h : SectionHolds machine indices out index s l rs) (hfits : Fits dataEnd stop index s l rs)
    (hframe : SameOutside touched out out') (hout : ∀ k, Own index s l k → ¬ touched k) :
    SectionHolds machine indices out' index s l rs where
  name := h.name.frame hframe fun k h₁ h₂ => by
    rw [length_padded hfits.name] at h₂
    exact hout k (.inl (by omega))
  segment := h.segment.frame hframe fun k h₁ h₂ => by
    rw [length_padded hfits.segment] at h₂
    exact hout k (.inl (by omega))
  numbers := fun w hw => (h.numbers w hw).frame hframe fun k h₁ h₂ => by
    have hin := mem_parts hw
    exact hout k (.inl (by omega))
  data := fun hsome => by
    obtain ⟨d, hpatches, hlength, hholds⟩ := h.data hsome
    refine ⟨d, hpatches, hlength, hholds.frame hframe fun k h₁ h₂ => ?_⟩
    exact hout k (.inr (.inl ⟨hsome, h₁, by omega⟩))
  records := fun n r hr => by
    have hn := (List.getElem?_eq_some_iff.mp hr).1
    have hcount := hfits.count
    refine (h.records n r hr).frame hframe fun k h₁ h₂ => ?_
    exact hout k (.inr (.inr ⟨by omega, by omega⟩))

/-! ## Header and data -/

/-- The header and the data before they are relocated. -/
structure EmitHolds (out : List UInt8) (index : Nat) (s : Section) (l : Sections.Layout) :
    Prop where
  name : Holds out (104 + index * 80) (padded (asBytes l.name))
  segment : Holds out (104 + index * 80 + 16) (padded (asBytes l.segment))
  numbers : ∀ w ∈ Sections.parts index l, Holds out w.1 w.2
  data : ¬ NoData s → Holds out l.data s.data

theorem emit_ok {dataEnd stop index : Nat} {s : Section} (hfits : Fits dataEnd stop index s l rs)
    (hroom : stop ≤ out.length) (hzero : Holds out (104 + index * 80) (List.replicate 32 0)) :
    SameOutside (Own index s l) out (Sections.emit out index l s) ∧
      EmitHolds (Sections.emit out index l s) index s l := by
  have hname := hfits.name
  have hsegment := hfits.segment
  have hheader := hfits.header
  have horder := hfits.order
  -- The two names fill fields of zeros.
  have hfirst : Holds out (104 + index * 80) (List.replicate 16 0) := by
    have hpart := hzero.replicate_part (i := 0) (n := 16) (by omega)
    rwa [Nat.add_zero] at hpart
  have hsecond : Holds out (104 + index * 80 + 16) (List.replicate 16 0) :=
    hzero.replicate_part (by omega)
  have f₁ := SameOutside.patch (s := out) (t := asBytes l.name) (k := 104 + index * 80)
    (by omega)
  have g₁ := hfirst.patch (t := asBytes l.name) (k := 0) (by simpa using hname)
  have g₁' := hsecond.frame f₁ fun k h₁ h₂ h₃ => by omega
  rw [Nat.add_zero, patch_zeros] at g₁
  have f₂ := SameOutside.patch (s := patch out (104 + index * 80) (asBytes l.name))
    (t := asBytes l.segment) (k := 104 + index * 80 + 16) (by rw [f₁.length]; omega)
  have g₂ := g₁'.patch (t := asBytes l.segment) (k := 0) (by simpa using hsegment)
  rw [Nat.add_zero, patch_zeros] at g₂
  have g₁'' := g₁.frame f₂ fun k h₁ h₂ h₃ => by
    have hpadded := length_padded hname
    unfold padded at hpadded
    omega
  have hlength₂ := f₂.length.trans f₁.length
  generalize hout₂ : patch (patch out (104 + index * 80) (asBytes l.name))
    (104 + index * 80 + 16) (asBytes l.segment) = out₂ at f₂ g₂ g₁'' hlength₂
  have hinside : ∀ w ∈ Sections.parts index l, w.1 + w.2.length ≤ out₂.length := fun w hw => by
    have hin := mem_parts hw
    omega
  have hinOrder : InOrder (Sections.parts index l) := by
    simp [InOrder, Sections.parts, Precedes]
  have f₃ := frame_writes hinside
  have g₃ := holds_writes hinside hinOrder
  have hwritten : ∀ k, Written (Sections.parts index l) k →
      104 + index * 80 + 32 ≤ k ∧ k < 104 + index * 80 + 68 := by
    rintro k ⟨w, hw, h₁, h₂⟩
    have hin := mem_parts hw
    omega
  have hname₃ := g₁''.frame f₃ fun k h₁ h₂ h₃ => by
    have hpadded := length_padded hname
    unfold padded at hpadded
    have hk := hwritten k h₃
    omega
  have hsegment₃ := g₂.frame f₃ fun k h₁ h₂ h₃ => by
    have hpadded := length_padded hsegment
    unfold padded at hpadded
    have hk := hwritten k h₃
    omega
  have hlength₃ := f₃.length
  have hframe : SameOutside (Own index s l) out (writes out₂ (Sections.parts index l)) := by
    refine ((f₁.mono fun k hk => ?_).trans (f₂.mono fun k hk => ?_)).trans
      (f₃.mono fun k hk => ?_)
    · exact .inl (by omega)
    · exact .inl (by omega)
    · have hk' := hwritten k hk
      exact .inl (by omega)
  unfold Sections.emit
  dsimp only
  rw [hout₂]
  by_cases hdata : NoData s
  · have hzeroData := hfits.noData hdata
    rw [if_neg (not_not.mpr hzeroData)]
    exact ⟨hframe, hname₃, hsegment₃, g₃, fun hn => absurd hdata hn⟩
  · obtain ⟨hlow, hhigh⟩ := hfits.data hdata
    rw [if_pos (by omega)]
    have hroom₃ : l.data + s.data.length ≤ (writes out₂ (Sections.parts index l)).length := by
      omega
    have f₄ := SameOutside.patch hroom₃
    refine ⟨hframe.trans (f₄.mono fun k hk => .inr (.inl ⟨hdata, hk⟩)), ?_, ?_, ?_, ?_⟩
    · refine hname₃.frame f₄ fun k h₁ h₂ h₃ => ?_
      have hpadded := length_padded hname
      unfold padded at hpadded
      omega
    · refine hsegment₃.frame f₄ fun k h₁ h₂ h₃ => ?_
      have hpadded := length_padded hsegment
      unfold padded at hpadded
      omega
    · intro w hw
      have hin := mem_parts hw
      exact (g₃ w hw).frame f₄ fun k h₁ h₂ h₃ => by omega
    · exact fun _ => Holds.patch_self hroom₃

/-! ## Relocations -/

/-- One relocation patches the data and leaves its record. -/
theorem emitRelocation_ok (indices : AssocMap String Nat) {data length code width : Nat} {pc : Bool}
    {out d d' : List UInt8} {at' : Nat}
    (h : Relocations.patch d r machine = .ok (d', code, pc, width)) (hdata : Holds out data d)
    (hlength : d.length = length)
    (hinside : ∀ e, r.kind.machEncoding machine = some e → r.offset + e.2 ≤ length)
    (hbehind : data + length ≤ at') (hroom : at' + 8 ≤ out.length) :
    let out' := writes (patch out data d')
      [(at', leBytes 4 r.offset),
       (at' + 4, leBytes 4 (Relocations.word ((indices.get r.symbol).getD 0) code pc width))]
    SameOutside (fun k => data ≤ k ∧ k < data + length ∨ at' ≤ k ∧ k < at' + 8) out out' ∧
      d'.length = length ∧ Holds out' data d' ∧ RecordHolds machine indices out' at' r := by
  obtain ⟨henc, rfl, field, hfield, rfl, -⟩ := patch_ok h
  have hfits := hinside _ henc
  dsimp only at hfits
  have hlength₁ : (patch d r.offset field).length = length := by
    rw [length_patch (by omega), hlength]
  have hstart := hdata.1
  have f₁ := SameOutside.patch (s := out) (t := patch d r.offset field) (k := data) (by omega)
  have hdata₁ : Holds (patch out data (patch d r.offset field)) data (patch d r.offset field) :=
    Holds.patch_self (by omega)
  have hlengthOut := f₁.length
  dsimp only
  generalize patch out data (patch d r.offset field) = out₁ at f₁ hdata₁ hlengthOut ⊢
  -- The record is behind the data.
  have hfit : ∀ w ∈ [(at', leBytes 4 r.offset), (at' + 4, leBytes 4 (Relocations.word
      ((indices.get r.symbol).getD 0) code (decide (code ≠ 0)) width))],
      at' ≤ w.1 ∧ w.1 + w.2.length ≤ at' + 8 := by
    simp only [List.forall_mem_cons, List.not_mem_nil, length_leBytes]
    exact ⟨by omega, by omega, fun _ hw => hw.elim⟩
  have f₂ := frame_writes fun w hw => Nat.le_trans (hfit w hw).2 (by omega :
    at' + 8 ≤ out₁.length)
  have hholds := holds_writes (fun w hw => Nat.le_trans (hfit w hw).2 (by omega :
    at' + 8 ≤ out₁.length)) (by simp [InOrder, Precedes])
  have f₂' := f₂.mono (p := fun k => at' ≤ k ∧ k < at' + 8) fun k hk => by
    obtain ⟨w, hw, h₁, h₂⟩ := hk
    have hw' := hfit w hw
    omega
  refine ⟨(f₁.mono fun k hk => ?_).trans (f₂'.mono fun k hk => .inr hk), hlength₁,
    hdata₁.frame f₂' fun k h₁ h₂ h₃ => by omega,
    (code, width), henc, hholds _ List.mem_cons_self,
    hholds _ (List.mem_cons_of_mem _ List.mem_cons_self)⟩
  exact .inl (by omega)

/-- The relocations patch the data and leave their records, by induction on them. -/
theorem emitRelocations_ok {data length : Nat} {out out' d : List UInt8} {at' : Nat}
    (h : Relocations.emit data length machine indices out at' rs = .ok out')
    (hdata : Holds out data d) (hlength : d.length = length)
    (hinside : ∀ r ∈ rs, ∀ e, r.kind.machEncoding machine = some e → r.offset + e.2 ≤ length)
    (hbehind : data + length ≤ at') (hroom : at' + rs.length * 8 ≤ out.length) :
    SameOutside (fun k => data ≤ k ∧ k < data + length ∨ at' ≤ k ∧ k < at' + rs.length * 8) out
        out' ∧
      (∃ d', Patches machine d rs d' ∧ d'.length = length ∧ Holds out' data d') ∧
      ∀ (n : Nat) (r : ObjectRelocation), rs[n]? = some r →
        RecordHolds machine indices out' (at' + n * 8) r := by
  induction rs generalizing out d at' with
  | nil =>
      cases h
      exact ⟨SameOutside.refl _ _, ⟨d, .nil d, hlength, hdata⟩, fun n r hr => nomatch hr⟩
  | cons r rs ih =>
      obtain ⟨⟨d₁, code, pc, width⟩, hpatch, hrest⟩ := bind_ok_iff.mp h
      rw [List.length_cons] at hroom
      -- The field is patched inside the data.
      have hslice : slice out data length = d := by
        rw [← hlength]
        exact hdata.2
      rw [hslice] at hpatch
      obtain ⟨f₁, hlength₁, hdata₁, hrecord⟩ := emitRelocation_ok indices hpatch hdata hlength
        (hinside r List.mem_cons_self) hbehind (by omega)
      obtain ⟨f₂, ⟨d', hpatches, hlength', hdata'⟩, hrecords⟩ := ih hrest hdata₁ hlength₁
        (fun r' hr' => hinside r' (List.mem_cons_of_mem _ hr')) (by omega)
        (by rw [f₁.length]; omega)
      refine ⟨?_, ⟨d', .cons hpatch hpatches, hlength', hdata'⟩, fun n r' hr' => ?_⟩
      · rw [List.length_cons]
        refine (f₁.mono fun k hk => ?_).trans (f₂.mono fun k hk => ?_)
        · rcases hk with hk | hk
          · exact .inl hk
          · exact .inr (by omega)
        · rcases hk with hk | hk
          · exact .inl hk
          · exact .inr (by omega)
      · cases n with
        | zero =>
            cases hr'
            rw [Nat.zero_mul, Nat.add_zero]
            exact hrecord.frame f₂ fun k h₁ h₂ h₃ => by omega
        | succ n =>
            have hnext := hrecords n r' hr'
            have hat : at' + (n + 1) * 8 = at' + 8 + n * 8 := by omega
            rwa [hat]

/-! ## All sections -/

theorem emitSection_ok {dataEnd stop index : Nat} {s : Section}
    (h : Relocations.emit l.data s.data.length machine indices (Sections.emit out index l s)
      l.relocs rs = .ok out') (hfits : Fits dataEnd stop index s l rs) (hroom : stop ≤ out.length)
    (hinside : ∀ r ∈ rs, ∀ e, r.kind.machEncoding machine = some e →
      r.offset + e.2 ≤ s.data.length) (hzero : Holds out (104 + index * 80) (List.replicate 32 0)) :
    SameOutside (Own index s l) out out' ∧
      SectionHolds machine indices out' index s l rs := by
  obtain ⟨hframe, hholds⟩ := emit_ok hfits hroom hzero
  have hlength := hframe.length
  have hcount := hfits.count
  by_cases hnone : rs = []
  · subst hnone
    cases h
    refine ⟨hframe, hholds.name, hholds.segment, hholds.numbers, fun hsome => ?_,
      fun n r hr => nomatch hr⟩
    exact ⟨s.data, .nil _, rfl, hholds.data hsome⟩
  · obtain ⟨hsome, hbehind, hend⟩ := hfits.relocs hnone
    obtain ⟨hlow, hhigh⟩ := hfits.data hsome
    obtain ⟨hframe', hdata, hrecords⟩ := emitRelocations_ok h (hholds.data hsome) rfl hinside
      (by omega) (by omega)
    -- Relocations write into the fields of the data and into their own records.
    have hown : ∀ k, l.data ≤ k ∧ k < l.data + s.data.length ∨
        l.relocs ≤ k ∧ k < l.relocs + rs.length * 8 → Own index s l k := by
      rintro k (hk | hk)
      · exact .inr (.inl ⟨hsome, hk⟩)
      · exact .inr (.inr (by rw [hcount]; exact hk))
    have hheader : ∀ k, 104 + index * 80 ≤ k → k < 184 + index * 80 →
        ¬ (l.data ≤ k ∧ k < l.data + s.data.length ∨
          l.relocs ≤ k ∧ k < l.relocs + rs.length * 8) := fun k h₁ h₂ h₃ => by omega
    refine ⟨hframe.trans (hframe'.mono hown), ?_, ?_, ?_, fun _ => hdata, hrecords⟩
    · refine hholds.name.frame hframe' fun k h₁ h₂ => hheader k h₁ ?_
      rw [length_padded hfits.name] at h₂
      omega
    · refine hholds.segment.frame hframe' fun k h₁ h₂ => hheader k (by omega) ?_
      rw [length_padded hfits.segment] at h₂
      omega
    · intro w hw
      have hin := mem_parts hw
      exact (hholds.numbers w hw).frame hframe' fun k h₁ h₂ => hheader k (by omega) (by omega)

/-- The sections from `index` on can be emitted: their layouts fit, none owns what another one owns,
and their headers are still empty. -/
structure Placing (o : ObjectFile) (dataEnd stop : Nat) (out : List UInt8) (index : Nat)
    (sections : List (Section × Sections.Layout)) : Prop where
  fits : ∀ (i : Nat) (e : Section × Sections.Layout), sections[i]? = some e →
    Fits dataEnd stop (index + i) e.1 e.2 (records o (index + i))
  disjoint : ∀ (i j : Nat) (e e' : Section × Sections.Layout), i < j →
    sections[i]? = some e → sections[j]? = some e' →
      ∀ k, Own (index + i) e.1 e.2 k → ¬ Own (index + j) e'.1 e'.2 k
  room : stop ≤ out.length
  inside : ∀ (i : Nat) (e : Section × Sections.Layout), sections[i]? = some e →
    ∀ r ∈ records o (index + i), ∀ enc, r.kind.machEncoding o.target.machine = some enc →
      r.offset + enc.2 ≤ e.1.data.length
  zero : ∀ i < sections.length, Holds out (104 + (index + i) * 80) (List.replicate 32 0)

/-- The first section leaves the later ones as they were. -/
theorem Placing.rest {o : ObjectFile} {dataEnd stop index : Nat} {e : Section × Sections.Layout}
    {sections : List (Section × Sections.Layout)}
    (h : Placing o dataEnd stop out index (e :: sections))
    (hframe : SameOutside (Own index e.1 e.2) out out') :
    Placing o dataEnd stop out' (index + 1) sections := by
  have hindex : ∀ i, index + 1 + i = index + (i + 1) := fun i => by omega
  constructor
  · intro i e he
    rw [hindex]
    exact h.fits (i + 1) e he
  · intro i j e e' hij he he'
    rw [hindex, hindex]
    exact h.disjoint (i + 1) (j + 1) e e' (by omega) he he'
  · rw [hframe.length]
    exact h.room
  · intro i e he
    rw [hindex]
    exact h.inside (i + 1) e he
  · intro i hi
    -- The header of a later section is still empty.
    rw [hindex]
    have hlater := List.getElem?_eq_getElem hi
    refine (h.zero (i + 1) (Nat.succ_lt_succ hi)).frame hframe fun k h₁ h₂ hown => ?_
    rw [List.length_replicate] at h₂
    exact h.disjoint 0 (i + 1) _ _ (by omega) rfl hlater k hown (.inl (by omega))

/-- All sections, by induction on them; no section owns what another one owns. -/
theorem emitSections_ok {o : ObjectFile} {sections : List (Section × Sections.Layout)}
    {dataEnd stop index : Nat} (h : emitSections o indices out index sections = .ok out')
    (hplacing : Placing o dataEnd stop out index sections) :
    SameOutside (fun k => ∃ (i : Nat) (e : Section × Sections.Layout), sections[i]? = some e ∧
        Own (index + i) e.1 e.2 k) out out' ∧
      ∀ (i : Nat) (e : Section × Sections.Layout), sections[i]? = some e →
        SectionHolds o.target.machine indices out' (index + i) e.1 e.2
          (records o (index + i)) := by
  induction sections generalizing out index with
  | nil =>
      cases h
      exact ⟨SameOutside.refl _ _, fun i e he => nomatch he⟩
  | cons e sections ih =>
      obtain ⟨s, l⟩ := e
      obtain ⟨out₁, hstep, hrest⟩ := bind_ok_iff.mp h
      have hindex : ∀ i, index + (i + 1) = index + 1 + i := fun i => by omega
      have hfirst := hplacing.fits 0 _ rfl
      obtain ⟨hframe, hholds⟩ := emitSection_ok hstep hfirst hplacing.room
        (hplacing.inside 0 _ rfl) (hplacing.zero 0 (Nat.succ_pos _))
      obtain ⟨hframe', hholds'⟩ := ih hrest (hplacing.rest hframe)
      refine ⟨(hframe.mono fun k hk => ?_).trans (hframe'.mono fun k hk => ?_),
        fun i e he => ?_⟩
      · exact ⟨0, _, rfl, hk⟩
      · obtain ⟨i, e, he, hk⟩ := hk
        exact ⟨i + 1, e, he, by rw [hindex]; exact hk⟩
      · cases i with
        | zero =>
            cases he
            refine hholds.frame hfirst hframe' fun k hk hlater => ?_
            obtain ⟨i, e, he, hk'⟩ := hlater
            rw [← hindex] at hk'
            exact hplacing.disjoint 0 (i + 1) _ _ (by omega) rfl he k hk hk'
        | succ i =>
            rw [hindex]
            exact hholds' i e he

end Whale.MachO
