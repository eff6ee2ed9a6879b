import Whale.IR.LayoutSpec
import Whale.Interp.Prepare
import Whale.Memory.Invariant
import Whale.Verifier.CfgGraph
import Whale.Verifier.Gep

set_option autoImplicit false

/-! # Pointer arithmetic

The plan that is computed for a verified GEP has the strides and the field offsets of the layout in
plain arithmetic (`gepPlan_exact`). Following a plan adds up integers: the result is the exact sum
where every address on the way is one and the end is within bounds (`gep_iff`), and two plans one
after the other are one plan (`gep_append`). -/

namespace Whale

/-! ## Plans -/

/-- The steps from a value of the type to the part that indices select in it, and the type of the
part. -/
def exactPath (ordinal : ValueId → Option Nat) : Ty → List ValueId → Option (List GepStep × Ty)
  | selected, [] => some ([], selected)
  | selected, index :: indices =>
      match selected with
      | .array element _ => do
          let (steps, part) ← exactPath ordinal element indices
          return (.stride (StorageLayout.x86_64WhaleLinux.exactSize element) :: steps, part)
      | .struct fields | .tuple fields => do
          let i ← ordinal index
          let offset ← (StorageLayout.x86_64WhaleLinux.offsets 0 fields)[i]?
          let field ← fields[i]?
          let (steps, part) ← exactPath ordinal field indices
          return (.field offset :: steps, part)
      | _ => none

/-- The first index counts whole pointees. -/
def exactPlan (ordinal : ValueId → Option Nat) (pointee : Ty) :
    List ValueId → Option (List GepStep × Ty)
  | [] => some ([], pointee)
  | _ :: indices => do
      let (steps, part) ← exactPath ordinal pointee indices
      return (.stride (StorageLayout.x86_64WhaleLinux.exactSize pointee) :: steps, part)

theorem layoutOfWithLimit_exact {ty : Ty} {layout : TypeLayout} {depth : Nat} {e : RunError}
    (h : (orThrow (layoutOfWithLimit ty depth).toOption e : Except RunError TypeLayout) =
      .ok layout) : layout = StorageLayout.x86_64WhaleLinux.exact ty := by
  have hvalid := StorageLayout.valid_of_validate
    (show StorageLayout.x86_64WhaleLinux.validate = .ok () by decide)
  cases hlayout : layoutOfWithLimit ty depth with
  | error e' =>
      rw [hlayout] at h
      cases h
  | ok layout' =>
      rw [hlayout] at h
      cases h
      exact (layoutStorage_exact hvalid ty hlayout).1

variable {indices : List ValueId} {plan : List GepStep}

theorem gepPath_exact {ordinals : AssocMap ValueId Nat} {ordinal : ValueId → Option Nat}
    (hordinals : ∀ index, ordinals.get index = ordinal index) {selected part : Ty}
    (hselects : Selects ordinal selected indices part)
    (h : gepPath ordinals selected indices = .ok plan) :
    exactPath ordinal selected indices = some (plan, part) := by
  induction hselects generalizing plan with
  | here ty =>
      unfold gepPath at h
      cases h
      unfold exactPath
      rfl
  | element _ ih =>
      obtain ⟨layout, hlayout, h₁⟩ := bind_ok_iff.mp h
      obtain ⟨rest, hrest, h₂⟩ := bind_ok_iff.mp h₁
      cases h₂
      rw [layoutOfWithLimit_exact hlayout, exactPath]
      exact Option.bind_eq_some_iff.mpr ⟨_, ih hrest, rfl⟩
  | field hindex hfield _ ih | component hindex hfield _ ih =>
      obtain ⟨i, hi, h₁⟩ := bind_ok_iff.mp h
      obtain ⟨layout, hlayout, h₂⟩ := bind_ok_iff.mp h₁
      obtain ⟨offset, hoffset, h₃⟩ := bind_ok_iff.mp h₂
      obtain ⟨ty, hty, h₄⟩ := bind_ok_iff.mp h₃
      obtain ⟨rest, hrest, h₅⟩ := bind_ok_iff.mp h₄
      cases h₅
      rw [orThrow_ok_iff, hordinals, hindex, Option.some.injEq] at hi
      subst hi
      rw [orThrow_ok_iff, hfield, Option.some.injEq] at hty
      subst hty
      rw [orThrow_ok_iff, layoutOfWithLimit_exact hlayout] at hoffset
      rw [exactPath]
      refine Option.bind_eq_some_iff.mpr ⟨_, hindex, ?_⟩
      refine Option.bind_eq_some_iff.mpr ⟨offset, hoffset, ?_⟩
      refine Option.bind_eq_some_iff.mpr ⟨_, hfield, ?_⟩
      exact Option.bind_eq_some_iff.mpr ⟨_, ih hrest, rfl⟩

/-! ## What the preparation knows -/

/-- The entries of a map with their values converted. -/
theorem get_filterMap_values {κ ν μ : Type} [DecidableEq κ] (g : ν → Option μ)
    {es : AssocMap κ ν} (hu : es.UniqueKeys) (k : κ) :
    AssocMap.get k (es.filterMap fun e => (g e.2).map (e.1, ·)) = (es.get k).bind g := by
  induction es with
  | nil => rfl
  | cons e es ih =>
      obtain ⟨hnew, hu⟩ := List.nodup_cons.mp hu
      rw [AssocMap.get_cons]
      by_cases hk : e.1 = k
      · rw [if_pos hk, Option.bind_some]
        cases hg : g e.2 with
        | some v =>
            rw [List.filterMap_cons_some (b := (e.1, v)) (by rw [hg]; rfl), AssocMap.get_cons,
              if_pos hk]
        | none =>
            rw [List.filterMap_cons_none (by rw [hg]; rfl), ih hu,
              AssocMap.get_eq_none_iff.mpr (hk ▸ hnew)]
            rfl
      · rw [if_neg hk, ← ih hu]
        cases hg : g e.2 with
        | some v =>
            rw [List.filterMap_cons_some (b := (e.1, v)) (by rw [hg]; rfl), AssocMap.get_cons,
              if_neg hk]
        | none => rw [List.filterMap_cons_none (by rw [hg]; rfl)]

theorem uniqueKeys_filterMap_values {κ ν μ : Type} (g : ν → Option μ) {es : AssocMap κ ν}
    (hu : es.UniqueKeys) : AssocMap.UniqueKeys (es.filterMap fun e => (g e.2).map (e.1, ·)) := by
  have hsublist : ∀ es : List (κ × ν),
      ((es.filterMap fun e => (g e.2).map (e.1, ·)).map Prod.fst).Sublist (es.map Prod.fst) := by
    intro es
    induction es with
    | nil => exact .slnil
    | cons e es ih =>
        rw [List.filterMap_cons]
        cases g e.2 with
        | none => exact ih.trans (List.sublist_cons_self _ _)
        | some v => exact ih.cons_cons e.1
  exact hu.sublist (hsublist es)

theorem constOrdinal_eq (ins : Instruction) :
    constOrdinal ins = (constEntry ins).bind fun e => e.2.ordinal.map (e.1, ·) := by
  have hfits : ∀ (p : Prop) [Decidable p] (dst : ValueId) (n : Nat),
      (if p then some (dst, n) else none) = (if p then some n else none).map (dst, ·) := by
    intro p _ dst n
    split <;> rfl
  cases ins with
  | const dst ty value =>
      cases value with
      | i v => exact hfits _ dst _
      | u v => exact hfits _ dst _
      | _ => rfl
  | constDecl dst name expression value =>
      cases value with
      | i v => exact hfits _ dst _
      | u v => exact hfits _ dst _
      | _ => rfl
  | _ => rfl

section

variable {f : Function} (hf : f.Structured)

include hf

theorem uniqueKeys_constants : AssocMap.UniqueKeys (f.instructions.filterMap constEntry) := by
  have hsublist : ∀ instructions : List Instruction,
      ((instructions.filterMap constEntry).map Prod.fst).Sublist
        (instructions.filterMap fun ins => (instrResult ins).map Prod.fst) := by
    intro instructions
    induction instructions with
    | nil => exact .slnil
    | cons ins instructions ih =>
        cases hentry : constEntry ins with
        | none =>
            rw [List.filterMap_cons_none hentry]
            refine ih.trans ?_
            rw [List.filterMap_cons]
            split
            · exact .refl _
            · exact List.sublist_cons_self _ _
        | some e =>
            have hresult : (instrResult ins).map Prod.fst = some e.1 := by
              cases ins <;> cases hentry <;> rfl
            rw [List.filterMap_cons_some hentry,
              List.filterMap_cons_some (f := fun ins => (instrResult ins).map Prod.fst) hresult]
            exact ih.cons_cons e.1
  exact ((List.nodup_append.mp hf.values).2.1).sublist (hsublist f.instructions)

theorem get_ordinals (index : ValueId) :
    (FunctionValues.ofFunction f).ordinals.get index = f.ordinal index := by
  have hentries : f.instructions.filterMap constOrdinal =
      (f.instructions.filterMap constEntry).filterMap fun e => e.2.ordinal.map (e.1, ·) := by
    rw [List.filterMap_filterMap]
    exact List.filterMap_congr fun ins _ => constOrdinal_eq ins
  have hunique : AssocMap.UniqueKeys (f.instructions.filterMap constOrdinal) := by
    rw [hentries]
    exact uniqueKeys_filterMap_values ConstValue.ordinal (uniqueKeys_constants hf)
  unfold FunctionValues.ofFunction Function.ordinal Function.constant
  rw [AssocMap.get_extend hunique, AssocMap.get_nil, Option.or_none, hentries]
  exact get_filterMap_values ConstValue.ordinal (uniqueKeys_constants hf) index

omit hf in
theorem get_types (htypes : verifyValueTypes f = .ok ()) (v : ValueId) :
    (FunctionValues.ofFunction f).types.get v = f.valueType v := by
  obtain ⟨_, hannotations, -⟩ := bind_ok_iff.mp htypes
  have hunique : AssocMap.UniqueKeys f.valueTypes := (checkAnnotations_ok_iff.mp hannotations).1
  unfold FunctionValues.ofFunction
  rw [AssocMap.get_extend hunique, AssocMap.get_nil, Option.or_none]
  rfl

/-- The plan of a verified GEP is that of the layout in plain arithmetic, and leads to the type of
the result. -/
theorem gepPlan_exact (htypes : verifyValueTypes f = .ok ()) {dst base : ValueId} {dstTy : Ty}
    (hverified : verifyGep f dst dstTy base indices = .ok ())
    (h : gepPlan (FunctionValues.ofFunction f).types (FunctionValues.ofFunction f).ordinals base
      indices = .ok plan) :
    ∃ pointee part, f.valueType base = some (.ptr pointee) ∧ dstTy = .ptr part ∧
      exactPlan f.ordinal pointee indices = some (plan, part) := by
  obtain ⟨pointee, part, hbase, rfl, -, hselects⟩ := verifyGep_ok hverified
  refine ⟨pointee, part, hbase, rfl, ?_⟩
  unfold gepPlan at h
  rw [get_types htypes, hbase] at h
  cases indices with
  | nil =>
      cases h
      cases hselects
      rfl
  | cons index indices =>
      obtain ⟨layout, hlayout, h₁⟩ := bind_ok_iff.mp h
      obtain ⟨rest, hrest, h₂⟩ := bind_ok_iff.mp h₁
      cases h₂
      rw [layoutOfWithLimit_exact hlayout]
      exact Option.bind_eq_some_iff.mpr
        ⟨_, gepPath_exact (get_ordinals hf) hselects hrest, rfl⟩

end

/-! ## Following a plan -/

/-- A walk ends when every address on the way is one, and it ends at the sum. -/
theorem walkAddress_iff {address r : Int} {ds : List Int} :
    walkAddress address ds = some r ↔
      (∀ k < ds.length, 0 ≤ address + (ds.take (k + 1)).sum ∧
        address + (ds.take (k + 1)).sum < wordBound) ∧ r = address + ds.sum := by
  induction ds generalizing address with
  | nil =>
      rw [walkAddress, Option.some.injEq, List.sum_nil, Int.add_zero]
      exact ⟨fun h => ⟨fun k hk => absurd hk (Nat.not_lt_zero k), h.symm⟩, fun h => h.2.symm⟩
  | cons d ds ih =>
      have hshift : ∀ k, address + ((d :: ds).take (k + 2)).sum =
          address + d + (ds.take (k + 1)).sum := by
        intro k
        rw [List.take_succ_cons, List.sum_cons, Int.add_assoc]
      have hfirst : address + ((d :: ds).take 1).sum = address + d := by simp
      rw [walkAddress, List.sum_cons, ← Int.add_assoc]
      constructor
      · intro h
        by_cases hin : 0 ≤ address + d ∧ address + d < wordBound
        · rw [if_pos hin] at h
          obtain ⟨hall, hr⟩ := ih.mp h
          refine ⟨fun k hk => ?_, hr⟩
          cases k with
          | zero =>
              rw [hfirst]
              exact hin
          | succ k =>
              rw [hshift]
              exact hall k (Nat.lt_of_succ_lt_succ hk)
        · rw [if_neg hin] at h
          cases h
      · rintro ⟨hall, hr⟩
        have hin := hall 0 (Nat.succ_pos _)
        rw [hfirst] at hin
        rw [if_pos hin]
        refine ih.mpr ⟨fun k hk => ?_, hr⟩
        rw [← hshift]
        exact hall (k + 1) (Nat.succ_lt_succ hk)

/-- Every address on the way is a 64-bit number, and the end is within the bounds. -/
def GepDefined (p : Pointer) (cap : Capability) (deltas : List Int) : Prop :=
  (∀ k < deltas.length, 0 ≤ p.address.toNat + (deltas.take (k + 1)).sum ∧
    p.address.toNat + (deltas.take (k + 1)).sum < wordBound) ∧
  cap.lower ≤ cap.offset + deltas.sum ∧ cap.offset + deltas.sum ≤ cap.upper

/-- `q` is `p` moved by `d` bytes, with the authority of `p`. -/
structure Moved (p q : Pointer) (cap : Capability) (d : Int) : Prop where
  address : (q.address.toNat : Int) = p.address.toNat + d
  capability : ∃ offset : Nat,
    q.capability = some { cap with offset := offset } ∧ (offset : Int) = cap.offset + d

variable {m : Memory}

namespace Memory

/-- The pointer has authority over the live allocation. -/
structure Authority (m : Memory) (p : Pointer) (cap : Capability) (a : Allocation) : Prop where
  address : p.address ≠ 0
  capability : p.capability = some cap
  arena : cap.arena = m.arena
  allocation : m.allocations[cap.allocation]? = some a
  live : a.alive = true
  generation : a.generation = cap.generation
  lower : cap.lower ≤ cap.offset
  upper : cap.offset ≤ cap.upper
  size : cap.upper ≤ a.bytes.length
  base : a.address + cap.offset = p.address.toNat

variable {p : Pointer} {cap : Capability}

theorem authority_of_identity {id : Nat} (h : m.identity p = .ok (id, cap)) :
    id = cap.allocation ∧ ∃ a, Authority m p cap a := by
  unfold identity at h
  split at h
  · cases h
  rename_i haddress
  split at h
  · cases h
  rename_i c hcap
  split at h
  · cases h
  rename_i harena
  split at h
  · cases h
  rename_i a ha
  split at h
  · cases h
  rename_i hlive
  split at h
  · cases h
  rename_i hbounds
  cases h
  push Not at hlive hbounds
  obtain ⟨hlower, hupper, hsize, hsum⟩ := hbounds
  exact ⟨rfl, a, haddress, hcap, not_not.mp harena, ha, by simpa using hlive.1, hlive.2, hlower,
    hupper, hsize, (checkedAdd_eq_some.mp hsum).1⟩

theorem Authority.identity {a : Allocation} (h : Authority m p cap a) :
    m.identity p = .ok (cap.allocation, cap) := by
  have hlt : p.address.toNat < wordBound := p.address.toNat_lt
  have hlive : ¬ (a.alive = false ∨ a.generation ≠ cap.generation) := by
    simp [h.live, h.generation]
  have hbounds : ¬ (cap.lower > cap.offset ∨ cap.offset > cap.upper ∨
      cap.upper > a.bytes.length ∨
      checkedAdd a.address cap.offset ≠ some p.address.toNat) := by
    have hadd := checkedAdd_eq_some.mpr ⟨h.base, hlt⟩
    have hlower := h.lower
    have hupper := h.upper
    have hsize := h.size
    simp only [hadd, ne_eq, not_true, or_false]
    omega
  unfold Memory.identity
  simp only [if_neg h.address, h.capability, h.allocation]
  rw [if_neg (not_not.mpr h.arena), if_neg hlive, if_neg hbounds]

/-- The offsets that a plan adds for the indices. -/
def gepDeltas (plan : List GepStep) (indices : List ConstValue) : List Int :=
  (plan.zip indices).map fun e => stepBytes e.1 e.2

/-- Following a plan adds up integers: it fails exactly when an address on the way is none or the
end is out of bounds. -/
theorem gep_iff {id : Nat} (hid : m.identity p = .ok (id, cap)) {indices : List ConstValue}
    (hsteps : ∀ e ∈ plan.zip indices, StepValid e) :
    ((∃ q, m.gep p plan indices = .ok q) ↔ GepDefined p cap (gepDeltas plan indices)) ∧
      ∀ q, m.gep p plan indices = .ok q → Moved p q cap (gepDeltas plan indices).sum := by
  obtain ⟨-, a, ha⟩ := authority_of_identity hid
  have hlower := ha.lower
  have hupper := ha.upper
  have hbase := ha.base
  have hlt : p.address.toNat < wordBound := p.address.toNat_lt
  unfold gep gepDeltas
  -- Without an index the pointer comes back as it is, unchecked.
  by_cases hempty : indices = []
  · subst hempty
    rw [List.zip_nil_right]
    refine ⟨⟨fun _ => ⟨fun k hk => absurd hk (Nat.not_lt_zero k), ?_⟩, fun _ => ⟨p, rfl⟩⟩, ?_⟩
    · simp only [List.map_nil, List.sum_nil]
      omega
    · intro q hq
      cases hq
      exact ⟨by simp, cap.offset, ha.capability, by simp⟩
  have hne : ¬ indices.isEmpty = true := by simpa using hempty
  have hword : (wordBound : Int) = 2 ^ 64 := rfl
  have hstart : (p.address.toNat : Int) - cap.offset + cap.offset = p.address.toNat := by omega
  simp only [if_neg hne, hid, ok_bind]
  have hbound : (0 : Int) ≤ p.address.toNat - cap.offset ∧
      (p.address.toNat : Int) - cap.offset < wordBound := by omega
  have hloop := gepOffset_spec hbound (plan.zip indices) hsteps cap.offset (by omega)
  rw [hstart] at hloop
  generalize (plan.zip indices).map (fun e => stepBytes e.1 e.2) = deltas at *
  -- Either every address on the way is a word, or the walk leaves them and traps.
  rcases hloop with ⟨r, hwalk, hrun, hlo, hhi⟩ | ⟨hwalk, t, hrun⟩
  · obtain ⟨hall, hsum⟩ := walkAddress_iff.mp hwalk
    have hr : r = cap.offset + deltas.sum := by omega
    rw [hrun]
    simp only [ok_bind]
    by_cases hin : cap.lower ≤ r ∧ r ≤ cap.upper
    · rw [require_of (by omega : 0 ≤ r ∧ r < wordBound), ok_bind, require_of hin, ok_bind,
        require_of ⟨hlo, hhi⟩, ok_bind]
      refine ⟨⟨fun _ => ⟨hall, by omega, by omega⟩, fun _ => ⟨_, rfl⟩⟩, fun q hq => ?_⟩
      cases hq
      refine ⟨?_, r.toNat, rfl, by omega⟩
      show ((UInt64.ofNat ((p.address.toNat : Int) - cap.offset + r).toNat).toNat : Int) = _
      rw [UInt64.toNat_ofNat', Nat.mod_eq_of_lt (by unfold wordBound at hhi; omega)]
      omega
    · refine ⟨⟨fun ⟨q, hq⟩ => ?_, fun ⟨_, hlow, hup⟩ => absurd ⟨by omega, by omega⟩ hin⟩,
        fun q hq => ?_⟩
      all_goals
        obtain ⟨-, h₁⟩ := require_then_ok_iff.mp hq
        exact absurd (require_then_ok_iff.mp h₁).1 hin
  · rw [hrun]
    refine ⟨⟨fun ⟨q, hq⟩ => ?_, fun ⟨hall, _⟩ => ?_⟩, fun q hq => ?_⟩
    · cases hq
    · rw [walkAddress_iff.mpr ⟨hall, rfl⟩] at hwalk
      cases hwalk
    · cases hq

/-- A pointer within the bounds of another has its authority. -/
theorem Authority.advance {p q : Pointer} {a : Allocation} (h : Authority m p cap a)
    (hpos : 0 < a.address) {r : Nat} (hcap : q.capability = some { cap with offset := r })
    (hlower : cap.lower ≤ r) (hupper : r ≤ cap.upper) (hbase : a.address + r = q.address.toNat) :
    Authority m q { cap with offset := r } a where
  address := by
    intro hzero
    rw [hzero, show UInt64.toNat 0 = 0 from rfl] at hbase
    omega
  capability := hcap
  arena := h.arena
  allocation := h.allocation
  live := h.live
  generation := h.generation
  lower := hlower
  upper := hupper
  size := h.size
  base := hbase

theorem gepOffset_append {base offset : Int} {xs ys : List (GepStep × ConstValue)} :
    gepOffset base offset (xs ++ ys) =
      gepOffset base offset xs >>= fun offset => gepOffset base offset ys := by
  induction xs generalizing offset with
  | nil => rfl
  | cons e xs ih =>
      obtain ⟨step, index⟩ := e
      simp only [List.cons_append, gepOffset, bind_assoc, ih]

/-- Two plans one after the other are one plan. -/
theorem gep_append (hm : ∀ a ∈ m.allocations, 0 < a.address) {p q : Pointer} {a b : List GepStep}
    {i j : List ConstValue} (hlen : a.length = i.length) (h : m.gep p a i = .ok q) :
    m.gep q b j = m.gep p (a ++ b) (i ++ j) := by
  cases i with
  | nil =>
      obtain rfl := List.length_eq_zero_iff.mp hlen
      cases h
      rfl
  | cons v i =>
      -- What the first one has checked is what the second one asks of `q`.
      obtain ⟨⟨id, cap⟩, hid, h₁⟩ := bind_ok_iff.mp h
      obtain ⟨r, hr, h₂⟩ := bind_ok_iff.mp h₁
      obtain ⟨hword, h₃⟩ := require_then_ok_iff.mp h₂
      obtain ⟨hin, h₄⟩ := require_then_ok_iff.mp h₃
      obtain ⟨hsum, h₅⟩ := require_then_ok_iff.mp h₄
      have hzip : (a ++ b).zip (v :: i ++ j) = a.zip (v :: i) ++ b.zip j := List.zip_append hlen
      cases j with
      | nil =>
          rw [List.append_nil, List.zip_nil_right, List.append_nil] at hzip
          rw [List.append_nil, show m.gep q b [] = .ok q from rfl, ← h]
          unfold gep
          rw [hzip]
      | cons w j =>
          obtain ⟨rfl, o, ho⟩ := authority_of_identity hid
          have hbase := ho.base
          have hpos := hm o (List.mem_of_getElem? ho.allocation)
          have hcap : q.capability = some { cap with offset := r.toNat } := by
            cases h₅
            rfl
          have haddress : q.address.toNat = o.address + r.toNat := by
            cases h₅
            show (UInt64.ofNat ((p.address.toNat : Int) - cap.offset + r).toNat).toNat = _
            rw [UInt64.toNat_ofNat', Nat.mod_eq_of_lt (by unfold wordBound at hsum; omega)]
            omega
          have hq := ho.advance hpos hcap (by omega) (by omega) haddress.symm
          have hstart : ((o.address + r.toNat : Nat) : Int) - r =
              (p.address.toNat : Int) - cap.offset := by omega
          have hoffset : ((r.toNat : Nat) : Int) = r := by omega
          unfold gep
          simp only [List.isEmpty_cons, List.cons_append, Bool.false_eq_true, if_false, hid,
            hq.identity, ok_bind, haddress, hstart, hoffset]
          rw [show (a ++ b).zip (v :: (i ++ w :: j)) = a.zip (v :: i) ++ b.zip (w :: j) from hzip,
            gepOffset_append, hr, ok_bind]

end Memory

theorem allocation_address_pos {σ : CellStore} (h : Rel m σ) (happart : σ.Apart) :
    ∀ a ∈ m.allocations, 0 < a.address := by
  intro a ha
  obtain ⟨id, hid⟩ := List.mem_iff_getElem?.mp ha
  have hlt : id < σ.blocks.length := by
    rw [← h.length]
    exact (List.getElem?_eq_some_iff.mp hid).1
  have hrel := h.block id a _ hid (List.getElem?_eq_getElem hlt)
  have hextent := (happart.mem (List.mem_map_of_mem (List.getElem_mem hlt))).1
  rw [hrel.base]
  exact Nat.lt_of_lt_of_le (by decide) hextent

/-! ## Verified GEPs -/

/-- A verified index and a stride that preflight accepts make a step. -/
theorem stepValid_of_verified {f : Function} {values : List ConstValue}
    (hstride : GepStep.stride 0 ∉ plan)
    (hinteger : ∀ i ∈ indices, ∃ ty, f.valueType i = some ty ∧ ty.isInteger = true)
    (hvalues : List.Forall₂ (fun i v => ∃ ty, f.valueType i = some ty ∧
      validConstant ty v = true) indices values) : ∀ e ∈ plan.zip values, StepValid e := by
  rintro ⟨step, v⟩ he stride rfl
  have hstep := (List.of_mem_zip he).1
  refine ⟨Nat.pos_of_ne_zero fun hzero => hstride (hzero ▸ hstep), ?_⟩
  obtain ⟨i, hi, ty, hty, hvalid⟩ := exists_of_forall₂ hvalues.flip (List.of_mem_zip he).2
  obtain ⟨ty', hty', hint⟩ := hinteger i hi
  obtain rfl : ty = ty' := Option.some.inj (hty.symm.trans hty')
  cases v with
  | i v => exact Or.inl ⟨v, rfl⟩
  | u v => exact Or.inr ⟨v, rfl⟩
  | _ => cases ty <;> cases hint <;> cases hvalid

/-- **Pointer arithmetic agrees with layout**: the plan prepared for a verified GEP has the
strides and field offsets of the layout; following it from a pointer with authority over a live
allocation gives exactly the sum, with the same authority, when every address on the way is one and
the end is in bounds, and an error otherwise; and one plan after another is both in one. -/
theorem gep_exact {f : Function} (hf : f.Structured) (htypes : verifyValueTypes f = .ok ())
    {dst base : ValueId} {dstTy : Ty} {indices : List ValueId}
    (hverified : verifyGep f dst dstTy base indices = .ok ()) {program : Program}
    {site : ExecutionSite} {p p' : Preparation} {t t' : FunctionTables}
    (hprepared : prepareInstruction program (.ofFunction f) site (.gep dst dstTy base indices) p t =
      .ok (p', t')) (arena : Nat) (capacity : List MapOp → Nat) (limits : MemoryLimits)
    (ops : List MemoryOp) (hops : (Memory.new arena capacity limits).PromisedRun ops) :
    (∃ pointee plan part, f.valueType base = some (.ptr pointee) ∧ dstTy = .ptr part ∧
      exactPlan f.ordinal pointee indices = some (plan, part) ∧
      t'.geps.get (site.block, site.instruction) = some plan ∧
      ∀ pointer cap a values,
        Memory.Authority ((Memory.new arena capacity limits).runOps ops).2 pointer cap a →
        List.Forall₂ (fun i v => ∃ ty, f.valueType i = some ty ∧ validConstant ty v = true)
          indices values →
        ((∃ q, ((Memory.new arena capacity limits).runOps ops).2.gep pointer plan values = .ok q) ↔
          GepDefined pointer cap (Memory.gepDeltas plan values)) ∧
        ∀ q, ((Memory.new arena capacity limits).runOps ops).2.gep pointer plan values = .ok q →
          Moved pointer q cap (Memory.gepDeltas plan values).sum) ∧
    ∀ (pointer q : Pointer) (a b : List GepStep) (i j : List ConstValue), a.length = i.length →
      ((Memory.new arena capacity limits).runOps ops).2.gep pointer a i = .ok q →
      ((Memory.new arena capacity limits).runOps ops).2.gep q b j =
        ((Memory.new arena capacity limits).runOps ops).2.gep pointer (a ++ b) (i ++ j) := by
  have hempty : (CellStore.empty arena).Apart := Nat.le_refl 0x1000
  obtain ⟨⟨σ, hrel, happart, -, -⟩, -⟩ := Memory.runOps_keeps ops
    (rel_new arena capacity limits) hempty (Memory.tidy_new arena capacity limits) hops
  refine ⟨?_, fun pointer q a b i j hlen hgep =>
    Memory.gep_append (allocation_address_pos hrel happart) hlen hgep⟩
  obtain ⟨plan, hplan, h₁⟩ := bind_ok_iff.mp hprepared
  obtain ⟨hstride, h₂⟩ := require_then_ok_iff.mp h₁
  cases h₂
  obtain ⟨pointee, part, hbase, hdst, hexact⟩ := gepPlan_exact hf htypes hverified hplan
  obtain ⟨_, _, -, -, hinteger, -⟩ := verifyGep_ok hverified
  refine ⟨pointee, plan, part, hbase, hdst, hexact, AssocMap.get_insert_self _ _ _, ?_⟩
  intro pointer cap a values hauthority hvalues
  exact Memory.gep_iff hauthority.identity
    (stepValid_of_verified (by simpa using hstride) hinteger hvalues)

/-- Take the address of an element in the second field of a neighbour. -/
def elementOf : Function where
  id := ⟨0⟩
  name := "element_of"
  params := [⟨"base", ⟨0⟩, .ptr (.struct [.u8, .array .u32 4])⟩, ⟨"index", ⟨1⟩, .i8⟩]
  retTy := .ptr .u32
  blocks := [⟨⟨0⟩, "entry",
    [.const ⟨2⟩ .i64 (.i 1), .const ⟨3⟩ .u8 (.u 1), .gep ⟨4⟩ (.ptr .u32) ⟨0⟩ [⟨2⟩, ⟨3⟩, ⟨1⟩]],
    some (.ret (.ptr .u32) (some ⟨4⟩))⟩]
  entry := ⟨0⟩
  valueTypes := [(⟨0⟩, .ptr (.struct [.u8, .array .u32 4])), (⟨1⟩, .i8), (⟨2⟩, .i64),
    (⟨3⟩, .u8), (⟨4⟩, .ptr .u32)]

theorem elementOf_structured : elementOf.Structured where
  blocks := by decide
  entry := by decide
  terminated := by decide
  targets := by decide
  values := by decide

theorem gep_exact_elementOf :
    ∃ plan q cap, exactPlan elementOf.ordinal (.struct [.u8, .array .u32 4]) [⟨2⟩, ⟨3⟩, ⟨1⟩] =
        some (plan, .u32) ∧
      ((Memory.new 0 (fun _ => 0) .default).runOps [.allocate 40 4 4]).2.gep
        (freshPointer 0 0 0x1000 40) plan [.i 1, .u 1, .i (-2)] = .ok q ∧
      Moved (freshPointer 0 0 0x1000 40) q cap 16 := by
  have hops : (Memory.new 0 (fun _ => 0) .default).PromisedRun [.allocate 40 4 4] :=
    ⟨fun _ _ => show 0 < max 4 4 by decide, trivial⟩
  have hverified : verifyGep elementOf ⟨4⟩ (.ptr .u32) ⟨0⟩ [⟨2⟩, ⟨3⟩, ⟨1⟩] = .ok () := by
    decide +kernel
  have hprepared : prepareInstruction ⟨[], []⟩ (.ofFunction elementOf) ⟨⟨0⟩, ⟨0⟩, 2, some ⟨4⟩⟩
      (.gep ⟨4⟩ (.ptr .u32) ⟨0⟩ [⟨2⟩, ⟨3⟩, ⟨1⟩]) ⟨[], [], [], [], [], []⟩ ⟨[], [], []⟩ =
      .ok (⟨[], [], [], [], [], []⟩,
        ⟨[], [((⟨0⟩, 2), [.stride 20, .field 4, .stride 4])], []⟩) := rfl
  obtain ⟨⟨pointee, plan, part, hbase, hdst, hexact, -, hgep⟩, -⟩ :=
    gep_exact elementOf_structured (by decide +kernel) hverified hprepared 0 (fun _ => 0) .default
      _ hops
  cases hbase
  cases hdst
  have hplan : exactPlan elementOf.ordinal (.struct [.u8, .array .u32 4]) [⟨2⟩, ⟨3⟩, ⟨1⟩] =
      some ([.stride 20, .field 4, .stride 4], .u32) := by decide +kernel
  obtain rfl : plan = [.stride 20, .field 4, .stride 4] :=
    congrArg Prod.fst (Option.some.inj (hexact.symm.trans hplan))
  obtain ⟨cap, hid⟩ : ∃ cap, ((Memory.new 0 (fun _ => 0) .default).runOps
      [.allocate 40 4 4]).2.identity (freshPointer 0 0 0x1000 40) = .ok (0, cap) := ⟨_, rfl⟩
  obtain ⟨-, a, hauthority⟩ := Memory.authority_of_identity hid
  cases hauthority.capability
  obtain ⟨hdefined, hmoved⟩ := hgep _ _ _ [.i 1, .u 1, .i (-2)] hauthority
    (.cons ⟨.i64, rfl, rfl⟩ (.cons ⟨.u8, rfl, rfl⟩ (.cons ⟨.i8, rfl, rfl⟩ .nil)))
  obtain ⟨q, hq⟩ := hdefined.mpr ⟨by decide, by decide, by decide⟩
  exact ⟨_, q, _, hplan, hq, hmoved q hq⟩

end Whale
