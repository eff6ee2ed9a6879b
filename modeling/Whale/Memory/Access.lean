import Whale.Memory.RefineValue

set_option autoImplicit false

/-! # When an access of the cells succeeds

The steps of the cells, read as conditions: an access succeeds exactly when it is granted,
copies and fills of nothing do nothing, a load also needs the bytes of its value to be
there, and a loaded data pointer has authority only when its eight fragments are in place. -/

namespace Whale

namespace Block

/-- The `n` cells from `start` are initialized. -/
def Initialized (b : Block) (start n : Nat) : Prop := ∀ j < n, b.cells (start + j) ≠ none

/-- The cell at `i` holds a byte of a boolean. -/
def HoldsBool (b : Block) (i : Nat) : Prop :=
  ∃ content, b.cells i = some content ∧ (content.byte = 0 ∨ content.byte = 1)

/-- The bytes of a value of type `ty` are there. Of a checked result these are its integer
and its flag; the gap behind them does not count. -/
def Readable (b : Block) (start : Nat) : Ty → Prop
  | .tuple (t :: _) => b.Initialized start (sizeOfTy t) ∧ b.HoldsBool (start + sizeOfTy t)
  | .bool => b.HoldsBool start
  | ty => b.Initialized start (sizeOfTy ty)

theorem bytes?_isSome_iff (b : Block) (start n : Nat) :
    (b.bytes? start n).isSome ↔ b.Initialized start n := by
  induction n generalizing start with
  | zero => exact ⟨fun _ j hj => by omega, fun _ => rfl⟩
  | succ n ih =>
      have htail : b.Initialized start (n + 1) ↔
          b.cells start ≠ none ∧ b.Initialized (start + 1) n := by
        constructor
        · intro h
          refine ⟨h 0 (by omega), fun j hj => ?_⟩
          rw [Nat.add_assoc, Nat.add_comm 1]
          exact h (j + 1) (by omega)
        · rintro ⟨h₀, h⟩ j hj
          cases j with
          | zero => exact h₀
          | succ j =>
              rw [Nat.add_comm j, ← Nat.add_assoc]
              exact h j (by omega)
      rw [htail, ← ih, bytes?]
      cases b.cells start with
      | none => simp
      | some content =>
          cases b.bytes? (start + 1) n with
          | none => simp
          | some rest => simp

/-- A boolean can be read exactly when its cell holds `0` or `1`. -/
theorem scalarAt_bool_isSome_iff (b : Block) (start : Nat)
    (callable : Option FunctionSignature) :
    (b.scalarAt start .bool callable).isSome ↔ b.HoldsBool start := by
  have hone : sizeOfTy .bool = 1 := rfl
  simp only [scalarAt, hone, bytes?, HoldsBool]
  cases b.cells start with
  | none => simp
  | some content =>
      have hv : leValue [content.byte] = content.byte.toNat := by simp [leValue]
      have h0 : content.byte.toNat = 0 ↔ content.byte = 0 := by
        rw [← UInt8.toNat_inj]
        rfl
      have h1 : content.byte.toNat = 1 ↔ content.byte = 1 := by
        rw [← UInt8.toNat_inj]
        rfl
      simp only [Option.bind_eq_bind, Option.bind_some, hv, h0, h1]
      by_cases hz : content.byte = 0
      · simp [hz]
      · by_cases ho : content.byte = 1 <;> simp [hz, ho]

/-- Any other value without parts can be read exactly when its cells are initialized. -/
theorem scalarAt_isSome_iff (b : Block) (start : Nat) {ty : Ty} (hty : plainType ty)
    (hbool : ty ≠ .bool) (callable : Option FunctionSignature) :
    (b.scalarAt start ty callable).isSome ↔ b.Initialized start (sizeOfTy ty) := by
  rw [← bytes?_isSome_iff, scalarAt]
  cases b.bytes? start (sizeOfTy ty) with
  | none => simp
  | some bytes =>
      simp only [Option.bind_eq_bind, Option.bind_some, Option.isSome_some, iff_true]
      rcases hty with hty | ⟨t, rfl⟩ | ⟨s, rfl⟩
      · obtain ⟨v, hv⟩ := pack_of_scalarType hty hbool (leValue bytes)
        cases ty <;> first
          | (cases hty; done)
          | exact absurd rfl hbool
          | simp only [hv, Option.map_some, Option.isSome_some]
      · rfl
      · rfl

/-- A value can be read exactly when its bytes are there. -/
theorem valueAt_isSome_iff (b : Block) (start : Nat) {ty : Ty} (hty : valueType ty = true)
    (callable : Option FunctionSignature) :
    (b.valueAt start ty callable).isSome ↔ b.Readable start ty := by
  rcases valueType_cases hty with hplain | ⟨t, rfl, ht⟩
  · by_cases hbool : ty = .bool
    · subst hbool
      exact scalarAt_bool_isSome_iff b start callable
    · have hne := not_tuple_of_plainType hplain
      have hread : b.Readable start ty = b.Initialized start (sizeOfTy ty) := by
        cases ty <;> first | rfl | exact absurd rfl hbool | exact absurd rfl (hne _)
      have hval : b.valueAt start ty callable = b.scalarAt start ty callable := by
        cases ty <;> first | rfl | exact absurd rfl (hne _)
      rw [hread, hval]
      exact scalarAt_isSome_iff b start hplain hbool callable
  · have hscalar : scalarType t = true := by simp [scalarType, ht]
    have hbool : t ≠ .bool := by
      rintro rfl
      cases ht
    have hfirst := scalarAt_isSome_iff b start (plainType_of_shape ht) hbool none
    have hflag := scalarAt_bool_isSome_iff b (start + sizeOfTy t) none
    simp only [Readable, valueAt]
    rw [← hfirst, ← hflag]
    cases hv : b.scalarAt start t none with
    | none => simp
    | some v =>
        obtain ⟨c, rfl, -⟩ := scalarAt_scalar hscalar hv
        cases hw : b.scalarAt (start + sizeOfTy t) .bool none with
        | none => simp
        | some w =>
            obtain ⟨c', rfl, hc'⟩ := scalarAt_scalar rfl hw
            obtain ⟨flag, rfl⟩ := hc' rfl
            simp

/-- The fragments `0..7` of one pointer stand, in order, in the cells from `start`. -/
def HoldsPointer (b : Block) (start : Nat) (p : StoredPointer) : Prop :=
  ∀ i < 8, b.tag (start + i) = some ⟨p, i⟩

theorem pointerAt_eq_some {b : Block} {start : Nat} {p : StoredPointer} :
    b.pointerAt start = some p ↔ b.HoldsPointer start p := by
  unfold pointerAt HoldsPointer
  constructor
  · intro h
    split at h
    · cases h
    · obtain ⟨hall, heq⟩ := Option.ite_none_right_eq_some.mp h
      cases heq
      intro i hi
      have := List.all_eq_true.mp hall i (List.mem_range.mpr hi)
      exact of_decide_eq_true this
  · intro h
    have h₀ := h 0 (by omega)
    rw [Nat.add_zero] at h₀
    rw [h₀]
    refine if_pos (List.all_eq_true.mpr fun i hi => ?_)
    exact decide_eq_true (h i (List.mem_range.mp hi))

end Block

namespace CellStore

/-- The conditions under which the accesses of a store succeed, and what they do. -/
structure Accesses (σ : CellStore) : Prop where
  load : ∀ p ty align signature, valueType ty = true →
    ((σ.step (.load p ty align signature)).isSome ↔
      ∃ cap b, σ.Grants p (sizeOfTy ty) align false cap b ∧ b.Readable cap.offset ty)
  store : ∀ p ty value align, (σ.step (.store p ty value align)).isSome ↔
    ∃ cap b, σ.Grants p (sizeOfTy ty) align true cap b
  uninit : ∀ p size align, (σ.step (.uninit p size align)).isSome ↔
    ∃ cap b, σ.Grants p size align true cap b
  set : ∀ p byte size align, size ≠ 0 →
    ((σ.step (.set p byte size align)).isSome ↔ ∃ cap b, σ.Grants p size align true cap b)
  copy : ∀ dst src size align, size ≠ 0 →
    ((σ.step (.copy dst src size align)).isSome ↔
      ∃ s bs d bd, σ.Grants src size align false s bs ∧ σ.Grants dst size align true d bd ∧
        ¬ Overlap d s size)
  /-- Copies and fills of nothing touch nothing. -/
  nothing : ∀ dst src byte align, σ.step (.copy dst src 0 align) = some (.unit, σ) ∧
    σ.step (.set dst byte 0 align) = some (.unit, σ)
  /-- A loaded data pointer is null for address `0`, the stored data pointer whose eight
  fragments are in place, or the loaded address without authority. -/
  loadPointer : ∀ p t align signature out σ', σ.step (.load p (.ptr t) align signature) =
      some (out, σ') →
    σ' = σ ∧ ∃ cap b bytes, σ.Grants p 8 align false cap b ∧
      b.bytes? cap.offset 8 = some bytes ∧
      ((leValue bytes = 0 ∧ out = .value (.pointer (.raw 0))) ∨
        (∃ q, leValue bytes ≠ 0 ∧ b.HoldsPointer cap.offset (.data q) ∧
          out = .value (.pointer q)) ∨
        (leValue bytes ≠ 0 ∧ (∀ q, ¬ b.HoldsPointer cap.offset (.data q)) ∧
          out = .value (.pointer (.raw (UInt64.ofNat (leValue bytes))))))

theorem grant_isSome_iff (σ : CellStore) (p : Pointer) (n align : Nat) (write : Bool) :
    (σ.grant p n align write).isSome ↔ ∃ cap b, σ.Grants p n align write cap b := by
  rw [Option.isSome_iff_exists]
  constructor
  · rintro ⟨⟨cap, b⟩, h⟩
    exact ⟨cap, b, grant_eq_some.mp h⟩
  · rintro ⟨cap, b, h⟩
    exact ⟨(cap, b), grant_eq_some.mpr h⟩

theorem grant_unique {σ : CellStore} {p : Pointer} {n align : Nat} {write : Bool}
    {cap cap' : Capability} {b b' : Block} (h : σ.Grants p n align write cap b)
    (h' : σ.Grants p n align write cap' b') : cap' = cap ∧ b' = b := by
  have heq := (grant_eq_some.mpr h).symm.trans (grant_eq_some.mpr h')
  cases heq
  exact ⟨rfl, rfl⟩

/-- What a load of a data pointer gives, from the bytes and the pointer in the cells. -/
theorem loadedPointer_cases (b : Block) (start : Nat) {bytes : List UInt8}
    (hlen : bytes.length = 8) :
    (leValue bytes = 0 ∧
        Memory.loadedPointer (b.pointerAt start) (UInt64.ofNat (leValue bytes)) = .raw 0) ∨
      (∃ q, leValue bytes ≠ 0 ∧ b.HoldsPointer start (.data q) ∧
        Memory.loadedPointer (b.pointerAt start) (UInt64.ofNat (leValue bytes)) = q) ∨
      (leValue bytes ≠ 0 ∧ (∀ q, ¬ b.HoldsPointer start (.data q)) ∧
        Memory.loadedPointer (b.pointerAt start) (UInt64.ofNat (leValue bytes)) =
          .raw (UInt64.ofNat (leValue bytes))) := by
  have hlt := leValue_lt bytes
  rw [hlen] at hlt
  have hzero : UInt64.ofNat (leValue bytes) = 0 ↔ leValue bytes = 0 := by
    rw [← UInt64.toNat_inj, UInt64.toNat_ofNat', Nat.mod_eq_of_lt (by omega)]
    rfl
  unfold Memory.loadedPointer
  simp only [hzero]
  by_cases h0 : leValue bytes = 0
  · exact Or.inl ⟨h0, if_pos h0⟩
  · rw [if_neg h0]
    right
    cases hp : b.pointerAt start with
    | none =>
        right
        refine ⟨h0, fun q hq => ?_, rfl⟩
        rw [Block.pointerAt_eq_some.mpr hq] at hp
        cases hp
    | some stored =>
        cases stored with
        | data q => exact Or.inl ⟨q, h0, Block.pointerAt_eq_some.mp hp, rfl⟩
        | function f =>
            right
            refine ⟨h0, fun q hq => ?_, rfl⟩
            rw [Block.pointerAt_eq_some.mpr hq] at hp
            cases hp

theorem accesses (σ : CellStore) : σ.Accesses where
  load := by
    intro p ty align signature hty
    simp only [step]
    cases hgrant : σ.grant p (sizeOfTy ty) align false with
    | none =>
        have hno : ¬ ∃ cap b, σ.Grants p (sizeOfTy ty) align false cap b := by
          rw [← grant_isSome_iff, hgrant]
          simp
        constructor
        · intro h
          cases h
        · rintro ⟨cap, b, hg, -⟩
          exact absurd ⟨cap, b, hg⟩ hno
    | some e =>
        obtain ⟨cap, b⟩ := e
        have hg := grant_eq_some.mp hgrant
        rw [Option.isSome_map, Block.valueAt_isSome_iff b cap.offset hty]
        constructor
        · intro h
          exact ⟨cap, b, hg, h⟩
        · rintro ⟨cap', b', hg', h⟩
          obtain ⟨rfl, rfl⟩ := grant_unique hg hg'
          exact h
  store := by
    intro p ty value align
    rw [← grant_isSome_iff]
    simp only [step]
    cases σ.grant p (sizeOfTy ty) align true <;> simp
  uninit := by
    intro p size align
    rw [← grant_isSome_iff]
    simp only [step]
    cases σ.grant p size align true <;> simp
  set := by
    intro p byte size align hsize
    rw [← grant_isSome_iff]
    simp only [step, hsize, if_false]
    cases σ.grant p size align true <;> simp
  copy := by
    intro dst src size align hsize
    simp only [step, hsize, if_false]
    constructor
    · intro h
      split at h
      · rename_i s bs d bd hs hd
        by_cases hover : Overlap d s size
        · rw [if_pos hover] at h
          cases h
        · exact ⟨s, bs, d, bd, grant_eq_some.mp hs, grant_eq_some.mp hd, hover⟩
      · cases h
    · rintro ⟨s, bs, d, bd, hs, hd, hover⟩
      rw [grant_eq_some.mpr hs, grant_eq_some.mpr hd]
      dsimp only
      rw [if_neg hover]
      rfl
  nothing := by
    intro dst src byte align
    exact ⟨by simp only [step, if_true], by simp only [step, if_true]⟩
  loadPointer := by
    intro p t align signature out σ' h
    simp only [step, sizeOfTy_ptr] at h
    cases hgrant : σ.grant p 8 align false with
    | none =>
        rw [hgrant] at h
        cases h
    | some e =>
        obtain ⟨cap, b⟩ := e
        rw [hgrant] at h
        obtain ⟨v, hv, heq⟩ := Option.map_eq_some_iff.mp h
        cases heq
        simp only [Block.valueAt, Block.scalarAt, sizeOfTy_ptr] at hv
        cases hbytes : b.bytes? cap.offset 8 with
        | none =>
            rw [hbytes] at hv
            cases hv
        | some bytes =>
            rw [hbytes] at hv
            cases hv
            refine ⟨rfl, cap, b, bytes, grant_eq_some.mp hgrant, hbytes, ?_⟩
            rcases loadedPointer_cases b cap.offset (bytes?_length hbytes) with
              ⟨h0, hq⟩ | ⟨q, h0, hp, hq⟩ | ⟨h0, hp, hq⟩
            · exact Or.inl ⟨h0, by rw [hq]⟩
            · exact Or.inr (Or.inl ⟨q, h0, hp, by rw [hq]⟩)
            · exact Or.inr (Or.inr ⟨h0, hp, by rw [hq]⟩)

end CellStore

end Whale
