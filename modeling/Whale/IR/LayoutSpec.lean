import Whale.IR.Layout
import Whale.Lib.Bytes
import Mathlib.Data.List.Forall2

set_option autoImplicit false

/-! # What a storage layout is

The layout of a type in plain arithmetic, without bounds (`exact`), and what the checked
computation has to do with it. -/

namespace Whale

namespace StorageLayout

variable (storage : StorageLayout)

/-! ## The layout in plain arithmetic -/

mutual

def exactAlign : Ty → Nat
  | .void => 1
  | .bool | .i1 | .u1 | .i8 | .u8 => storage.scalarAlign 0
  | .i16 | .u16 | .f16 => storage.scalarAlign 1
  | .i32 | .u32 | .f32 => storage.scalarAlign 2
  | .i64 | .u64 | .f64 => storage.scalarAlign 3
  | .i128 | .u128 => storage.scalarAlign 4
  | .ptr _ | .fnPtr _ => storage.pointerAlign
  | .array element _ => exactAlign element
  | .struct fields | .tuple fields => fieldsAlign fields

/-- The largest alignment of a field. -/
def fieldsAlign : List Ty → Nat
  | [] => 1
  | field :: fields => max (exactAlign field) (fieldsAlign fields)

end

mutual

def exactSize : Ty → Nat
  | .void => 0
  | .bool | .i1 | .u1 | .i8 | .u8 => 1
  | .i16 | .u16 | .f16 => 2
  | .i32 | .u32 | .f32 => 4
  | .i64 | .u64 | .f64 => 8
  | .i128 | .u128 => 16
  | .ptr _ | .fnPtr _ => storage.ptrBits / 8
  | .array element count => exactSize element * count.toNat
  | .struct fields | .tuple fields =>
      roundUp (fieldsEnd 0 fields) (fieldsAlign storage fields)

/-- Where the last field ends when the first one follows `offset`. -/
def fieldsEnd (offset : Nat) : List Ty → Nat
  | [] => offset
  | field :: fields =>
      fieldsEnd (roundUp offset (exactAlign storage field) + exactSize field) fields

end

/-- Where each field starts. -/
def offsets (offset : Nat) : List Ty → List Nat
  | [] => []
  | field :: fields =>
      let start := roundUp offset (storage.exactAlign field)
      start :: offsets (start + storage.exactSize field) fields

/-- The layout of a type in plain arithmetic. -/
def exact (ty : Ty) : TypeLayout where
  size := storage.exactSize ty
  align := storage.exactAlign ty
  fieldOffsets :=
    match ty with
    | .struct fields | .tuple fields => storage.offsets 0 fields
    | _ => []
  elementStride :=
    match ty with
    | .array element _ => some (storage.exactSize element)
    | _ => none

/-- The largest size of a type. -/
def maxSize : Nat := if storage.ptrBits = 32 then 2 ^ 32 - 1 else wordMax

/-! ## Alignments -/

variable {storage}

/-- What a valid storage description says. -/
structure Valid (storage : StorageLayout) : Prop where
  scalar : ∀ i < 5, ∃ k ≤ i, storage.scalarAlign i = 2 ^ k
  pointer : ∃ k ≤ 4, storage.pointerAlign = 2 ^ k
  pointerSize : storage.pointerAlign ∣ storage.ptrBits / 8

theorem valid_of_validate {u : Unit} (h : storage.validate = .ok u) : storage.Valid := by
  obtain ⟨hbits, h₁⟩ := require_then_ok_iff.mp h
  obtain ⟨⟨hscalar, hpointer, -⟩, h₂⟩ := require_then_ok_iff.mp h₁
  obtain ⟨hscalarSize, hpointerSize⟩ := require_ok_iff.mp h₂
  simp only [List.all_eq_true, List.mem_range, decide_eq_true_eq] at hscalar hscalarSize
  obtain ⟨n, hn⟩ := isPowerOfTwo_iff.mp hpointer
  have hsize : ∃ m ≤ 3, storage.ptrBits / 8 = 2 ^ m := by
    rcases hbits with h32 | h64
    · exact ⟨2, by decide, by rw [h32]; rfl⟩
    · exact ⟨3, by decide, by rw [h64]; rfl⟩
  obtain ⟨m, hm, hsize⟩ := hsize
  rw [hsize, hn] at hpointerSize
  have hnm : n ≤ m := (Nat.pow_le_pow_iff_right (by decide)).mp hpointerSize
  refine ⟨fun i hi => ?_, ⟨n, by omega, hn⟩, ?_⟩
  · obtain ⟨k, hk⟩ := isPowerOfTwo_iff.mp (hscalar i hi)
    have hle := hscalarSize i hi
    rw [hk] at hle
    exact ⟨k, (Nat.pow_le_pow_iff_right (by decide)).mp hle, hk⟩
  · rw [hsize, hn]
    exact pow_dvd_pow 2 hnm

theorem Valid.scalarAlign_pow (h : storage.Valid) {i : Nat} (hi : i < 5) :
    ∃ k ≤ 4, storage.scalarAlign i = 2 ^ k := by
  obtain ⟨k, hk, heq⟩ := h.scalar i hi
  exact ⟨k, by omega, heq⟩

theorem Valid.scalarAlign_dvd (h : storage.Valid) {i : Nat} (hi : i < 5) :
    storage.scalarAlign i ∣ 2 ^ i := by
  obtain ⟨k, hk, heq⟩ := h.scalar i hi
  rw [heq]
  exact pow_dvd_pow 2 hk

mutual

theorem Valid.exactAlign_pow (h : storage.Valid) :
    (ty : Ty) → ∃ k ≤ 4, storage.exactAlign ty = 2 ^ k
  | .void => ⟨0, by decide, rfl⟩
  | .bool | .i1 | .u1 | .i8 | .u8 => h.scalarAlign_pow (i := 0) (by decide)
  | .i16 | .u16 | .f16 => h.scalarAlign_pow (i := 1) (by decide)
  | .i32 | .u32 | .f32 => h.scalarAlign_pow (i := 2) (by decide)
  | .i64 | .u64 | .f64 => h.scalarAlign_pow (i := 3) (by decide)
  | .i128 | .u128 => h.scalarAlign_pow (i := 4) (by decide)
  | .ptr _ | .fnPtr _ => h.pointer
  | .array element _ => h.exactAlign_pow element
  | .struct fields | .tuple fields => h.fieldsAlign_pow fields

theorem Valid.fieldsAlign_pow (h : storage.Valid) :
    (fields : List Ty) → ∃ k ≤ 4, storage.fieldsAlign fields = 2 ^ k
  | [] => ⟨0, by decide, rfl⟩
  | field :: fields => by
      obtain ⟨j, hj, hfield⟩ := h.exactAlign_pow field
      obtain ⟨k, hk, hfields⟩ := h.fieldsAlign_pow fields
      rw [fieldsAlign]
      rcases le_total (storage.exactAlign field) (storage.fieldsAlign fields) with hle | hle
      · exact ⟨k, hk, by rw [max_eq_right hle, hfields]⟩
      · exact ⟨j, hj, by rw [max_eq_left hle, hfield]⟩

end

theorem Valid.exactAlign_pos (h : storage.Valid) (ty : Ty) : 0 < storage.exactAlign ty := by
  obtain ⟨k, -, hk⟩ := h.exactAlign_pow ty
  rw [hk]
  exact Nat.two_pow_pos k

/-- The size of a type is a multiple of its alignment. -/
theorem Valid.exactAlign_dvd (h : storage.Valid) :
    (ty : Ty) → storage.exactAlign ty ∣ storage.exactSize ty
  | .void => Nat.dvd_zero _
  | .bool | .i1 | .u1 | .i8 | .u8 => h.scalarAlign_dvd (i := 0) (by decide)
  | .i16 | .u16 | .f16 => h.scalarAlign_dvd (i := 1) (by decide)
  | .i32 | .u32 | .f32 => h.scalarAlign_dvd (i := 2) (by decide)
  | .i64 | .u64 | .f64 => h.scalarAlign_dvd (i := 3) (by decide)
  | .i128 | .u128 => h.scalarAlign_dvd (i := 4) (by decide)
  | .ptr _ | .fnPtr _ => h.pointerSize
  | .array element count => (h.exactAlign_dvd element).mul_right count.toNat
  | .struct _ | .tuple _ => dvd_roundUp _ _

/-! ## Fields -/

theorem fieldsAlign_eq (fields : List Ty) :
    storage.fieldsAlign fields = ((fields.map storage.exact).map TypeLayout.align).foldr max 1 := by
  induction fields with
  | nil => rfl
  | cons field fields ih =>
      rw [fieldsAlign, ih]
      rfl

theorem length_offsets (offset : Nat) (fields : List Ty) :
    (storage.offsets offset fields).length = fields.length := by
  induction fields generalizing offset with
  | nil => rfl
  | cons field fields ih => rw [offsets, List.length_cons, List.length_cons, ih]

theorem Valid.le_fieldsEnd (h : storage.Valid) (offset : Nat) (fields : List Ty) :
    offset ≤ storage.fieldsEnd offset fields := by
  induction fields generalizing offset with
  | nil => exact Nat.le_refl _
  | cons field fields ih =>
      rw [fieldsEnd]
      calc offset
        _ ≤ roundUp offset (storage.exactAlign field) := le_roundUp (h.exactAlign_pos field) offset
        _ ≤ roundUp offset (storage.exactAlign field) + storage.exactSize field :=
          Nat.le_add_right _ _
        _ ≤ _ := ih _

/-- No field starts before `offset`. -/
theorem Valid.le_of_mem_offsets (h : storage.Valid) {offset o : Nat} {fields : List Ty}
    (ho : o ∈ storage.offsets offset fields) : offset ≤ o := by
  induction fields generalizing offset with
  | nil => cases ho
  | cons field fields ih =>
      have hround := le_roundUp (h.exactAlign_pos field) offset
      rcases List.mem_cons.mp ho with rfl | ho
      · exact hround
      · have hrest := ih ho
        omega

/-- A field is aligned, ends before every later one starts, and before the end. -/
theorem Valid.offsets_spec (h : storage.Valid) {fields : List Ty} {offset i o : Nat} {field : Ty}
    (hfield : fields[i]? = some field) (ho : (storage.offsets offset fields)[i]? = some o) :
    storage.exactAlign field ∣ o ∧
      o + storage.exactSize field ≤ storage.fieldsEnd offset fields ∧
      ∀ j o', i < j → (storage.offsets offset fields)[j]? = some o' →
        o + storage.exactSize field ≤ o' := by
  induction fields generalizing offset i with
  | nil => cases hfield
  | cons first fields ih =>
      cases i with
      | zero =>
          cases hfield
          cases ho
          refine ⟨dvd_roundUp _ _, h.le_fieldsEnd _ _, fun j o' hj ho' => ?_⟩
          obtain ⟨k, rfl⟩ : ∃ k, j = k + 1 := ⟨j - 1, by omega⟩
          exact h.le_of_mem_offsets (List.mem_of_getElem? ho')
      | succ i =>
          obtain ⟨hdvd, hend, hlater⟩ := ih hfield ho
          refine ⟨hdvd, hend, fun j o' hj ho' => ?_⟩
          obtain ⟨k, rfl⟩ : ∃ k, j = k + 1 := ⟨j - 1, by omega⟩
          exact hlater k o' (by omega) ho'

end StorageLayout

/-! ## The checked computation -/

section

variable {storage : StorageLayout}

theorem alignUp_ok {size align r : Nat} (halign : ∃ k ≤ 4, align = 2 ^ k)
    (h : alignUp size align = .ok r) : roundUp size align = r ∧ r < wordBound := by
  obtain ⟨k, hk, rfl⟩ := halign
  have hchecked : checkedAlignUp size (2 ^ k) = some r := by
    unfold alignUp at h
    simp only at h
    unfold checkedAlignUp wrappingNeg
    split at h
    · cases h
    · rename_i size' heq
      cases h
      exact heq
  exact (checkedAlignUp_iff (by omega)).mp hchecked

theorem TypeLayout.fits_ok {layout l : TypeLayout} (h : layout.fits storage = .ok l) :
    l = layout ∧ layout.size ≤ storage.maxSize := by
  have hif : (if layout.size > storage.maxSize then Except.error LayoutError.overflow
    else Except.ok layout) = .ok l := h
  by_cases hsize : layout.size > storage.maxSize
  · rw [if_pos hsize] at hif
    cases hif
  · rw [if_neg hsize] at hif
    cases hif
    exact ⟨rfl, Nat.le_of_not_lt hsize⟩

theorem TypeLayout.addField_ok {result field r : TypeLayout}
    (halign : ∃ k ≤ 4, field.align = 2 ^ k) (h : result.addField field = .ok r) :
    r = { result with
      size := roundUp result.size field.align + field.size
      align := max result.align field.align
      fieldOffsets := result.fieldOffsets ++ [roundUp result.size field.align] } := by
  unfold TypeLayout.addField at h
  split at h
  · cases h
  · rename_i offset hoffset
    obtain ⟨rfl, -⟩ := alignUp_ok halign hoffset
    split at h
    · cases h
    · rename_i size hsize
      obtain ⟨rfl, -⟩ := checkedAdd_eq_some.mp hsize
      cases h
      rfl

mutual

/-- What is accepted is the exact layout, and it fits. -/
theorem layoutStorage_exact (hvalid : storage.Valid) : (ty : Ty) → {depth : Nat} →
    {layout : TypeLayout} → layoutStorage storage depth ty = .ok layout →
    layout = storage.exact ty ∧ layout.size ≤ storage.maxSize
  | .void, _, _, h => by
      rw [layoutStorage] at h
      cases h
  | .bool, _, _, h | .i1, _, _, h | .u1, _, _, h | .i8, _, _, h | .u8, _, _, h
  | .i16, _, _, h | .u16, _, _, h | .f16, _, _, h | .i32, _, _, h | .u32, _, _, h
  | .f32, _, _, h | .i64, _, _, h | .u64, _, _, h | .f64, _, _, h | .i128, _, _, h
  | .u128, _, _, h | .ptr _, _, _, h | .fnPtr _, _, _, h => by
      rw [layoutStorage] at h
      obtain ⟨rfl, hfits⟩ := TypeLayout.fits_ok h
      exact ⟨rfl, hfits⟩
  | .array element count, depth, layout, h => by
      rw [layoutStorage] at h
      split at h
      · cases h
      · split at h
        · cases h
        · rename_i part hpart
          obtain ⟨rfl, -⟩ := layoutStorage_exact hvalid element hpart
          split at h
          · cases h
          · rename_i size hsize
            obtain ⟨rfl, -⟩ := checkedMul_eq_some.mp hsize
            obtain ⟨rfl, hfits⟩ := TypeLayout.fits_ok h
            exact ⟨rfl, hfits⟩
  | .struct fields, depth, layout, h | .tuple fields, depth, layout, h => by
      rw [layoutStorage] at h
      split at h
      · cases h
      · split at h
        · cases h
        · rename_i result hresult
          obtain ⟨rfl, -⟩ := layoutFields_exact hvalid fields Nat.one_pos hresult
          split at h
          · cases h
          · rename_i size hsize
            -- The fields start from alignment 1, which every alignment absorbs.
            have hone : max 1 (storage.fieldsAlign fields) = storage.fieldsAlign fields := by
              obtain ⟨k, -, hk⟩ := hvalid.fieldsAlign_pow fields
              exact max_eq_right (hk ▸ Nat.two_pow_pos k)
            simp only [TypeLayout.scalar, hone, List.nil_append] at hsize h
            obtain ⟨rfl, -⟩ := alignUp_ok (hvalid.fieldsAlign_pow fields) hsize
            obtain ⟨rfl, hfits⟩ := TypeLayout.fits_ok h
            exact ⟨rfl, hfits⟩

/-- The loop over the fields computes the exact offsets, and every field is accepted. -/
theorem layoutFields_exact (hvalid : storage.Valid) : (fields : List Ty) → {depth : Nat} →
    {result r : TypeLayout} → 0 < result.align →
    layoutFields storage depth result fields = .ok r →
    r = { result with
        size := storage.fieldsEnd result.size fields
        align := max result.align (storage.fieldsAlign fields)
        fieldOffsets := result.fieldOffsets ++ storage.offsets result.size fields } ∧
      ∀ field ∈ fields, layoutStorage storage depth field = .ok (storage.exact field)
  | [], depth, result, r, hpos, h => by
      rw [layoutFields] at h
      cases h
      have hone : max result.align 1 = result.align := max_eq_left hpos
      simp [StorageLayout.fieldsEnd, StorageLayout.offsets, StorageLayout.fieldsAlign, hone]
  | field :: fields, depth, result, r, hpos, h => by
      rw [layoutFields] at h
      split at h
      · cases h
      · rename_i part hpart
        obtain ⟨rfl, -⟩ := layoutStorage_exact hvalid field hpart
        split at h
        · cases h
        · rename_i result' hresult
          have hstep := TypeLayout.addField_ok (hvalid.exactAlign_pow field) hresult
          subst hstep
          obtain ⟨rfl, hall⟩ := layoutFields_exact hvalid fields (hpos.trans_le (le_max_left _ _)) h
          refine ⟨?_, fun f hf => ?_⟩
          · simp [StorageLayout.fieldsEnd, StorageLayout.offsets, StorageLayout.fieldsAlign,
              StorageLayout.exact, max_assoc]
          · rcases List.mem_cons.mp hf with rfl | hf
            · exact hpart
            · exact hall f hf

end

end

/-! ## Soundness -/

/-- The fields with the layouts `parts` are aligned and disjoint in an aggregate. -/
structure FieldsLaidOut (parts : List TypeLayout) (layout : TypeLayout) : Prop where
  count : layout.fieldOffsets.length = parts.length
  align : layout.align = (parts.map TypeLayout.align).foldr max 1
  aligned : ∀ (i : Nat) part o, parts[i]? = some part → layout.fieldOffsets[i]? = some o →
    part.align ∣ o
  inside : ∀ (i : Nat) part o, parts[i]? = some part → layout.fieldOffsets[i]? = some o →
    o + part.size ≤ layout.size
  disjoint : ∀ (i j : Nat) part o o', i < j → parts[i]? = some part →
    layout.fieldOffsets[i]? = some o → layout.fieldOffsets[j]? = some o' → o + part.size ≤ o'

/-- The elements with the layout `part` are aligned and disjoint in an array. -/
structure ElementsLaidOut (part : TypeLayout) (count : Nat) (layout : TypeLayout) : Prop where
  stride : layout.elementStride = some part.size
  align : layout.align = part.align
  aligned : ∀ i, part.align ∣ i * part.size
  inside : ∀ i < count, i * part.size + part.size ≤ layout.size
  disjoint : ∀ i j, i < j → i * part.size + part.size ≤ j * part.size

/-- The parts of a type, each with the layout it has for itself, make up its layout. -/
def PartsLaidOut (storage : StorageLayout) (depth : Nat) : Ty → TypeLayout → Prop
  | .struct fields, layout | .tuple fields, layout => ∃ parts,
      List.Forall₂ (fun field part => layoutStorage storage (depth - 1) field = .ok part)
        fields parts ∧ FieldsLaidOut parts layout
  | .array element count, layout => ∃ part,
      layoutStorage storage (depth - 1) element = .ok part ∧
        ElementsLaidOut part count.toNat layout
  | _, layout => layout.fieldOffsets = [] ∧ layout.elementStride = none

section

variable {storage : StorageLayout} (hvalid : storage.Valid)

include hvalid

theorem fieldsLaidOut (fields : List Ty) :
    FieldsLaidOut (fields.map storage.exact) (storage.exact (.struct fields)) := by
  have hpart : ∀ {i part}, (fields.map storage.exact)[i]? = some part →
      ∃ field, fields[i]? = some field ∧ part = storage.exact field := fun {i part} h => by
    rw [List.getElem?_map, Option.map_eq_some_iff] at h
    obtain ⟨field, hfield, rfl⟩ := h
    exact ⟨field, hfield, rfl⟩
  refine ⟨?_, ?_, ?_, ?_, ?_⟩
  · rw [List.length_map]
    exact StorageLayout.length_offsets 0 fields
  · exact StorageLayout.fieldsAlign_eq fields
  · intro i part o hi ho
    obtain ⟨field, hfield, rfl⟩ := hpart hi
    exact (hvalid.offsets_spec hfield ho).1
  · intro i part o hi ho
    obtain ⟨field, hfield, rfl⟩ := hpart hi
    obtain ⟨k, -, hk⟩ := hvalid.fieldsAlign_pow fields
    calc o + storage.exactSize field
      _ ≤ storage.fieldsEnd 0 fields := (hvalid.offsets_spec hfield ho).2.1
      _ ≤ _ := le_roundUp (hk ▸ Nat.two_pow_pos k) _
  · intro i j part o o' hij hi ho ho'
    obtain ⟨field, hfield, rfl⟩ := hpart hi
    exact (hvalid.offsets_spec hfield ho).2.2 j o' hij ho'

theorem elementsLaidOut (element : Ty) (count : UInt64) :
    ElementsLaidOut (storage.exact element) count.toNat (storage.exact (.array element count)) where
  stride := rfl
  align := rfl
  aligned i := (hvalid.exactAlign_dvd element).mul_left i
  inside i hi := by
    show i * storage.exactSize element + storage.exactSize element ≤ _
    rw [← Nat.succ_mul]
    exact (Nat.mul_le_mul_right _ hi).trans (Nat.le_of_eq (Nat.mul_comm _ _))
  disjoint i j hij := by
    rw [← Nat.succ_mul]
    exact Nat.mul_le_mul_right _ hij

theorem partsLaidOut {ty : Ty} {depth : Nat} {layout : TypeLayout}
    (h : layoutStorage storage depth ty = .ok layout) : PartsLaidOut storage depth ty layout := by
  obtain ⟨rfl, -⟩ := layoutStorage_exact hvalid ty h
  cases ty with
  | array element count =>
      rw [layoutStorage] at h
      split at h
      · cases h
      · rename_i remaining hremaining
        obtain ⟨-, rfl⟩ := checkedSub_eq_some.mp hremaining
        split at h
        · cases h
        · rename_i part hpart
          obtain ⟨rfl, -⟩ := layoutStorage_exact hvalid element hpart
          exact ⟨_, hpart, elementsLaidOut hvalid element count⟩
  | struct fields | tuple fields =>
      rw [layoutStorage] at h
      split at h
      · cases h
      · rename_i remaining hremaining
        obtain ⟨-, rfl⟩ := checkedSub_eq_some.mp hremaining
        split at h
        · cases h
        · rename_i result hresult
          obtain ⟨-, hall⟩ := layoutFields_exact hvalid fields Nat.one_pos hresult
          refine ⟨fields.map storage.exact, ?_, fieldsLaidOut hvalid fields⟩
          rw [List.forall₂_map_right_iff, List.forall₂_same]
          exact hall
  | _ => exact ⟨rfl, rfl⟩

end

/-- A layout that is accepted is the one of plain arithmetic, so nothing has wrapped; its parts
are aligned and disjoint, at every level of nesting. What does not fit is rejected. -/
theorem layoutStorage_sound (storage : StorageLayout) (hstorage : storage.validate = .ok ())
    (depth : Nat) (ty : Ty) :
    (∀ layout, layoutStorage storage depth ty = .ok layout →
      layout.size = storage.exactSize ty ∧ layout.size ≤ storage.maxSize ∧
        layout.align = storage.exactAlign ty ∧ layout.align ∣ layout.size ∧
        PartsLaidOut storage depth ty layout) ∧
      (storage.maxSize < storage.exactSize ty →
        ∃ e, layoutStorage storage depth ty = .error e) := by
  have hvalid := StorageLayout.valid_of_validate hstorage
  constructor
  · intro layout h
    have hparts := partsLaidOut hvalid h
    obtain ⟨rfl, hfits⟩ := layoutStorage_exact hvalid ty h
    exact ⟨rfl, hfits, rfl, hvalid.exactAlign_dvd ty, hparts⟩
  · intro hlarge
    cases h : layoutStorage storage depth ty with
    | error e => exact ⟨e, rfl⟩
    | ok layout =>
        obtain ⟨rfl, hfits⟩ := layoutStorage_exact hvalid ty h
        exact absurd hfits (Nat.not_le_of_lt hlarge)

/-- The built-in target. -/
theorem layoutStorage_sound_x86_64 :
    StorageLayout.x86_64WhaleLinux.validate = .ok () ∧
      PartsLaidOut .x86_64WhaleLinux 128 (.struct [.u8, .array .u32 3, .u16])
        ⟨20, 4, [0, 4, 16], none⟩ :=
  have hstorage : StorageLayout.x86_64WhaleLinux.validate = .ok () := by decide
  ⟨hstorage, ((layoutStorage_sound .x86_64WhaleLinux hstorage 128
    (.struct [.u8, .array .u32 3, .u16])).1 ⟨20, 4, [0, 4, 16], none⟩ (by decide)).2.2.2.2⟩

end Whale
