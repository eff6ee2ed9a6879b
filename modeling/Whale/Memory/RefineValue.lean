import Whale.Memory.RefineWrite

set_option autoImplicit false

/-! # Typed loads and stores

A value without parts is at most sixteen bytes; a checked result is such a value and a flag
behind it. A store writes their bytes, and for a pointer its eight fragments; a load reads
them back when every byte is initialized, and gives a pointer its authority back only when
its eight fragments stand there in order. -/

namespace Whale

/-! ## Layouts of value types -/

/-- The types of the values that have no parts. -/
def plainType (ty : Ty) : Prop :=
  scalarType ty = true ∨ (∃ t, ty = .ptr t) ∨ ∃ s, ty = .fnPtr s

variable {ty : Ty}

theorem valueType_cases (h : valueType ty = true) :
    plainType ty ∨ ∃ t, ty = .tuple [t, .bool] ∧ (Integer.shape t).isSome = true := by
  unfold valueType at h
  rw [Bool.or_eq_true] at h
  rcases h with h | h
  · exact Or.inl (Or.inl h)
  · split at h
    · exact Or.inl (Or.inr (Or.inl ⟨_, rfl⟩))
    · exact Or.inl (Or.inr (Or.inr ⟨_, rfl⟩))
    · exact Or.inr ⟨_, rfl, h⟩
    · cases h

variable {layout : TypeLayout}

theorem sizeOfTy_of_layout (h : checkedLayout ty = .ok layout) : layout.size = sizeOfTy ty := by
  unfold checkedLayout at h
  unfold sizeOfTy
  cases hl : layoutOfWithLimit ty maxIrNesting with
  | ok l =>
      rw [hl] at h
      cases h
      rfl
  | error e =>
      rw [hl] at h
      cases h

/-- A value without parts has a layout of at most sixteen bytes. -/
theorem plainType_layout (h : plainType ty) :
    ∃ layout, checkedLayout ty = .ok layout ∧ layout.size ≤ 16 := by
  rcases h with h | ⟨t, rfl⟩ | ⟨s, rfl⟩
  · cases ty <;> first | (cases h; done) | exact ⟨_, rfl, by decide⟩
  · exact ⟨_, rfl, by decide⟩
  · exact ⟨_, rfl, by decide⟩

theorem not_tuple_of_plainType (h : plainType ty) (fields : List Ty) : ty ≠ .tuple fields := by
  rintro rfl
  rcases h with h | ⟨t, ht⟩ | ⟨s, hs⟩
  · cases h
  · cases ht
  · cases hs

theorem sizeOfTy_ptr (t : Ty) : sizeOfTy (.ptr t) = 8 := rfl

theorem plainType_of_shape {t : Ty} (h : (Integer.shape t).isSome = true) : plainType t := by
  left
  simp [scalarType, h]

theorem plainType_bool : plainType .bool := Or.inl rfl

/-- The layout of a checked result: the flag stands right behind the integer. -/
theorem checkedType_layout {t : Ty} (h : (Integer.shape t).isSome = true) :
    ∃ layout, checkedLayout (.tuple [t, .bool]) = .ok layout ∧
      layout.fieldOffsets = [0, sizeOfTy t] ∧ sizeOfTy t + 1 ≤ layout.size := by
  cases t <;> first | (cases h; done) | exact ⟨_, rfl, rfl, by decide⟩

theorem checkedFields_eq {t : Ty} (h : layout.fieldOffsets = [0, sizeOfTy t]) :
    Memory.checkedFields [t, .bool] layout = .ok ((t, 0), (.bool, sizeOfTy t)) := by
  simp [Memory.checkedFields, h]

/-! ## Loads -/

variable {b : Block}

variable {a : Allocation}

theorem checkInitialized_spec (h : Body a b) (n start : Nat) (hrange : start + n ≤ b.size) :
    (∃ bytes, b.bytes? start n = some bytes ∧ bytes = slice a.bytes start n ∧
        Memory.checkInitialized a.initialized start n = .ok ()) ∨
      (b.bytes? start n = none ∧
        ∃ t, Memory.checkInitialized a.initialized start n = .error (.trap t)) := by
  induction n generalizing start with
  | zero => exact Or.inl ⟨[], rfl, by simp [slice], rfl⟩
  | succ n ih =>
      have hi : start < a.initialized.length := by rw [h.initialized]; omega
      have hb : start < a.bytes.length := by rw [h.bytes]; omega
      have hcell := h.cells start (by omega)
      rw [Allocation.cell_eq (List.getElem?_eq_getElem hi) (List.getElem?_eq_getElem hb)] at hcell
      simp only [Memory.checkInitialized, List.getElem?_eq_getElem hi, orThrow_some, ok_bind]
      by_cases h0 : a.initialized[start] = 0
      · rw [if_pos h0] at hcell
        rw [require_of_not (by simpa using h0)]
        exact Or.inr ⟨by simp [Block.bytes?, hcell], _, rfl⟩
      · rw [if_neg h0] at hcell
        rw [require_of h0]
        simp only [ok_bind]
        rcases ih (start + 1) (by omega) with ⟨bytes, hbytes, hslice, hok⟩ | ⟨hnone, t, herr⟩
        · left
          refine ⟨a.bytes[start] :: bytes, by simp [Block.bytes?, hcell, hbytes], ?_, hok⟩
          rw [hslice, slice, slice, List.drop_eq_getElem_cons hb, List.take_succ_cons]
        · exact Or.inr ⟨by simp [Block.bytes?, hcell, hnone], t, herr⟩

variable {start : Nat}

variable {bytes : List UInt8}

/-- A range that was read is initialized throughout. -/
theorem bytes?_getElem {start n : Nat} (h : b.bytes? start n = some bytes) {j : Nat} (hj : j < n) :
    ∃ content, b.cells (start + j) = some content ∧ bytes[j]? = some content.byte := by
  induction n generalizing start bytes j with
  | zero => omega
  | succ n ih =>
      simp only [Block.bytes?] at h
      split at h
      · rename_i content rest hc hrest
        cases h
        cases j with
        | zero => exact ⟨content, hc, rfl⟩
        | succ j =>
            obtain ⟨c, hc', hb⟩ := ih hrest (show j < n by omega)
            refine ⟨c, ?_, by simpa using hb⟩
            rw [show start + (j + 1) = start + 1 + j by omega]
            exact hc'
      · cases h

theorem bytes?_length {start n : Nat} (h : b.bytes? start n = some bytes) : bytes.length = n := by
  induction n generalizing start bytes with
  | zero =>
      cases h
      rfl
  | succ n ih =>
      simp only [Block.bytes?] at h
      split at h
      · rename_i content rest hc hrest
        cases h
        rw [List.length_cons, ih hrest]
      · cases h

/-- Eight bytes tagged as the bytes of one pointer spell its address. -/
theorem leValue_of_tags (hsound : b.Sound) (h : b.bytes? start 8 = some bytes) {p : StoredPointer}
    (htags : ∀ i < 8, b.tag (start + i) = some ⟨p, i⟩) : UInt64.ofNat (leValue bytes) = p.bits := by
  have hbytes : bytes = leBytes 8 p.bits.toNat := by
    apply List.ext_getElem?
    intro i
    by_cases hi : i < 8
    · obtain ⟨content, hc, hb⟩ := bytes?_getElem h hi
      have htag := htags i hi
      rw [Block.tag, hc, Option.bind_some] at htag
      rw [hb, getElem?_leBytes _ hi, (hsound _ content _ hc htag).2]
    · rw [List.getElem?_eq_none (by rw [bytes?_length h]; omega),
        List.getElem?_eq_none (by rw [length_leBytes]; omega)]
  have hlt := p.bits.toNat_lt
  rw [hbytes, leValue_leBytes, Nat.mod_eq_of_lt (by omega), UInt64.ofNat_toNat]

/-- The pointer the memory completes is the pointer the cells hold. -/
theorem completePointer_eq (h : Body a b) (hrange : start + 8 ≤ b.size)
    (hbytes : b.bytes? start 8 = some bytes) :
    Memory.completePointer a.fragments start (UInt64.ofNat (leValue bytes)) =
      b.pointerAt start := by
  have hget : ∀ i < 8, a.fragments.get (start + i) = b.tag (start + i) := fun i hi =>
    h.get_eq_tag (by omega)
  have hall : ∀ p : StoredPointer,
      (((List.range 8).all fun i => a.fragments.get (start + i) = some ⟨p, i⟩) = true ↔
        ∀ i < 8, b.tag (start + i) = some ⟨p, i⟩) := by
    intro p
    rw [List.all_eq_true]
    constructor
    · intro hh i hi
      have := hh i (List.mem_range.mpr hi)
      rwa [hget i hi, decide_eq_true_eq] at this
    · intro hh i hi
      have hi' := List.mem_range.mp hi
      rw [hget i hi', decide_eq_true_eq]
      exact hh i hi'
  have htag : ∀ p : StoredPointer,
      (((List.range 8).all fun i => b.tag (start + i) = some ⟨p, i⟩) = true ↔
        ∀ i < 8, b.tag (start + i) = some ⟨p, i⟩) := by
    intro p
    simp [List.all_eq_true]
  have h0 := hget 0 (by omega)
  rw [Nat.add_zero] at h0
  unfold Memory.completePointer Block.pointerAt
  rw [h0]
  cases hf : b.tag start with
  | none => rfl
  | some f =>
      dsimp only
      -- All eight bytes carry the tag of one pointer, or the word is a plain number.
      by_cases hp : ∀ i < 8, b.tag (start + i) = some ⟨f.pointer, i⟩
      · rw [if_pos ((htag _).mpr hp), if_pos]
        refine ⟨?_, (leValue_of_tags h.sound hbytes hp).symm, (hall _).mpr hp⟩
        have := hp 0 (by omega)
        rw [Nat.add_zero, hf, Option.some.injEq] at this
        rw [this]
      · rw [if_neg (fun hh => hp ((htag _).mp hh)), if_neg]
        rintro ⟨-, -, hh⟩
        exact hp ((hall _).mp hh)

/-- Bits always make a scalar of a scalar type other than `bool`. -/
theorem pack_of_scalarType (h : scalarType ty = true) (hbool : ty ≠ .bool) (n : Nat) :
    ∃ v, Scalar.pack ty n = some v := by
  cases ty <;> first
    | (cases h; done)
    | exact absurd rfl hbool
    | exact ⟨_, rfl⟩

/-- A typed read of the memory is the typed read of the cells. -/
theorem loadScalar_spec {m : Memory} {id : Nat} (ha : m.allocations[id]? = some a) (h : Body a b)
    (hty : plainType ty) (start : Nat) (hrange : start + sizeOfTy ty ≤ b.size)
    (signature : Option FunctionSignature) :
    (∃ v, b.scalarAt start ty signature = some v ∧
        m.loadScalar id start ty signature = .ok v) ∨
      (b.scalarAt start ty signature = none ∧
        ∃ t, m.loadScalar id start ty signature = .error (.trap t)) := by
  obtain ⟨layout, hlayout, h16⟩ := plainType_layout hty
  have hsize := sizeOfTy_of_layout hlayout
  have hb : start + layout.size ≤ a.bytes.length := by rw [h.bytes, hsize]; exact hrange
  unfold Memory.loadScalar Block.scalarAt
  simp only [Memory.allocation, ha, orThrow_some, ok_bind, hlayout]
  rw [← hsize]
  rcases checkInitialized_spec h layout.size start (by rw [hsize]; exact hrange) with
    ⟨bytes, hbytes, hslice, hok⟩ | ⟨hnone, t, herr⟩
  swap
  · rw [hnone, herr]
    exact Or.inr ⟨rfl, t, rfl⟩
  have hlen := bytes?_length hbytes
  rw [hbytes, hok, require_of hb, ← hslice]
  simp only [ok_bind, Option.bind_eq_bind, Option.bind_some]
  -- A number, a pointer or a function pointer; of the numbers only `bool` can be refused.
  rcases hty with hty | ⟨t, rfl⟩ | ⟨s, rfl⟩
  · by_cases hbool : ty = .bool
    · subst hbool
      cases hlayout
      obtain ⟨byte, rfl⟩ := List.length_eq_one_iff.mp hlen
      have hv : leValue [byte] = byte.toNat := by simp [leValue]
      simp only [Memory.decode, List.getElem?_cons_zero, orThrow_some, ok_bind, hv]
      have hzero : byte.toNat = 0 ↔ byte = 0 := by
        rw [← UInt8.toNat_inj]
        rfl
      have hone : byte.toNat = 1 ↔ byte = 1 := by
        rw [← UInt8.toNat_inj]
        rfl
      simp only [hzero, hone]
      by_cases h0 : byte = 0
      · rw [if_pos h0, if_pos h0]
        exact Or.inl ⟨_, rfl, rfl⟩
      · rw [if_neg h0, if_neg h0]
        by_cases h1 : byte = 1
        · rw [if_pos h1, if_pos h1]
          exact Or.inl ⟨_, rfl, rfl⟩
        · rw [if_neg h1, if_neg h1]
          exact Or.inr ⟨rfl, _, rfl⟩
    · obtain ⟨v, hv⟩ := pack_of_scalarType hty hbool (leValue bytes)
      left
      refine ⟨.scalar v, ?_, ?_⟩
      · cases ty <;> first
          | (cases hty; done)
          | exact absurd rfl hbool
          | simp only [hv, Option.map_some]
      · have hreq : bytes.length ≤ 16 := by omega
        cases ty <;> first
          | (cases hty; done)
          | exact absurd rfl hbool
          | simp only [Memory.decode, require_of hreq, ok_bind, hv, orThrow_some, pure_eq_ok]
  · have hlen8 : bytes.length = 8 := by rw [hlen, hsize]; rfl
    rw [hsize] at hbytes
    left
    refine ⟨_, rfl, ?_⟩
    simp only [Memory.decode, require_of hlen8, ok_bind, pure_eq_ok]
    rw [completePointer_eq h hrange hbytes]
  · have hlen8 : bytes.length = 8 := by rw [hlen, hsize]; rfl
    rw [hsize] at hbytes
    left
    refine ⟨_, rfl, ?_⟩
    simp only [Memory.decode, require_of hlen8, ok_bind, pure_eq_ok]
    rw [completePointer_eq h hrange hbytes]

/-- A value read from a type without parts is a scalar, unless the type is a pointer type. -/
theorem scalarAt_scalar {t : Ty} {v : Value} (ht : scalarType t = true)
    (h : b.scalarAt start t none = some v) :
    ∃ c, v = .scalar c ∧ (t = .bool → ∃ flag, c = .bool flag) := by
  unfold Block.scalarAt at h
  cases hbytes : b.bytes? start (sizeOfTy t) with
  | none =>
      rw [hbytes] at h
      cases h
  | some bytes =>
      rw [hbytes, Option.bind_eq_bind, Option.bind_some] at h
      split at h
      · split at h
        · cases h
          exact ⟨_, rfl, fun _ => ⟨_, rfl⟩⟩
        · split at h
          · cases h
            exact ⟨_, rfl, fun _ => ⟨_, rfl⟩⟩
          · cases h
      · cases ht
      · cases ht
      · rename_i hne _ _
        obtain ⟨c, -, rfl⟩ := Option.map_eq_some_iff.mp h
        exact ⟨c, rfl, fun hbool => absurd hbool hne⟩

/-- The part of a load behind the access is the typed read of the cells. -/
theorem loadValue_spec (m : Memory) {id : Nat} (ha : m.allocations[id]? = some a) (h : Body a b)
    (hty : valueType ty = true) (hlayout : checkedLayout ty = .ok layout)
    (hrange : start + sizeOfTy ty ≤ b.size) (signature : Option FunctionSignature) :
    (∃ v, b.valueAt start ty signature = some v ∧
        m.loadValue id start ty layout signature = .ok v) ∨
      (b.valueAt start ty signature = none ∧
        ∃ t, m.loadValue id start ty layout signature = .error (.trap t)) := by
  rcases valueType_cases hty with hplain | ⟨t, rfl, ht⟩
  · have hne := not_tuple_of_plainType hplain
    have hval : b.valueAt start ty signature = b.scalarAt start ty signature := by
      cases ty <;> first | rfl | exact absurd rfl (hne _)
    have hload : m.loadValue id start ty layout signature =
        m.loadScalar id start ty signature := by
      cases ty <;> first | rfl | exact absurd rfl (hne _)
    rw [hval, hload]
    exact loadScalar_spec ha h hplain start hrange signature
  · -- A checked pair is its value and, behind it, its flag.
    obtain ⟨layout', hlayout', hoffsets, hflag⟩ := checkedType_layout ht
    rw [hlayout'] at hlayout
    cases hlayout
    have hsize := sizeOfTy_of_layout hlayout'
    have hscalar : scalarType t = true := by simp [scalarType, ht]
    simp only [Memory.loadValue, Block.valueAt, checkedFields_eq hoffsets, ok_bind, Nat.add_zero]
    rcases loadScalar_spec ha h (plainType_of_shape ht) start (by omega) none with
      ⟨v, hv, hload⟩ | ⟨hnone, tr, herr⟩
    · obtain ⟨c, rfl, -⟩ := scalarAt_scalar hscalar hv
      rw [hv, hload]
      simp only [ok_bind]
      rcases loadScalar_spec ha h plainType_bool (start + sizeOfTy t)
        (by have : sizeOfTy .bool = 1 := rfl; omega) none with
        ⟨v', hv', hload'⟩ | ⟨hnone, tr, herr⟩
      · obtain ⟨c', rfl, hc'⟩ := scalarAt_scalar rfl hv'
        obtain ⟨flag, rfl⟩ := hc' rfl
        rw [hv', hload']
        exact Or.inl ⟨_, rfl, rfl⟩
      · rw [hnone, herr]
        exact Or.inr ⟨rfl, tr, rfl⟩
    · rw [hnone, herr]
      exact Or.inr ⟨rfl, tr, rfl⟩

theorem valueType_layout (h : valueType ty = true) : ∃ layout, checkedLayout ty = .ok layout := by
  rcases valueType_cases h with hplain | ⟨t, rfl, ht⟩
  · obtain ⟨layout, hl, -⟩ := plainType_layout hplain
    exact ⟨layout, hl⟩
  · obtain ⟨layout, hl, -⟩ := checkedType_layout ht
    exact ⟨layout, hl⟩

theorem load_refines {m : Memory} {σ : CellStore} (h : Rel m σ) (p : Pointer)
    (hty : valueType ty = true) {align : Nat} (halign : 0 < align)
    (signature : Option FunctionSignature) :
    Outcome σ (.load p ty align signature) ((MemoryOp.load p ty align signature).run m) := by
  obtain ⟨layout, hlayout⟩ := valueType_layout hty
  have hsize := sizeOfTy_of_layout hlayout
  simp only [MemoryOp.run, Memory.loadWithSignature]
  rw [bind_run, bind_run, look_run, hlayout]
  dsimp only
  rw [hsize]
  rcases access_spec h p (sizeOfTy ty) halign false with ⟨cap, b, hgrant, hacc⟩ | ⟨hgrant, t, hacc⟩
  swap
  · rw [bind_run, look_run, hacc]
    exact ⟨by simp only [CellStore.step, hgrant], h⟩
  have hg := CellStore.grant_eq_some.mp hgrant
  obtain ⟨a, ha, hrel⟩ := h.allocation hg.block
  rw [bind_run, look_run, hacc]
  dsimp only
  rcases charge_run m (cap.offset + sizeOfTy ty - cap.offset) with ⟨w, hw⟩ | ⟨l, hl⟩
  · rw [bind_run_ok hw, look_run]
    rcases loadValue_spec { m with work := w } ha (hrel.body hg.live) hty hlayout
      (le_trans hg.range hg.upper) signature with ⟨v, hv, hload⟩ | ⟨hnone, t, herr⟩
    · rw [hload]
      exact ⟨σ, by simp only [CellStore.step, hgrant, hv]; rfl, h.charged w⟩
    · rw [herr]
      exact ⟨by simp only [CellStore.step, hgrant, hnone]; rfl, h.charged w⟩
  · rw [bind_run_error hl]
    exact h

/-! ## Stores -/

theorem get_enumerate (start k : Nat) (bs : List UInt8) :
    AssocMap.get k (Memory.enumerate start bs) = if start ≤ k then bs[k - start]? else none := by
  induction bs generalizing start with
  | nil => simp [Memory.enumerate]
  | cons b bs ih =>
      rw [Memory.enumerate, AssocMap.get_cons, ih]
      by_cases hk : start = k
      · subst hk
        simp
      · rw [if_neg hk]
        by_cases hle : start + 1 ≤ k
        · rw [if_pos hle, if_pos (by omega), show k - start = (k - (start + 1)) + 1 by omega,
            List.getElem?_cons_succ]
        · rw [if_neg hle, if_neg (by omega)]

/-- Writing single bytes: the written positions hold the new bytes and are initialized. -/
theorem writeBytes_spec (es : List (Nat × UInt8)) (a : Allocation)
    (hb : ∀ e ∈ es, e.1 < a.bytes.length) (hlen : a.initialized.length = a.bytes.length)
    (hu : AssocMap.UniqueKeys es) :
    (a.writeBytes es).bytes.length = a.bytes.length ∧
      (a.writeBytes es).initialized.length = a.initialized.length ∧
      SameHeader a (a.writeBytes es) ∧ (a.writeBytes es).fragments = a.fragments ∧
      ∀ i, (a.writeBytes es).bytes[i]? = (AssocMap.get i es).or a.bytes[i]? ∧
        (a.writeBytes es).initialized[i]? =
          ((AssocMap.get i es).map fun _ => 1).or a.initialized[i]? := by
  induction es generalizing a with
  | nil =>
      refine ⟨rfl, rfl, ⟨rfl, rfl, rfl, rfl, rfl, rfl⟩, rfl, fun i => ⟨?_, ?_⟩⟩ <;>
        simp [Allocation.writeBytes]
  | cons e es ih =>
      obtain ⟨hne, hu⟩ := List.nodup_cons.mp (show (e.1 :: es.map Prod.fst).Nodup from hu)
      have he := hb e (by simp)
      obtain ⟨h₁, h₂, h₃, h₄, h₅⟩ := ih
        { a with bytes := a.bytes.set e.1 e.2, initialized := a.initialized.set e.1 1 }
        (by
          intro e' he'
          simp only [List.length_set]
          exact hb e' (by simp [he']))
        (by simpa using hlen) hu
      refine ⟨h₁.trans (List.length_set ..), h₂.trans (List.length_set ..),
        ⟨h₃.kind, h₃.address, h₃.generation, h₃.alive, h₃.read, h₃.write⟩, h₄, fun i => ?_⟩
      obtain ⟨hbi, hii⟩ := h₅ i
      rw [AssocMap.get_cons]
      by_cases hi : e.1 = i
      · subst hi
        rw [AssocMap.get_eq_none_iff.mpr hne] at hbi hii
        rw [if_pos rfl]
        refine ⟨hbi.trans ?_, hii.trans ?_⟩
        · rw [Option.none_or, Option.some_or, List.getElem?_set_self he]
        · rw [Option.map_none, Option.none_or, Option.map_some, Option.some_or,
            List.getElem?_set_self (by rw [hlen]; exact he)]
      · rw [if_neg hi]
        refine ⟨hbi.trans ?_, hii.trans ?_⟩
        · rw [List.getElem?_set_ne hi]
        · rw [List.getElem?_set_ne hi]

/-- What a store must provide for the cells `f` of a range: the bytes of the cells, their
fragments, and neither for the cells it only cuts the tags of. -/
structure Encodes (start n : Nat) (old : Nat → Cell) (f : Nat → Cell)
    (bytes : List (Nat × UInt8)) (fragments : List (Nat × Fragment)) : Prop where
  unique : AssocMap.UniqueKeys bytes
  range : ∀ e ∈ bytes, start ≤ e.1 ∧ e.1 < start + n
  tags : RangeFragments start (start + n) fragments
  cell : ∀ j < n, f j = match AssocMap.get (start + j) bytes with
    | some byte => some ⟨byte, AssocMap.get (start + j) fragments⟩
    | none => untag (old j)
  tag : ∀ j < n, AssocMap.get (start + j) bytes = none →
    AssocMap.get (start + j) fragments = none
  sound : ∀ j < n, ∀ content g, f j = some content → content.tag = some g →
    g.byte < 8 ∧ content.byte = UInt8.ofNat (g.pointer.bits.toNat / 256 ^ g.byte)

theorem Body.stored (h : Body a b) {start n : Nat} (hrange : start + n ≤ b.size) {f : Nat → Cell}
    {bytes : List (Nat × UInt8)} {fragments : List (Nat × Fragment)}
    (he : Encodes start n (fun j => b.cells (start + j)) f bytes fragments) :
    SameHeader a ((a.replaced start (start + n) fragments).writeBytes bytes) ∧
      ((a.replaced start (start + n) fragments).writeBytes bytes).fragments =
        (a.replaced start (start + n) fragments).fragments ∧
      Body ((a.replaced start (start + n) fragments).writeBytes bytes) (b.write start n f) := by
  have hb : ∀ e ∈ bytes, e.1 < a.bytes.length := by
    intro e hmem
    have := he.range e hmem
    rw [h.bytes]
    omega
  obtain ⟨hlen₁, hlen₂, hsame, hfrag, hget⟩ := writeBytes_spec bytes
    (a.replaced start (start + n) fragments) hb (h.initialized.trans h.bytes.symm) he.unique
  refine ⟨⟨hsame.kind, hsame.address, hsame.generation, hsame.alive, hsame.read, hsame.write⟩,
    hfrag, h.write hrange hlen₁ hlen₂ ?_ ?_ he.sound⟩
  · intro i hi
    have hnone : AssocMap.get i bytes = none := by
      rw [AssocMap.get_eq_none_iff]
      intro hmem
      obtain ⟨e, hin, rfl⟩ := List.mem_map.mp hmem
      have := he.range e hin
      omega
    obtain ⟨hb', hi'⟩ := hget i
    rw [hnone] at hb' hi'
    refine ⟨hb', hi', ?_⟩
    rw [hfrag, get_replaced he.tags, if_neg (by omega)]
  · intro j hj
    have hf : ((a.replaced start (start + n) fragments).writeBytes bytes).fragments.get
        (start + j) = AssocMap.get (start + j) fragments := by
      rw [hfrag, get_replaced he.tags, if_pos (by omega)]
    obtain ⟨hb', hi'⟩ := hget (start + j)
    rw [he.cell j hj, hf]
    -- The byte is written, or it is padding in the range and only loses its tag.
    cases hbyte : AssocMap.get (start + j) bytes with
    | some byte =>
        rw [hbyte] at hb' hi'
        rw [Allocation.cell_eq hi' hb', hf]
        simp
    | none =>
        rw [hbyte] at hb' hi'
        have htag := he.tag j hj hbyte
        rw [htag]
        constructor
        · rw [h.cells (start + j) (by omega)]
          simp only [Allocation.cell, hf, htag, untag]
          rw [hb', hi']
          have hinitialized : (a.replaced start (start + n) fragments).initialized =
            a.initialized := rfl
          have hbytes : (a.replaced start (start + n) fragments).bytes = a.bytes := rfl
          simp only [Option.map_none, Option.none_or, hinitialized, hbytes]
          cases a.initialized[start + j]? with
          | none => rfl
          | some flag =>
              cases a.bytes[start + j]? with
              | none => rfl
              | some byte =>
                  dsimp only
                  split <;> rfl
        · simp only [untag]
          cases b.cells (start + j) <;> rfl

/-! ### What is stored -/

theorem keys_enumerate (start : Nat) (bs : List UInt8) :
    (Memory.enumerate start bs).map Prod.fst = List.range' start bs.length := by
  induction bs generalizing start with
  | nil => rfl
  | cons b bs ih => rw [Memory.enumerate, List.map_cons, ih, List.length_cons, List.range'_succ]

theorem enumerate_append (start : Nat) (as bs : List UInt8) :
    Memory.enumerate start (as ++ bs) =
      Memory.enumerate start as ++ Memory.enumerate (start + as.length) bs := by
  induction as generalizing start with
  | nil => rfl
  | cons a as ih =>
      rw [List.cons_append, Memory.enumerate, ih, Memory.enumerate, List.cons_append,
        List.length_cons, Nat.add_assoc, Nat.add_comm 1]

theorem unique_enumerate (start : Nat) (bs : List UInt8) :
    AssocMap.UniqueKeys (Memory.enumerate start bs) := by
  unfold AssocMap.UniqueKeys
  rw [keys_enumerate]
  exact List.nodup_range'

theorem range_enumerate {start n : Nat} {bs : List UInt8} (h : bs.length ≤ n) :
    ∀ e ∈ Memory.enumerate start bs, start ≤ e.1 ∧ e.1 < start + n := by
  intro e he
  have hkey : e.1 ∈ (Memory.enumerate start bs).map Prod.fst := List.mem_map.mpr ⟨e, he, rfl⟩
  rw [keys_enumerate, List.mem_range'_1] at hkey
  omega

/-- Plain bytes from the start of the range on, and a gap behind them. -/
theorem encodes_bytes {start n : Nat} {old f : Nat → Cell} {bs : List UInt8}
    (hlen : bs.length ≤ n)
    (hcell : ∀ j < n, f j = match bs[j]? with
      | some byte => some ⟨byte, none⟩
      | none => untag (old j)) :
    Encodes start n old f (Memory.enumerate start bs) [] where
  unique := unique_enumerate start bs
  range := range_enumerate hlen
  tags := rangeFragments_nil start (start + n)
  cell := by
    intro j hj
    rw [get_enumerate, if_pos (by omega), Nat.add_sub_cancel_left, hcell j hj]
    rfl
  tag := fun _ _ _ => rfl
  sound := by
    intro j hj content g hc hg
    rw [hcell j hj] at hc
    split at hc
    · cases hc
      cases hg
    · unfold untag at hc
      obtain ⟨c, -, rfl⟩ := Option.map_eq_some_iff.mp hc
      cases hg

theorem keys_fragmentsOf (p : StoredPointer) (start : Nat) :
    (Memory.fragmentsOf (some p) start).map Prod.fst = List.range' start 8 := rfl

theorem unique_fragmentsOf (p : StoredPointer) (start : Nat) :
    AssocMap.UniqueKeys (Memory.fragmentsOf (some p) start) := by
  unfold AssocMap.UniqueKeys
  rw [keys_fragmentsOf]
  exact List.nodup_range'

theorem get_fragmentsOf (p : StoredPointer) (start : Nat) {j : Nat} (hj : j < 8) :
    AssocMap.get (start + j) (Memory.fragmentsOf (some p) start) = some ⟨p, j⟩ := by
  refine AssocMap.get_of_mem (unique_fragmentsOf p start) ?_
  exact List.mem_map.mpr ⟨j, List.mem_range.mpr hj, rfl⟩

/-- A pointer is stored as its eight bytes, each with its fragment. -/
theorem encodes_pointer (p : StoredPointer) (start : Nat) (old : Nat → Cell) :
    Encodes start 8 old (pointerCells p) (Memory.enumerate start (leBytes 8 p.bits.toNat))
      (Memory.fragmentsOf (some p) start) where
  unique := unique_enumerate start _
  range := range_enumerate (by rw [length_leBytes])
  tags :=
    { unique := unique_fragmentsOf p start
      range := by
        intro e he
        have hkey : e.1 ∈ (Memory.fragmentsOf (some p) start).map Prod.fst :=
          List.mem_map.mpr ⟨e, he, rfl⟩
        rw [keys_fragmentsOf, List.mem_range'_1] at hkey
        exact hkey }
  cell := by
    intro j hj
    rw [get_enumerate, if_pos (by omega), Nat.add_sub_cancel_left, getElem?_leBytes _ hj,
      get_fragmentsOf p start hj]
    rfl
  tag := by
    intro j hj hnone
    rw [get_enumerate, if_pos (by omega), Nat.add_sub_cancel_left, getElem?_leBytes _ hj] at hnone
    cases hnone
  sound := by
    intro j hj content g hc hg
    cases hc
    cases hg
    exact ⟨hj, rfl⟩

theorem encode_eq (h : plainType ty) {value : Value} {bits : Nat} {pointer : Option StoredPointer}
    (hbits : Memory.storedBits ty value = .ok (bits, pointer)) (start : Nat) :
    Memory.encode ty value start =
      .ok (Memory.enumerate start (leBytes (sizeOfTy ty) bits),
        Memory.fragmentsOf pointer start) := by
  obtain ⟨layout, hlayout, h16⟩ := plainType_layout h
  rw [sizeOfTy_of_layout hlayout] at h16
  unfold Memory.encode
  rw [hlayout, hbits]
  simp only [ok_bind, sizeOfTy_of_layout hlayout, require_of h16, pure_eq_ok]

theorem raw_scalar (ty : Ty) (v : ConstValue) : ∃ bits, Scalar.raw ty v = some bits := by
  cases v <;> exact ⟨_, rfl⟩

theorem encodes_number {n : Nat} (bits start : Nat) (old : Nat → Cell) :
    Encodes start n old (numberCells bits) (Memory.enumerate start (leBytes n bits)) [] := by
  refine encodes_bytes (by rw [length_leBytes]) ?_
  intro j hj
  rw [getElem?_leBytes _ hj]
  rfl

theorem encodes_checked {n k : Nat} (hk : k + 1 ≤ n) (bits start : Nat) (flag : Bool)
    (old f : Nat → Cell)
    (hf : ∀ j, f j = if j < k then numberCells bits j
      else if j = k then numberCells flag.toNat 0 else untag (old j)) :
    Encodes start n old f
      (Memory.enumerate start (leBytes k bits) ++
        Memory.enumerate (start + k) (leBytes 1 flag.toNat)) [] := by
  have happend := enumerate_append start (leBytes k bits) (leBytes 1 flag.toNat)
  rw [length_leBytes] at happend
  rw [← happend]
  refine encodes_bytes (by rw [List.length_append, length_leBytes, length_leBytes]; exact hk) ?_
  intro j hj
  rw [hf j]
  by_cases h₁ : j < k
  · rw [if_pos h₁, List.getElem?_append_left (by rw [length_leBytes]; exact h₁),
      getElem?_leBytes _ h₁]
    rfl
  · rw [if_neg h₁, List.getElem?_append_right (by rw [length_leBytes]; omega), length_leBytes]
    by_cases h₂ : j = k
    · subst h₂
      rw [if_pos rfl, Nat.sub_self, getElem?_leBytes _ (by omega)]
      rfl
    · rw [if_neg h₂, List.getElem?_eq_none (by rw [length_leBytes]; omega)]

/-- A store writes the cells of its value. -/
theorem encodeValue_spec {σ : CellStore} {p : Pointer} {value : Value} {align : Nat}
    (hvalid : (MemoryOp.store p ty value align).Valid σ) (hlayout : checkedLayout ty = .ok layout)
    (start : Nat) (old : Nat → Cell) :
    ∃ bytes fragments, Memory.encodeValue ty layout value start = .ok (bytes, fragments) ∧
      Encodes start (sizeOfTy ty) old (storedCell ty value old) bytes fragments := by
  obtain ⟨hty, -, hvalue⟩ := hvalid
  rcases valueType_cases hty with hplain | ⟨t, rfl, ht⟩
  · have hne := not_tuple_of_plainType hplain
    have henc : Memory.encodeValue ty layout value start = Memory.encode ty value start := by
      cases ty <;> first | rfl | exact absurd rfl (hne _)
    rw [henc]
    cases value with
    | pointer q =>
        cases ty <;> first | exact hvalue.elim | skip
        exact ⟨_, _, encode_eq hplain rfl start, encodes_pointer (.data q) start old⟩
    | functionPointer q =>
        cases ty <;> first | exact hvalue.elim | skip
        exact ⟨_, _, encode_eq hplain rfl start, encodes_pointer (.function q) start old⟩
    | scalar v =>
        obtain ⟨bits, hraw⟩ := raw_scalar ty v
        have hbits : Memory.storedBits ty (.scalar v) = .ok (bits, none) := by
          simp only [Memory.storedBits, hraw, orThrow_some, ok_bind, pure_eq_ok]
        have hcells : storedCell ty (.scalar v) old = numberCells bits := by
          funext j
          cases ty <;> first
            | exact absurd rfl (hne _)
            | simp only [storedCell, hraw, Option.getD_some]
        rw [hcells]
        exact ⟨_, _, encode_eq hplain hbits start, encodes_number bits start old⟩
    | checked v flag =>
        cases ty <;> first | exact hvalue.elim | exact absurd rfl (hne _)
  · -- A checked pair is encoded as its value and, behind it, its flag.
    obtain ⟨layout', hlayout', hoffsets, hflag⟩ := checkedType_layout ht
    rw [hlayout'] at hlayout
    cases hlayout
    rw [sizeOfTy_of_layout hlayout'] at hflag
    cases value with
    | pointer q => exact hvalue.elim
    | functionPointer q => exact hvalue.elim
    | scalar v => cases hvalue
    | checked v flag =>
        obtain ⟨bits, hraw⟩ := raw_scalar t v
        have hbits : Memory.storedBits t (.scalar v) = .ok (bits, none) := by
          simp only [Memory.storedBits, hraw, orThrow_some, ok_bind, pure_eq_ok]
        have hflagbits : Memory.storedBits .bool (.scalar (.bool flag)) =
            .ok (flag.toNat, none) := by cases flag <;> rfl
        refine ⟨_, _, ?_, encodes_checked hflag bits start flag old _ ?_⟩
        · simp only [Memory.encodeValue, checkedFields_eq hoffsets, ok_bind,
            encode_eq (plainType_of_shape ht) hbits, encode_eq plainType_bool hflagbits,
            Nat.add_zero, pure_eq_ok, Memory.fragmentsOf, List.append_nil]
          rfl
        · intro j
          simp only [storedCell, hraw, Option.getD_some]

/-- A change of a block may look at the block it changes. -/
theorem CellStore.update_congr (σ : CellStore) {id : Nat} (hb : σ.blocks[id]? = some b)
    (f : Block → Block) {g : Block → Block} (h : f b = g b) : σ.update id f = σ.update id g := by
  unfold CellStore.update
  congr 1
  apply List.ext_getElem?
  intro i
  rw [List.getElem?_modify, List.getElem?_modify]
  by_cases hi : id = i
  · subst hi
    simp only [if_true, hb, Option.map_eq_map, Option.map_some, h]
  · simp only [hi, if_false]

theorem store_refines {m : Memory} {σ : CellStore} (h : Rel m σ) (p : Pointer) {value : Value}
    {align : Nat} (hvalid : (MemoryOp.store p ty value align).Valid σ) :
    Outcome σ (.store p ty value align) ((MemoryOp.store p ty value align).run m) := by
  obtain ⟨layout, hlayout⟩ := valueType_layout hvalid.1
  have hsize := sizeOfTy_of_layout hlayout
  simp only [MemoryOp.run, Memory.store]
  rw [bind_run, bind_run, look_run, hlayout]
  dsimp only
  rw [hsize]
  rcases access_spec h p (sizeOfTy ty) hvalid.2.1 true with
    ⟨cap, b, hgrant, hacc⟩ | ⟨hgrant, t, hacc⟩
  swap
  · rw [bind_run, look_run, hacc]
    exact ⟨by simp only [CellStore.step, hgrant], h⟩
  have hg := CellStore.grant_eq_some.mp hgrant
  obtain ⟨a, ha, hrel⟩ := h.allocation hg.block
  have hbody := hrel.body hg.live
  have hrange : cap.offset + sizeOfTy ty ≤ b.size := le_trans hg.range hg.upper
  obtain ⟨bytes, fragments, hencode, hspec⟩ :=
    encodeValue_spec hvalid hlayout cap.offset fun j => b.cells (cap.offset + j)
  obtain ⟨hsame, hfrag, hstored⟩ := hbody.stored hrange hspec
  rw [bind_run, look_run, hacc]
  dsimp only
  rw [bind_run, look_run, hencode]
  dsimp only
  -- The range is charged first, so a limit leaves the bytes as they were.
  rcases writeRange_run h ha hg.block hrel (cap.offset + sizeOfTy ty - cap.offset) hspec.tags
    (·.writeBytes bytes)
    (do
      let allocation ← Memory.look (Memory.allocation · cap.allocation)
      require (∀ e ∈ bytes, e.1 < allocation.bytes.length) Fault.panic
      modify (·.update cap.allocation (·.writeBytes bytes)))
    (by
      intro m' hm'
      have hlook : Memory.look (Memory.allocation · cap.allocation) m' =
          .ok (a.replaced cap.offset (cap.offset + sizeOfTy ty) fragments) m' := by
        simp only [look_run, Memory.allocation, hm', orThrow_some]
      have hreq : ∀ e ∈ bytes, e.1 < a.bytes.length := by
        intro e he
        have := hspec.range e he
        rw [hbody.bytes]
        omega
      rw [bind_run_ok hlook, bind_run, require_run]
      rw [if_pos (show ∀ e ∈ bytes, e.1 < (a.replaced _ _ fragments).bytes.length from hreq)]
      rfl)
    hsame hfrag hstored with ⟨m', hrun, hrel'⟩ | ⟨r, l, m', hrun, hrel'⟩
  · rw [hrun]
    refine ⟨_, ?_, hrel'⟩
    simp only [CellStore.step, hgrant]
    have hsame : σ.update cap.allocation (fun b => b.write cap.offset (sizeOfTy ty)
        (storedCell ty value fun j => b.cells (cap.offset + j))) =
        σ.update cap.allocation fun c => c.write cap.offset (sizeOfTy ty)
          (storedCell ty value fun j => b.cells (cap.offset + j)) :=
      σ.update_congr hg.block _ rfl
    rw [hsame]
  · rw [hrun]
    exact hrel'

end Whale
