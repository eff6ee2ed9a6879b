import Whale.Verifier.Error
import Whale.Verifier.Operands

set_option autoImplicit false

/-! # Element addressing

The check on the operands of a GEP: the indices select a part of the pointee, and the result is a
pointer to that part. -/

namespace Whale

/-! ## Constants -/

/-- The constant an instruction defines. -/
def constEntry : Instruction → Option (ValueId × ConstValue)
  | .const dst _ value | .constDecl dst _ _ value => some (dst, value)
  | _ => none

/-- The constant of a value; the first definition wins. -/
def Function.constant (f : Function) (value : ValueId) : Option ConstValue :=
  AssocMap.get value (f.instructions.filterMap constEntry)

/-- The constant as a `usize`. -/
def ConstValue.ordinal : ConstValue → Option Nat
  | .i v => if 0 ≤ v.toInt ∧ v.toInt < wordBound then some v.toInt.toNat else none
  | .u v => if v.toNat < wordBound then some v.toNat else none
  | _ => none

/-- The number of the field that a constant index selects. -/
def Function.ordinal (f : Function) (value : ValueId) : Option Nat :=
  (f.constant value).bind ConstValue.ordinal

/-! ## The check -/

/-- The part of a value of the type that an index behind the first one selects. -/
def gepPart (f : Function) (invalid : String → VerifyError) (index : ValueId) :
    Ty → Except VerifyError Ty
  | .array element _ => .ok element
  | .struct fields | .tuple fields => do
      let ordinal ← orThrow (f.ordinal index)
        (invalid "field index must be a nonnegative integer constant")
      orThrow fields[ordinal]? (invalid "field index is outside the aggregate type")
  | _ => .error
      (invalid "further indices require an array, struct, or tuple; GEP does not load pointers")

/-- Check the index at its position. The first one selects another instance of the pointee. -/
def verifyGepIndex (f : Function) (dst : ValueId) (selected : Ty) (e : ValueId × Nat) :
    Except VerifyError Ty := do
  let invalid (reason : String) := VerifyError.invalidGep f.name dst (some e.2) reason
  let ty ← orThrow (f.valueType e.1) (VerifyError.missingValueType f.name e.1)
  require (ty.isInteger = true) (invalid "index must be an integer")
  if e.2 = 0 then return selected else gepPart f invalid e.1 selected

def verifyGep (f : Function) (dst : ValueId) (dstTy : Ty) (base : ValueId)
    (indices : List ValueId) : Except VerifyError Unit := do
  let baseTy ← orThrow (f.valueType base) (VerifyError.missingValueType f.name base)
  match baseTy with
  | .ptr pointee => do
      require (indices = [] ∨ pointee.isStorable = true)
        (VerifyError.invalidGep f.name dst none
          "element addressing requires a concrete stored type")
      let selected ← indices.zipIdx.foldlM (verifyGepIndex f dst) pointee
      require (dstTy = .ptr selected)
        (VerifyError.operandTypeMismatch f.name dst (.ptr selected) dstTy)
  | _ => throw (VerifyError.invalidGep f.name dst none "base must be a pointer")

/-! ## What it accepts -/

/-- The indices behind the first select the part of the type. -/
inductive Selects (ordinal : ValueId → Option Nat) : Ty → List ValueId → Ty → Prop
  | here (ty : Ty) : Selects ordinal ty [] ty
  | element {element part : Ty} {count : UInt64} {index : ValueId} {indices : List ValueId}
      (h : Selects ordinal element indices part) :
      Selects ordinal (.array element count) (index :: indices) part
  | field {fields : List Ty} {field part : Ty} {i : Nat} {index : ValueId}
      {indices : List ValueId} (hindex : ordinal index = some i) (hfield : fields[i]? = some field)
      (h : Selects ordinal field indices part) :
      Selects ordinal (.struct fields) (index :: indices) part
  | component {fields : List Ty} {field part : Ty} {i : Nat} {index : ValueId}
      {indices : List ValueId} (hindex : ordinal index = some i) (hfield : fields[i]? = some field)
      (h : Selects ordinal field indices part) :
      Selects ordinal (.tuple fields) (index :: indices) part

variable {f : Function} {dst : ValueId} {selected : Ty}

theorem verifyGepIndex_integer {selected selected' : Ty} {e : ValueId × Nat}
    (h : verifyGepIndex f dst selected e = .ok selected') :
    ∃ ty, f.valueType e.1 = some ty ∧ ty.isInteger = true := by
  obtain ⟨ty, hty, h₁⟩ := bind_ok_iff.mp h
  obtain ⟨hinteger, -⟩ := require_then_ok_iff.mp h₁
  exact ⟨ty, orThrow_ok_iff.mp hty, hinteger⟩

variable {indices : List ValueId}

theorem gepPart_selects {invalid : String → VerifyError} {index : ValueId} {selected next part : Ty}
    (h : gepPart f invalid index selected = .ok next) (hrest : Selects f.ordinal next indices part)
    :
    Selects f.ordinal selected (index :: indices) part := by
  cases selected with
  | array element count =>
      cases h
      exact .element hrest
  | struct fields =>
      obtain ⟨i, hi, hfield⟩ := bind_ok_iff.mp h
      exact .field (orThrow_ok_iff.mp hi) (orThrow_ok_iff.mp hfield) hrest
  | tuple fields =>
      obtain ⟨i, hi, hfield⟩ := bind_ok_iff.mp h
      exact .component (orThrow_ok_iff.mp hi) (orThrow_ok_iff.mp hfield) hrest
  | _ => cases h

theorem verifyGepIndices_selects {n : Nat} {selected part : Ty}
    (h : (indices.zipIdx (n + 1)).foldlM (verifyGepIndex f dst) selected = .ok part) :
    Selects f.ordinal selected indices part := by
  induction indices generalizing n selected with
  | nil =>
      cases h
      exact .here _
  | cons index indices ih =>
      obtain ⟨next, hfirst, hrest⟩ := foldlM_cons_ok.mp h
      obtain ⟨ty, -, h₁⟩ := bind_ok_iff.mp hfirst
      obtain ⟨-, h₂⟩ := require_then_ok_iff.mp h₁
      rw [if_neg (Nat.succ_ne_zero n)] at h₂
      exact gepPart_selects h₂ (ih hrest)

theorem verifyGepIndices_integer {es : List (ValueId × Nat)} {selected part : Ty}
    (h : es.foldlM (verifyGepIndex f dst) selected = .ok part) :
    ∀ e ∈ es, ∃ ty, f.valueType e.1 = some ty ∧ ty.isInteger = true := by
  induction es generalizing selected with
  | nil => exact fun _ he => absurd he List.not_mem_nil
  | cons e es ih =>
      obtain ⟨next, hfirst, hrest⟩ := foldlM_cons_ok.mp h
      exact List.forall_mem_cons.mpr ⟨verifyGepIndex_integer hfirst, ih hrest⟩

theorem verifyGep_ok {dst base : ValueId} {dstTy : Ty} {u : Unit}
    (h : verifyGep f dst dstTy base indices = .ok u) :
    ∃ pointee part, f.valueType base = some (.ptr pointee) ∧ dstTy = .ptr part ∧
      (∀ i ∈ indices, ∃ ty, f.valueType i = some ty ∧ ty.isInteger = true) ∧
      Selects f.ordinal pointee indices.tail part := by
  obtain ⟨baseTy, hbase, h₁⟩ := bind_ok_iff.mp h
  rw [orThrow_ok_iff] at hbase
  cases baseTy with
  | ptr pointee =>
      obtain ⟨-, h₂⟩ := require_then_ok_iff.mp h₁
      obtain ⟨part, hloop, h₃⟩ := bind_ok_iff.mp h₂
      refine ⟨pointee, part, hbase, require_ok_iff.mp h₃, fun i hi => ?_, ?_⟩
      · rw [← List.zipIdx_map_fst 0 indices] at hi
        obtain ⟨e, he, rfl⟩ := List.mem_map.mp hi
        exact verifyGepIndices_integer hloop e he
      · cases indices with
        | nil =>
            cases hloop
            exact .here pointee
        | cons index indices =>
            obtain ⟨next, hfirst, hrest⟩ := foldlM_cons_ok.mp hloop
            obtain ⟨ty, -, h₄⟩ := bind_ok_iff.mp hfirst
            obtain ⟨-, h₅⟩ := require_then_ok_iff.mp h₄
            cases h₅
            exact verifyGepIndices_selects hrest
  | _ => cases h₁

end Whale
