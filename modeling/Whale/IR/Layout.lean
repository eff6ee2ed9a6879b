import Whale.IR.Types
import Whale.Lib.Except

set_option autoImplicit false

/-! # Storage layout

Sizes, alignments, field offsets and element strides of types for an explicit storage
description. All sizes are checked 64-bit numbers; the depth of nested aggregates is
limited. -/

namespace Whale

/-- Recursive type helpers and text parsing use this ceiling. -/
def maxIrNesting : Nat := 256

/-- Natural type layout in bytes. Tail padding is included in `size`. -/
structure TypeLayout where
  size : Nat
  align : Nat
  /-- Field offsets in declaration order; empty for types without fields. -/
  fieldOffsets : List Nat
  /-- Distance between array elements. -/
  elementStride : Option Nat
  deriving DecidableEq

inductive LayoutError where
  | void
  | overflow
  | depthLimit
  | zeroSizedPointerArithmetic
  | invalidTarget
  deriving DecidableEq

/-- The storage part of a target. `scalarAlign` holds the alignments of the scalars of
1, 2, 4, 8 and 16 bytes. -/
structure StorageLayout where
  ptrBits : Nat
  scalarAlign : Nat → Nat
  pointerAlign : Nat
  largeArray : Option (Nat × Nat)

/-- The storage of the target `x86_64-whale-linux`. -/
def StorageLayout.x86_64WhaleLinux : StorageLayout where
  ptrBits := 64
  scalarAlign i := [1, 2, 4, 8, 16].getD i 0
  pointerAlign := 8
  largeArray := some (16, 16)

/-- What the storage description of a target must satisfy before a type is laid out. -/
def StorageLayout.validate (storage : StorageLayout) : Except String Unit := do
  require (storage.ptrBits = 32 ∨ storage.ptrBits = 64)
    "storage layout requires 32-bit or 64-bit pointers"
  require (((List.range 5).all fun i => isPowerOfTwo (storage.scalarAlign i)) ∧
      isPowerOfTwo storage.pointerAlign ∧ storage.largeArray.all fun e => isPowerOfTwo e.2)
    "storage alignment must be a nonzero power of two"
  -- Element stride must preserve its natural alignment.
  require (((List.range 5).all fun i => storage.scalarAlign i ≤ 2 ^ i) ∧
      storage.pointerAlign ≤ storage.ptrBits / 8)
    "scalar alignment cannot exceed scalar storage size"

/-- Round `size` up to a multiple of `align`. -/
def alignUp (size align : Nat) : Except LayoutError Nat :=
  let padding := (wordBound - size % wordBound) % wordBound &&& (align - 1)
  match checkedAdd size padding with
  | none => .error .overflow
  | some size => .ok size

/-- The layout of a type without parts. -/
def TypeLayout.scalar (size align : Nat) : TypeLayout where
  size := size
  align := align
  fieldOffsets := []
  elementStride := none

/-- Append one field to the layout of an aggregate. -/
def TypeLayout.addField (result field : TypeLayout) : Except LayoutError TypeLayout :=
  match alignUp result.size field.align with
  | .error e => .error e
  | .ok offset =>
      match checkedAdd offset field.size with
      | none => .error .overflow
      | some size =>
          .ok { result with
            size := size
            align := max result.align field.align
            fieldOffsets := result.fieldOffsets ++ [offset] }

/-- The size check every layout ends with. -/
def TypeLayout.fits (storage : StorageLayout) (layout : TypeLayout) :
    Except LayoutError TypeLayout :=
  let maxSize := if storage.ptrBits = 32 then 2 ^ 32 - 1 else wordMax
  if layout.size > maxSize then .error .overflow else .ok layout

mutual

def layoutStorage (storage : StorageLayout) (maxDepth : Nat) :
    Ty → Except LayoutError TypeLayout
  | .void => .error .void
  | .bool | .i1 | .u1 | .i8 | .u8 =>
      (TypeLayout.scalar 1 (storage.scalarAlign 0)).fits storage
  | .i16 | .u16 | .f16 => (TypeLayout.scalar 2 (storage.scalarAlign 1)).fits storage
  | .i32 | .u32 | .f32 => (TypeLayout.scalar 4 (storage.scalarAlign 2)).fits storage
  | .i64 | .u64 | .f64 => (TypeLayout.scalar 8 (storage.scalarAlign 3)).fits storage
  | .i128 | .u128 => (TypeLayout.scalar 16 (storage.scalarAlign 4)).fits storage
  | .ptr _ | .fnPtr _ =>
      (TypeLayout.scalar (storage.ptrBits / 8) storage.pointerAlign).fits storage
  | .array element count =>
      match checkedSub maxDepth 1 with
      | none => .error .depthLimit
      | some remaining =>
          match layoutStorage storage remaining element with
          | .error e => .error e
          | .ok element =>
              match checkedMul element.size count.toNat with
              | none => .error .overflow
              | some size =>
                  TypeLayout.fits storage
                    { size := size, align := element.align, fieldOffsets := [],
                      elementStride := some element.size }
  | .struct fields | .tuple fields =>
      match checkedSub maxDepth 1 with
      | none => .error .depthLimit
      | some remaining =>
          match layoutFields storage remaining (TypeLayout.scalar 0 1) fields with
          | .error e => .error e
          | .ok result =>
              match alignUp result.size result.align with
              | .error e => .error e
              | .ok size => TypeLayout.fits storage { result with size := size }

/-- The loop over the fields of an aggregate. -/
def layoutFields (storage : StorageLayout) (remaining : Nat) (result : TypeLayout) :
    List Ty → Except LayoutError TypeLayout
  | [] => .ok result
  | field :: fields =>
      match layoutStorage storage remaining field with
      | .error e => .error e
      | .ok field =>
          match result.addField field with
          | .error e => .error e
          | .ok result => layoutFields storage remaining result fields

end

/-- Layout for the one built-in target, with a nesting budget clamped to `maxIrNesting`. -/
def layoutOfWithLimit (ty : Ty) (maxDepth : Nat) : Except LayoutError TypeLayout :=
  layoutStorage .x86_64WhaleLinux (min maxDepth maxIrNesting) ty

/-- Natural storage layout, with at most 128 nested aggregate levels. -/
def layoutOf (ty : Ty) : Except LayoutError TypeLayout := layoutOfWithLimit ty 128

/-- Alignment for a standalone local or global object. -/
def allocationAlign (ty : Ty) : Except LayoutError Nat :=
  match layoutOf ty with
  | .error e => .error e
  | .ok layout =>
      match StorageLayout.x86_64WhaleLinux.largeArray, ty with
      | some (threshold, align), .array _ _ =>
          if layout.size ≥ threshold then .ok (max layout.align align) else .ok layout.align
      | _, _ => .ok layout.align

/-- Scale for the first native GEP index; a zero-sized pointee cannot be stepped. -/
def pointerStride (pointee : Ty) : Except LayoutError Nat :=
  match layoutOf pointee with
  | .error e => .error e
  | .ok layout => if layout.size = 0 then .error .zeroSizedPointerArithmetic else .ok layout.size

end Whale
