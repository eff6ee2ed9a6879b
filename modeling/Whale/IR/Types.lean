import Whale.Lib.Word

set_option autoImplicit false

/-! # IR types and function signatures

The types of the IR (`Ty`; the source calls it `Type`) and the signatures of functions and
function pointers. A function-pointer type contains a whole signature, so the two are
mutually recursive. -/

namespace Whale

/-- The convention is part of a function pointer's type, not an ABI inference. -/
inductive CallingConvention where
  | whale
  | sysV64
  deriving DecidableEq, Repr

inductive Linkage where
  | internal
  | external
  deriving DecidableEq, Repr

mutual

/-- The types of the IR. -/
inductive Ty where
  | void
  | bool
  | i1
  | u1
  | i8
  | i16
  | i32
  | i64
  | i128
  | u8
  | u16
  | u32
  | u64
  | u128
  | f16
  | f32
  | f64
  | ptr (inner : Ty)
  | fnPtr (sig : FunctionSignature)
  | array (inner : Ty) (len : UInt64)
  | struct (fields : List Ty)
  | tuple (items : List Ty)

/-- The signature of a function or of a function pointer. -/
inductive FunctionSignature where
  | mk (params : List Ty) (ret : Ty) (convention : CallingConvention) (isVariadic : Bool)

end

namespace FunctionSignature

def params : FunctionSignature → List Ty
  | mk params _ _ _ => params

def ret : FunctionSignature → Ty
  | mk _ ret _ _ => ret

def convention : FunctionSignature → CallingConvention
  | mk _ _ convention _ => convention

def isVariadic : FunctionSignature → Bool
  | mk _ _ _ isVariadic => isVariadic

/-- A signature of the internal convention. -/
def whale (params : List Ty) (ret : Ty) : FunctionSignature := mk params ret .whale false

end FunctionSignature

/-! ## Decidable equality -/

mutual

/-- Structural equality of types, as a test. -/
def Ty.beq : Ty → Ty → Bool
  | .ptr a, .ptr b => a.beq b
  | .fnPtr s, .fnPtr t => s.beq t
  | .array a m, .array b n => a.beq b && m == n
  | .struct as, .struct bs => Ty.beqList as bs
  | .tuple as, .tuple bs => Ty.beqList as bs
  | .void, .void | .bool, .bool | .i1, .i1 | .u1, .u1 => true
  | .i8, .i8 | .i16, .i16 | .i32, .i32 | .i64, .i64 | .i128, .i128 => true
  | .u8, .u8 | .u16, .u16 | .u32, .u32 | .u64, .u64 | .u128, .u128 => true
  | .f16, .f16 | .f32, .f32 | .f64, .f64 => true
  | _, _ => false

def Ty.beqList : List Ty → List Ty → Bool
  | [], [] => true
  | a :: as, b :: bs => a.beq b && Ty.beqList as bs
  | _, _ => false

def FunctionSignature.beq : FunctionSignature → FunctionSignature → Bool
  | .mk ps r c v, .mk qs s d w => Ty.beqList ps qs && r.beq s && c == d && v == w

end

mutual

theorem Ty.beq_refl : (a : Ty) → a.beq a = true
  | .ptr a => a.beq_refl
  | .fnPtr s => s.beq_refl
  | .array a n => by simp [Ty.beq, a.beq_refl]
  | .struct as => Ty.beqList_refl as
  | .tuple as => Ty.beqList_refl as
  | .void | .bool | .i1 | .u1 | .i8 | .i16 | .i32 | .i64 | .i128
  | .u8 | .u16 | .u32 | .u64 | .u128 | .f16 | .f32 | .f64 => rfl

theorem Ty.beqList_refl : (as : List Ty) → Ty.beqList as as = true
  | [] => rfl
  | a :: as => by simp [Ty.beqList, a.beq_refl, Ty.beqList_refl as]

theorem FunctionSignature.beq_refl : (s : FunctionSignature) → s.beq s = true
  | .mk ps r c v => by simp [FunctionSignature.beq, Ty.beqList_refl ps, r.beq_refl]

end

mutual

theorem Ty.eq_of_beq : (a b : Ty) → a.beq b = true → a = b
  | .ptr a, b, h => by
      cases b <;> simp only [Ty.beq, reduceCtorEq] at h
      rw [a.eq_of_beq _ h]
  | .fnPtr s, b, h => by
      cases b <;> simp only [Ty.beq, reduceCtorEq] at h
      rw [s.eq_of_beq _ h]
  | .array a n, b, h => by
      cases b <;> simp only [Ty.beq, reduceCtorEq, Bool.and_eq_true, beq_iff_eq] at h
      rw [a.eq_of_beq _ h.1, h.2]
  | .struct as, b, h => by
      cases b <;> simp only [Ty.beq, reduceCtorEq] at h
      rw [Ty.eq_of_beqList as _ h]
  | .tuple as, b, h => by
      cases b <;> simp only [Ty.beq, reduceCtorEq] at h
      rw [Ty.eq_of_beqList as _ h]
  | .void, b, h | .bool, b, h | .i1, b, h | .u1, b, h | .i8, b, h | .i16, b, h | .i32, b, h
  | .i64, b, h | .i128, b, h | .u8, b, h | .u16, b, h | .u32, b, h | .u64, b, h
  | .u128, b, h | .f16, b, h | .f32, b, h | .f64, b, h => by
      cases b <;> first | rfl | cases h

theorem Ty.eq_of_beqList : (as bs : List Ty) → Ty.beqList as bs = true → as = bs
  | [], bs, h => by cases bs <;> first | rfl | cases h
  | a :: as, bs, h => by
      cases bs <;> simp only [Ty.beqList, reduceCtorEq, Bool.and_eq_true] at h
      rw [a.eq_of_beq _ h.1, Ty.eq_of_beqList as _ h.2]

theorem FunctionSignature.eq_of_beq :
    (s t : FunctionSignature) → s.beq t = true → s = t
  | .mk ps r c v, .mk qs s d w, h => by
      simp only [FunctionSignature.beq, Bool.and_eq_true, beq_iff_eq] at h
      obtain ⟨⟨⟨h₁, h₂⟩, h₃⟩, h₄⟩ := h
      rw [Ty.eq_of_beqList ps _ h₁, r.eq_of_beq _ h₂, h₃, h₄]

end

instance : DecidableEq Ty := fun a b =>
  decidable_of_iff (a.beq b = true) ⟨a.eq_of_beq b, fun h => h ▸ a.beq_refl⟩

instance : DecidableEq FunctionSignature := fun s t =>
  decidable_of_iff (s.beq t = true) ⟨s.eq_of_beq t, fun h => h ▸ s.beq_refl⟩

instance : Inhabited Ty := ⟨.void⟩

instance : Inhabited FunctionSignature := ⟨.whale [] .void⟩

end Whale
