import Whale.Lib.TwosComplement
import Whale.Linker.Binding
import Whale.Linker.LayoutInvariant
import Whale.Linker.Relocation

set_option autoImplicit false

/-! # What relocations store

The value a relocation stands for as an integer (`FieldForm.value`), the bytes that hold it, and
the payloads that hold the values of all relocations and are the input elsewhere (`Relocated`).
There is at most one such result (`Relocated.unique`). -/

namespace Whale.Linker

/-! ## Fields -/

/-- How the field of a relocation is to be read. -/
structure FieldForm where
  /-- Is the value relative to the address of the field? -/
  relative : Bool
  isSigned : Bool
  /-- The number of bytes. -/
  width : Nat
  deriving DecidableEq

/-- The fields of the kinds that are supported. -/
def fieldForm : RelocKind → Option FieldForm
  | .absolute64 => some { relative := false, isSigned := false, width := 8 }
  | .absolute32 => some { relative := false, isSigned := false, width := 4 }
  | .signedAbsolute32 => some { relative := false, isSigned := true, width := 4 }
  | .relative32 | .plt32 => some { relative := true, isSigned := true, width := 4 }
  | .relative8 => some { relative := true, isSigned := true, width := 1 }
  | _ => none

namespace FieldForm

/-- `S + A` or `S + A - P`. -/
def value (f : FieldForm) (target : Nat) (addend : Int) (place : Nat) : Int :=
  if f.relative then target + addend - place else target + addend

/-- The number in a field. -/
def decode (f : FieldForm) (bytes : List UInt8) : Int :=
  reading f.isSigned (8 * bytes.length) (leValue bytes)

/-- The value is a number of the width of the field. -/
def Fits (f : FieldForm) (v : Int) : Prop := InRange f.isSigned (8 * f.width) v

theorem decode_injective {f : FieldForm} {as bs : List UInt8} (hlength : as.length = bs.length)
    (h : f.decode as = f.decode bs) : as = bs := by
  have hcongr : (leValue as : Int) ≡ leValue bs [ZMOD (2 ^ (8 * bs.length) : Nat)] := by
    unfold decode at h
    rw [hlength] at h
    exact (reading_modEq f.isSigned _ _).symm.trans (h ▸ reading_modEq f.isSigned _ _)
  have hpow : 2 ^ (8 * bs.length) = 256 ^ bs.length := by rw [Nat.pow_mul]
  have hlt : leValue as < 256 ^ bs.length := hlength ▸ leValue_lt as
  rw [hpow, Int.natCast_modEq_iff] at hcongr
  exact leValue_injective hlength (hcongr.eq_of_lt_of_lt hlt (leValue_lt bs))

end FieldForm

theorem fieldForm_width {kind : RelocKind} {f : FieldForm} (h : fieldForm kind = some f) :
    0 < f.width ∧ f.width ≤ 8 := by
  cases kind <;> cases h <;> decide

/-! ## Sites -/

/-- A relocation with its object and the index of that. -/
abbrev Site := (ObjectFile × Nat) × ObjectRelocation

namespace Site

/-- The width of the field; none for a kind that is not supported. -/
def width (x : Site) : Nat := ((fieldForm x.2.kind).map FieldForm.width).getD 0

/-- The offset behind the field. -/
def stop (x : Site) : Nat := x.2.offset + x.width

/-- The address of the field. -/
def place (layout : Layout) (x : Site) : Option Nat :=
  (layout.address x.1.2 x.2.sectionIndex).map (· + x.2.offset)

/-- The byte at `i` of the section belongs to the field. -/
def Covers (x : Site) (oi si i : Nat) : Prop :=
  x.1.2 = oi ∧ x.2.sectionIndex = si ∧ x.2.offset ≤ i ∧ i < x.stop

/-- The fields have no byte in common. -/
def Apart (x y : Site) : Prop :=
  x.1.2 = y.1.2 → x.2.sectionIndex = y.2.sectionIndex → x.stop ≤ y.2.offset ∨ y.stop ≤ x.2.offset

theorem width_of_form {x : Site} {f : FieldForm} (h : fieldForm x.2.kind = some f) :
    x.width = f.width := by
  rw [width, h]
  rfl

end Site

/-- The address of what a relocation is bound to; an undefined weak symbol is at zero. -/
def Binding.address (layout : Layout) : Binding → Option Nat
  | .definition i symbol =>
      (symbol.sectionIndex >>= layout.address i).map (· + symbol.value.toNat)
  | .null => some 0

/-- The relocation stores the value in a field of the form. -/
def Stores (objects : List ObjectFile) (layout : Layout) (x : Site) (f : FieldForm) (v : Int) :
    Prop :=
  fieldForm x.2.kind = some f ∧ ∃ b target place,
    bindingOf objects x.1.1 x.1.2 x.2.symbol = some b ∧ b.address layout = some target ∧
    x.place layout = some place ∧ v = f.value target x.2.addend.toInt place

/-- Why a relocation cannot be applied. -/
inductive Refused (objects : List ObjectFile) (layout : Layout) (x : Site) : Prop
  | unsupported (h : fieldForm x.2.kind = none)
  | leavesSection
      (h : ∀ s, x.1.1.sections[x.2.sectionIndex]? = some s → s.data.length < x.stop)
  | zeroFill (s : Section) (hs : x.1.1.sections[x.2.sectionIndex]? = some s) (h : s.kind = .bss)
  | unresolved (h : bindingOf objects x.1.1 x.1.2 x.2.symbol = none)
  | range (f : FieldForm) (v : Int) (hv : Stores objects layout x f v) (h : ¬ f.Fits v)

/-! ## Results -/

/-- The payloads hold the values of all relocations, and the input elsewhere. -/
structure Relocated (objects : List ObjectFile) (layout : Layout) (payloads : Payloads) : Prop where
  shape : payloads.map List.length = objects.map (·.sections.length)
  field : ∀ x ∈ relocationsOf objects, ∃ payload f v,
    payloads.at? x.1.2 x.2.sectionIndex = some payload ∧ Stores objects layout x f v ∧
      x.2.offset + f.width ≤ payload.length ∧
      f.decode (slice payload x.2.offset f.width) = v
  input : ∀ (oi si : Nat) (s : Section), sectionAt objects oi si = some s →
    ∃ payload, payloads.at? oi si = some payload ∧ payload.length = s.data.length ∧
      ∀ i, (∀ x ∈ relocationsOf objects, ¬ Site.Covers x oi si i) → payload[i]? = s.data[i]?

theorem Stores.unique {objects : List ObjectFile} {layout : Layout} {x : Site} {f f' : FieldForm}
    {v v' : Int} (h : Stores objects layout x f v) (h' : Stores objects layout x f' v') :
    f = f' ∧ v = v' := by
  obtain ⟨hf, b, target, place, hb, htarget, hplace, rfl⟩ := h
  obtain ⟨hf', b', target', place', hb', htarget', hplace', rfl⟩ := h'
  rw [hf, Option.some.injEq] at hf'
  rw [hb, Option.some.injEq] at hb'
  subst hf' hb'
  rw [htarget, Option.some.injEq] at htarget'
  rw [hplace, Option.some.injEq] at hplace'
  exact ⟨rfl, by rw [htarget', hplace']⟩

theorem payloads_ext {payloads payloads' : Payloads}
    (hshape : payloads.map List.length = payloads'.map List.length)
    (h : ∀ (oi si : Nat) (payload payload' : List UInt8), payloads.at? oi si = some payload →
      payloads'.at? oi si = some payload' → payload = payload') : payloads = payloads' := by
  have hlength : payloads.length = payloads'.length := by
    simpa using congrArg List.length hshape
  refine List.ext_getElem hlength fun oi hoi hoi' => ?_
  have hrow : payloads[oi].length = payloads'[oi].length := by
    have hat := congrArg (·[oi]?) hshape
    simpa [hoi, hoi'] using hat
  refine List.ext_getElem hrow fun si hsi hsi' => h oi si _ _ ?_ ?_
  · show payloads[oi]? >>= (·[si]?) = _
    rw [List.getElem?_eq_getElem hoi]
    exact List.getElem?_eq_getElem hsi
  · show payloads'[oi]? >>= (·[si]?) = _
    rw [List.getElem?_eq_getElem hoi']
    exact List.getElem?_eq_getElem hsi'

theorem sectionAt_of_shape {objects : List ObjectFile} {payloads : Payloads}
    (hshape : payloads.map List.length = objects.map (·.sections.length)) {oi si : Nat}
    {payload : List UInt8} (h : payloads.at? oi si = some payload) :
    ∃ s, sectionAt objects oi si = some s := by
  obtain ⟨row, hrow, hpayload⟩ := Option.bind_eq_some_iff.mp h
  have hat := congrArg (·[oi]?) hshape
  simp only [List.getElem?_map, hrow, Option.map_some] at hat
  obtain ⟨o, ho, hlength⟩ := Option.map_eq_some_iff.mp hat.symm
  have hsi := (List.getElem?_eq_some_iff.mp hpayload).1
  refine ⟨o.sections.get ⟨si, by rw [hlength]; exact hsi⟩, ?_⟩
  unfold sectionAt
  rw [ho]
  exact List.getElem?_eq_getElem _

/-- There is one result. -/
theorem Relocated.unique {objects : List ObjectFile} {layout : Layout}
    {payloads payloads' : Payloads} (h : Relocated objects layout payloads)
    (h' : Relocated objects layout payloads') : payloads = payloads' := by
  refine payloads_ext (h.shape.trans h'.shape.symm) fun oi si payload payload' hp hp' => ?_
  obtain ⟨s, hs⟩ := sectionAt_of_shape h.shape hp
  obtain ⟨found, hfound, hlength, hrest⟩ := h.input oi si s hs
  obtain ⟨found', hfound', hlength', hrest'⟩ := h'.input oi si s hs
  rw [hp, Option.some.injEq] at hfound
  rw [hp', Option.some.injEq] at hfound'
  subst hfound hfound'
  refine List.ext_getElem? fun i => ?_
  by_cases hcovered : ∃ x ∈ relocationsOf objects, Site.Covers x oi si i
  -- A byte of a field is the byte of its value.
  · obtain ⟨x, hx, rfl, rfl, hlo, hhi⟩ := hcovered
    obtain ⟨_, f, v, hat, hstores, hinside, hdecode⟩ := h.field x hx
    obtain ⟨_, f', v', hat', hstores', hinside', hdecode'⟩ := h'.field x hx
    rw [hp, Option.some.injEq] at hat
    rw [hp', Option.some.injEq] at hat'
    subst hat hat'
    obtain ⟨rfl, rfl⟩ := hstores.unique hstores'
    have hbytes : slice payload x.2.offset f.width = slice payload' x.2.offset f.width :=
      FieldForm.decode_injective (by rw [length_slice hinside, length_slice hinside'])
        (hdecode.trans hdecode'.symm)
    have hbyte := congrArg (·[i - x.2.offset]?) hbytes
    have hwidth : i - x.2.offset < f.width := by
      unfold Site.stop at hhi
      rw [Site.width_of_form hstores.1] at hhi
      omega
    simp only [getElem?_slice, if_pos hwidth, Nat.add_sub_cancel' hlo] at hbyte
    exact hbyte
  · have hnot : ∀ x ∈ relocationsOf objects, ¬ Site.Covers x oi si i :=
      fun x hx hc => hcovered ⟨x, hx, hc⟩
    rw [hrest i hnot, hrest' i hnot]

end Whale.Linker
