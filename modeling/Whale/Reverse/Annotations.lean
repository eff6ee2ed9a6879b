import Whale.Reverse.Consistent

set_option autoImplicit false

/-! # Annotations of a range

The annotations of an image are sorted by region and offset, and none is longer than eight bytes.
So the ones that touch a range begin at most seven bytes in front of it, and the search may start
there and stop at the first annotation behind the range (`elf_annotations`). -/

namespace Whale.Reverse

open Elf

/-- The annotation has a byte among the `length` bytes from `offset` on. -/
def Annotation.Touches (a : Annotation) (region offset length : Nat) : Prop :=
  a.region = region ∧ a.offset < offset + length ∧ offset < a.offset + a.width

instance (a : Annotation) (region offset length : Nat) :
    Decidable (a.Touches region offset length) :=
  inferInstanceAs (Decidable (_ ∧ _))

theorem Annotation.before_iff {a : Annotation} {region offset : Nat} :
    a.before region offset = true ↔ a.region < region ∨ a.region = region ∧ a.offset < offset := by
  simp [ Annotation.before]

/-! ## The search -/

/-- What the search skips is in front of what it does not. -/
theorem partitioned_before {as : List Annotation}
    (hsorted : as.Pairwise fun a b => Annotation.le a b = true) (region offset : Nat) :
    Partitioned (fun a => a.before region offset) as := by
  refine hsorted.imp fun {a b} hle hb => ?_
  rw [annotation_le_iff] at hle
  rw [ Annotation.before_iff] at hb ⊢
  omega

/-- Behind the annotations that are skipped, those of the range come first. -/
theorem partitioned_within {as : List Annotation}
    (hsorted : as.Pairwise fun a b => Annotation.le a b = true) (region offset stop : Nat) :
    Partitioned (fun a => decide (a.region = region ∧ a.offset < stop))
      (as.filter fun a => !a.before region offset) := by
  have hkept := (hsorted.filter fun a => !a.before region offset)
  refine hkept.imp_of_mem fun {a b} ha _ hle hb => ?_
  have hnot := (List.mem_filter.mp ha).2
  rw [Bool.not_eq_true', ← Bool.not_eq_true, Annotation.before_iff] at hnot
  rw [annotation_le_iff] at hle
  rw [decide_eq_true_eq] at hb ⊢
  omega

/-- The search finds what touches the range. -/
theorem Image.annotations_eq {image : Image}
    (hsorted : image.relocations.Pairwise fun a b => Annotation.le a b = true)
    (hshort : ∀ a ∈ image.relocations, a.width ≤ 8 ∧ a.offset + a.width < wordMax)
    (region offset length : Nat) :
    image.annotations region offset length =
      image.relocations.filter fun a => a.Touches region offset length := by
  unfold annotations
  simp only
  rw [(partitioned_before hsorted region (offset - 7)).drop_partitionPoint,
    (partitioned_within hsorted region (offset - 7) _).takeWhile_eq, List.filter_filter,
    List.filter_filter]
  refine List.filter_congr fun a ha => ?_
  obtain ⟨hwidth, hword⟩ := hshort a ha
  rw [Bool.eq_iff_iff, Bool.and_eq_true, Bool.and_eq_true, Bool.not_eq_true', ← Bool.not_eq_true,
    Annotation.before_iff, decide_eq_true_eq, decide_eq_true_eq, decide_eq_true_eq, lt_min_iff,
    lt_min_iff]
  unfold Annotation.Touches
  omega

/-! ## Images -/

theorem relocWidth_le (kind : RelocKind) : relocWidth kind ≤ 8 := by
  unfold relocWidth
  split <;> omega

theorem RelocatableImage.annotation_le {bytes : List UInt8} {object : ObjectFile} {image : Image}
    (h : RelocatableImage bytes object image) (hvalid : object.Valid) {a : Annotation}
    (ha : a ∈ image.relocations) : a.width ≤ 8 ∧ a.offset ≤ bytes.length := by
  obtain ⟨as, has, hperm⟩ := h.relocations
  obtain ⟨r, hr, hof⟩ := exists_of_forall₂ has.flip (hperm.mem_iff.mp ha)
  refine ⟨hof.width ▸ relocWidth_le r.kind, ?_⟩
  -- The annotated bytes are those of the section, which are those of the region.
  obtain ⟨t, ht, hsection⟩ := hof.region
  obtain ⟨e, he, hregion⟩ := exists_of_forall₂ h.regions.flip (List.mem_of_getElem? ht)
  have hindex : e.2 = r.sectionIndex :=
    Option.some.inj (hregion.sectionIndex.symm.trans hsection)
  have hat := List.mem_zipIdx_iff_getElem?.mp (List.mem_of_mem_filter he)
  rw [hindex] at hat
  obtain ⟨-, s, hs, -, size, -, hfits⟩ := hvalid.relocations r (List.mem_of_mem_filter hr)
  have hdata : s.data = t.bytes := by
    rw [hat] at hs
    cases hs
    exact hregion.data.symm
  have hinside := hregion.inside
  calc a.offset = r.offset := hof.offset
    _ ≤ s.data.length := by omega
    _ = t.bytes.length := by rw [hdata]
    _ ≤ bytes.length := by omega

/-- In the images that inspection returns, the search for annotations is the plain filter. -/
theorem elf_annotations {bytes : List UInt8} {limits : ObjectReadLimits}
    (hlength : bytes.length < 2 ^ 63) {image : Image} (h : Image.elf bytes limits = .ok image)
    (region offset length : Nat) :
    image.annotations region offset length =
      image.relocations.filter fun a => a.Touches region offset length := by
  have hword : bytes.length < wordBound := by
    unfold wordBound
    omega
  obtain ⟨view, hparse, rfl, hkinds⟩ := (elf_consistent bytes limits hword).2 image h
  rcases hkinds with ⟨-, himage⟩ | ⟨-, object, usage, hread, himage⟩
  · -- An executable has no relocations.
    refine image.annotations_eq ?_ ?_ region offset length
    · rw [himage.relocations]
      exact List.Pairwise.nil
    · rw [himage.relocations]
      exact fun a ha => absurd ha List.not_mem_nil
  · have hvalid := ObjectFile.validate_valid ((readElfWithUsage_bounded _ limits hword).2 _ _ hread).1
    refine image.annotations_eq himage.sorted (fun a ha => ?_) region offset length
    obtain ⟨hwidth, hoffset⟩ := himage.annotation_le hvalid ha
    refine ⟨hwidth, ?_⟩
    unfold wordMax wordBound
    omega

/-- The call of the file has its last byte in the range. -/
theorem elf_annotations_loopFile : ∃ image, Image.elf loopFile .default = .ok image ∧
    image.annotations 0 4 2 = (image.relocations.filter fun a => a.Touches 0 4 2) ∧
    (image.annotations 0 4 2).map Annotation.symbol = ["f"] := by
  cases himage : Image.elf loopFile .default with
  | error e =>
      have hentry := elf_loopFile
      rw [himage] at hentry
      cases hentry
  | ok image =>
      have hsymbols : ((Image.elf loopFile .default).toOption.map fun image =>
          (image.annotations 0 4 2).map Annotation.symbol) = some ["f"] := by
        decide +kernel
      rw [himage] at hsymbols
      refine ⟨image, rfl, elf_annotations ?_ himage 0 4 2, Option.some.inj hsymbols⟩
      rw [length_loopFile]
      decide

end Whale.Reverse
