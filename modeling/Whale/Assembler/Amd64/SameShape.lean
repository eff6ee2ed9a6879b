import Whale.Assembler.Amd64.Lengths

set_option autoImplicit false

/-! # The lengths determine the layout

Two passes over one source that give every instruction the same length put everything at the
same place, whatever their hints and limits are. -/

namespace Whale.Assembler.Amd64

/-- What places depend on in a section. -/
def sectionShape (sec : AsmSection) : String × AsmSectionKind × Nat × Nat :=
  (sec.name, sec.kind, sec.data.length, sec.zeroFill)

structure SameShape (s t : PassState) : Prop where
  sections : s.sections.map sectionShape = t.sections.map sectionShape
  current : s.currentSection = t.currentSection
  scope : s.currentNonlocalLabel = t.currentNonlocalLabel
  labels : s.labelLocs = t.labelLocs
  offsets : s.instructionOffsets = t.instructionOffsets

variable {p q : PassInput} {s t s' t' : PassState}

theorem SameShape.section' (h : SameShape s t) :
    sectionShape s.section' = sectionShape t.section' := by
  have hmap : ∀ (sections : List AsmSection) (i : Nat), sectionShape (sections.getD i textSection) =
      (sections.map sectionShape).getD i (sectionShape textSection) :=
    fun _ _ => (List.getD_map ..).symm
  unfold PassState.section'
  rw [hmap, hmap, h.sections, h.current]

theorem SameShape.length (h : SameShape s t) :
    s.section'.data.length = t.section'.data.length :=
  congrArg (fun shape => shape.2.2.1) h.section'

theorem SameShape.zeroFill (h : SameShape s t) : s.section'.zeroFill = t.section'.zeroFill :=
  congrArg (fun shape => shape.2.2.2) h.section'

theorem SameShape.withSites (h : SameShape s t) (sites sites' : AssocMap (Nat × Nat) Nat) :
    SameShape { s with relocationSites := sites } { t with relocationSites := sites' } :=
  ⟨h.sections, h.current, h.scope, h.labels, h.offsets⟩

/-- Changing the current sections to ones of one shape. -/
theorem SameShape.set (h : SameShape s t) {a b : AsmSection}
    (hshape : sectionShape a = sectionShape b) :
    (s.sections.set s.currentSection a).map sectionShape =
      (t.sections.set t.currentSection b).map sectionShape := by
  rw [List.map_set, List.map_set, h.sections, h.current, hshape]

theorem findIdx?_name (sections : List AsmSection) (name : String) :
    sections.findIdx? (fun sec => sec.name = name) =
      (sections.map sectionShape).findIdx? (fun shape => shape.1 = name) := by
  rw [List.findIdx?_map]
  rfl

theorem enterSection_shape {name : String} {explicit : Option AsmSectionKind} (h : SameShape s t)
    (hs : enterSection s name explicit = .ok s') (ht : enterSection t name explicit = .ok t') :
    SameShape s' t' := by
  have hfind : s.sections.findIdx? (fun sec => sec.name = name) =
      t.sections.findIdx? (fun sec => sec.name = name) := by
    rw [findIdx?_name, findIdx?_name, h.sections]
  have hlength : s.sections.length = t.sections.length := by
    have hmap := congrArg List.length h.sections
    rwa [List.length_map, List.length_map] at hmap
  rcases enterSection_ok hs with ⟨idx, hidx, rfl⟩ | ⟨hnone, rfl⟩
  · rcases enterSection_ok ht with ⟨idx', hidx', rfl⟩ | ⟨hnone', rfl⟩
    · rw [hfind, hidx'] at hidx
      cases hidx
      exact { h with current := rfl }
    · rw [hfind, hnone'] at hidx
      cases hidx
  · rcases enterSection_ok ht with ⟨idx', hidx', rfl⟩ | ⟨hnone', rfl⟩
    · rw [hfind, hidx'] at hnone
      cases hnone
    · refine { h with sections := ?_, current := hlength }
      simp only [List.map_append, h.sections]

theorem defineLabel_shape {name : String} {index : Nat} (h : SameShape s t)
    (hs : defineLabel p s name index = .ok s') (ht : defineLabel q t name index = .ok t') :
    SameShape s' t' := by
  obtain ⟨resolved, hresolved, -, -, -, rfl⟩ := defineLabel_ok hs
  obtain ⟨resolved', hresolved', -, -, -, rfl⟩ := defineLabel_ok ht
  rw [h.scope, hresolved'] at hresolved
  cases hresolved
  refine { h with scope := ?_, labels := ?_ }
  · simp only [h.scope]
  · simp only [h.labels, h.current, h.length, h.zeroFill]

theorem placeInstruction_shape {ins : Instruction} {index : Nat} (h : SameShape s t)
    (hs : placeInstruction p s ins index = .ok s') (ht : placeInstruction q t ins index = .ok t')
    (hsize : index < s.instructionLengths.length) (hsize' : index < t.instructionLengths.length)
    (hlengths : s'.instructionLengths[index]? = t'.instructionLengths[index]?) :
    SameShape s' t' := by
  obtain ⟨inst, code, -, -, -, -, -, rfl⟩ := placeInstruction_ok hs
  obtain ⟨inst', code', -, -, -, -, -, rfl⟩ := placeInstruction_ok ht
  have hcode : code.bytes.length = code'.bytes.length := by
    unfold afterInstruction at hlengths
    simp only [List.getElem?_set_self hsize, List.getElem?_set_self hsize',
      Option.some.injEq] at hlengths
    exact hlengths
  refine { h with sections := h.set ?_, offsets := ?_ }
  · have hshape := h.section'
    simp only [sectionShape, Prod.mk.injEq] at hshape
    simp only [sectionShape, List.length_append, hshape, hcode]
  · unfold afterInstruction
    simp only [h.offsets, h.length]

theorem aligned_shape (h : SameShape s t) (alignment : Nat) :
    sectionShape (aligned s alignment) = sectionShape (aligned t alignment) := by
  have hshape := h.section'
  simp only [sectionShape, Prod.mk.injEq] at hshape
  obtain ⟨hname, hkind, hlength, hzero⟩ := hshape
  unfold aligned
  simp only [hkind, hlength, hzero]
  split
  · simp only [sectionShape, hname, hlength]
  · simp only [sectionShape, hname, List.length_append, hlength, List.length_replicate]

theorem placeAlignment_shape {dir : Directive} (hconsts : p.consts = q.consts) (h : SameShape s t)
    (hs : placeAlignment p s dir = .ok s') (ht : placeAlignment q t dir = .ok t') :
    SameShape s' t' := by
  obtain ⟨alignment, _, halignment, rfl, -⟩ := placeAlignment_ok hs
  obtain ⟨alignment', _, halignment', rfl, -⟩ := placeAlignment_ok ht
  rw [hconsts, halignment'] at halignment
  cases halignment
  exact { h with sections := h.set (aligned_shape h _) }

theorem placeDirective_shape {dir : Directive} (hconsts : p.consts = q.consts) (h : SameShape s t)
    (hs : placeDirective p s dir = .ok s') (ht : placeDirective q t dir = .ok t') :
    SameShape s' t' := by
  obtain ⟨named, hnamed, hs⟩ := placeDirective_ok hs
  obtain ⟨named', hnamed', ht⟩ := placeDirective_ok ht
  rw [h.scope, hnamed'] at hnamed
  cases hnamed
  have hshape := h.section'
  simp only [sectionShape, Prod.mk.injEq] at hshape
  obtain ⟨hname, hkind, hlength, hzero⟩ := hshape
  rcases hs with ⟨hdir, hs⟩ | ⟨hdir, hbss, sec, hsec, rfl⟩ |
    ⟨hdir, hbss, size, code, hsize, hcode, -, -, rfl⟩
  · rcases ht with ⟨-, ht⟩ | ⟨hdir', -⟩ | ⟨hdir', -⟩
    · exact placeAlignment_shape hconsts h hs ht
    · exact absurd hdir hdir'
    · exact absurd hdir hdir'
  · rcases ht with ⟨hdir', -⟩ | ⟨-, -, sec', hsec', rfl⟩ | ⟨-, hbss', -⟩
    · exact absurd hdir' hdir
    · obtain ⟨n, hn, -, rfl⟩ := encodeBssDirective_ok hsec
      obtain ⟨n', hn', -, rfl⟩ := encodeBssDirective_ok hsec'
      rw [hconsts, hn'] at hn
      cases hn
      refine { h with sections := h.set ?_ }
      simp only [sectionShape, hname, hkind, hlength, hzero]
    · exact absurd (hkind.symm.trans hbss) hbss'
  · rcases ht with ⟨hdir', -⟩ | ⟨-, hbss', -⟩ | ⟨-, -, size', code', hsize', hcode', -, -, rfl⟩
    · exact absurd hdir' hdir
    · exact absurd (hkind.trans hbss') hbss
    · have hbytes := encodeDirective_length hsize hcode
      have hbytes' := encodeDirective_length hsize' hcode'
      rw [hconsts, hsize'] at hsize
      cases hsize
      refine { h with sections := h.set ?_ }
      simp only [sectionShape, hname, hkind, hzero, hbytes, hbytes', hlength]

theorem encodeNode_shape {node : AstNode} {index : Nat} (hconsts : p.consts = q.consts)
    (h : SameShape s t) (hs : encodeNode p s node index = .ok s')
    (ht : encodeNode q t node index = .ok t')
    (hsize : index < s.instructionLengths.length) (hsize' : index < t.instructionLengths.length)
    (hlengths : s'.instructionLengths[index]? = t'.instructionLengths[index]?) :
    SameShape s' t' := by
  cases node with
  | const =>
      cases hs
      cases ht
      exact h
  | «section» name | sectionAttributes name kind => exact enterSection_shape h hs ht
  | «global» name =>
      obtain ⟨_, -, rfl⟩ := declareGlobal_ok hs
      obtain ⟨_, -, rfl⟩ := declareGlobal_ok ht
      exact { h with }
  | external name =>
      obtain ⟨_, -, -, ⟨-, rfl⟩ | ⟨-, rfl⟩⟩ := declareExtern_ok hs <;>
      obtain ⟨_, -, -, ⟨-, rfl⟩ | ⟨-, rfl⟩⟩ := declareExtern_ok ht <;>
      exact { h with }
  | symbolMetadata name kind size visibility =>
      obtain ⟨_, _, -, -, rfl⟩ := recordMetadata_ok hs
      obtain ⟨_, _, -, -, rfl⟩ := recordMetadata_ok ht
      exact { h with }
  | label name => exact defineLabel_shape h hs ht
  | instruction ins => exact placeInstruction_shape h hs ht hsize hsize' hlengths
  | directive dir => exact placeDirective_shape hconsts h hs ht

/-- Passes with the same lengths in the end have the same shape throughout. -/
theorem run_shape {nodes : List AstNode} {k : Nat} (hconsts : p.consts = q.consts)
    (h : SameShape s t) (hs : (nodes.zipIdx k).foldlM (passStep p) s = .ok s')
    (ht : (nodes.zipIdx k).foldlM (passStep q) t = .ok t')
    (hsize : k + nodes.length ≤ s.instructionLengths.length)
    (hsize' : k + nodes.length ≤ t.instructionLengths.length)
    (hlengths : s'.instructionLengths = t'.instructionLengths) : SameShape s' t' := by
  induction nodes generalizing k s t with
  | nil =>
      cases hs
      cases ht
      exact h
  | cons node nodes ih =>
      rw [List.length_cons] at hsize hsize'
      obtain ⟨s₁, hs₁, hs⟩ := foldlM_cons_ok.mp hs
      obtain ⟨t₁, ht₁, ht⟩ := foldlM_cons_ok.mp ht
      have hcount := (run_length (foldlM_cons_ok.mpr ⟨s₁, hs₁, rfl⟩ :
        [(node, k)].foldlM (passStep p) s = .ok s₁)).1
      have hcount' := (run_length (foldlM_cons_ok.mpr ⟨t₁, ht₁, rfl⟩ :
        [(node, k)].foldlM (passStep q) t = .ok t₁)).1
      -- The length of this node does not change any more.
      have hkept := (run_untouched hs (i := k) (by omega)).lengths
      have hkept' := (run_untouched ht (i := k) (by omega)).lengths
      rw [hlengths] at hkept
      have hsame : s₁.instructionLengths[k]? = t₁.instructionLengths[k]? :=
        hkept.symm.trans hkept'
      obtain ⟨s₂, sites, hs₂, rfl⟩ := passStep_ok hs₁
      obtain ⟨t₂, sites', ht₂, rfl⟩ := passStep_ok ht₁
      have hnext := encodeNode_shape hconsts h hs₂ ht₂ (by omega) (by omega) hsame
      exact ih (hnext.withSites sites sites') hs ht (by omega) (by omega)

/-- The layout of a pass follows from the lengths of its instructions. -/
theorem encodeOnce_layout {forced forced' marked marked' : List Nat} {pass pass' : EncodingPass}
    (hast : p.ast = q.ast) (hconsts : p.consts = q.consts)
    (h : encodeOnce p forced = .ok (pass, marked)) (h' : encodeOnce q forced' = .ok (pass', marked'))
    (hlengths : pass.layout.instructionLengths = pass'.layout.instructionLengths) :
    pass.layout = pass'.layout := by
  obtain ⟨s, hs, hpass, -⟩ := encodeOnce_ok h
  obtain ⟨t, ht, hpass', -⟩ := encodeOnce_ok h'
  obtain ⟨_, -, -, rfl⟩ := finishPass_ok hpass
  obtain ⟨_, -, -, rfl⟩ := finishPass_ok hpass'
  have hstart : SameShape (PassState.start p forced) (PassState.start q forced') := by
    refine ⟨rfl, rfl, rfl, rfl, ?_⟩
    unfold PassState.start
    rw [hast]
  unfold runPass at hs ht
  rw [hast] at hs
  have hsize : ∀ (p : PassInput) (forced : List Nat),
      (PassState.start p forced).instructionLengths.length = p.ast.items.length :=
    fun p forced => List.length_replicate
  have hshape := run_shape hconsts hstart hs ht (by rw [hsize, hast]; omega)
    (by rw [hsize]; omega) hlengths
  simp only at hlengths
  rw [hlengths, hshape.labels, hshape.offsets]

end Whale.Assembler.Amd64
