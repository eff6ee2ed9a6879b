import Mathlib.Tactic.Ring
import Whale.Builder.Mappings

set_option autoImplicit false

/-! # Source metadata in every session

Files and original nodes are consistent after every annotation, with fewer than `2 ^ 32` files
since names cost work. With the mappings this makes a table that validation accepts. -/

namespace Whale

open Frontend (AstLimitError)
open Frontend.Inspect (badSource)

/-! ## Files and originals -/

/-- The frontend has checked the position of the annotation. -/
def SourceAnnotation.Checked (a : SourceAnnotation) : Prop :=
  ∀ s, a.source = some s → badSource s = false

/-- Files are numbered in their order, spans lie in them, and mappings name known nodes. `spent`
is the work that was charged so far. -/
structure SourceMetadata.Table (m : SourceMetadata) (spent : Nat) : Prop where
  names : ∀ file ∈ m.files, file.name.isEmpty = false ∧ file.name.toList.contains '\x00' = false
  ids : m.files.map SourceFile.id = (List.range m.files.length).map UInt32.ofNat
  originals : (m.originals.map OriginalNode.id).Nodup
  spans : ∀ node ∈ m.originals, ∀ span, node.span = some span →
    span.file ∈ m.files.map SourceFile.id ∧ span.valid = true
  known : ∀ mapping ∈ m.mappings, mapping.original ∈ m.originals.map OriginalNode.id
  paid : m.files.length * (m.files.length + 1) ≤ spent

namespace SourceMetadata

variable {m : SourceMetadata} {spent : Nat}

theorem length_le_nameBytes (h : ∀ file ∈ m.files, file.name.isEmpty = false) :
    m.files.length ≤ m.nameBytes := by
  unfold nameBytes
  generalize m.files = files at h
  induction files with
  | nil => exact Nat.le_refl 0
  | cons file files ih =>
      obtain ⟨hfile, hfiles⟩ := List.forall_mem_cons.mp h
      have hpos : 0 < file.name.utf8ByteSize := by
        refine Nat.pos_of_ne_zero fun hzero => ?_
        rw [String.utf8ByteSize_eq_zero_iff.mp hzero] at hfile
        cases hfile
      rw [List.map_cons, List.sum_cons, List.length_cons]
      have hrest := ih hfiles
      omega

theorem Table.mono (h : m.Table spent) {spent' : Nat} (hle : spent ≤ spent') : m.Table spent' :=
  { h with paid := Nat.le_trans h.paid hle }

/-- The file of an annotation is known or gets the next number. -/
theorem fileId_spec (h : m.Table spent) {name : String} (hname : name.isEmpty = false)
    (hnul : name.toList.contains '\x00' = false) :
    let file := m.fileId name
    file.1 ∈ file.2.map SourceFile.id ∧
      (∀ f ∈ file.2, f.name.isEmpty = false ∧ f.name.toList.contains '\x00' = false) ∧
      file.2.map SourceFile.id = (List.range file.2.length).map UInt32.ofNat ∧
      (∀ id ∈ m.files.map SourceFile.id, id ∈ file.2.map SourceFile.id) ∧
      (file.2.length = m.files.length ∨ file.2.length = m.files.length + 1) := by
  unfold fileId
  cases hfind : m.files.find? (·.name = name) with
  | some file =>
      exact ⟨List.mem_map_of_mem (List.mem_of_find?_eq_some hfind), h.names, h.ids,
        fun _ hid => hid, Or.inl rfl⟩
  | none =>
      simp only [List.map_append, List.length_append, List.length_singleton, List.map_cons,
        List.map_nil]
      refine ⟨List.mem_append_right _ List.mem_cons_self, ?_, ?_,
        fun _ hid => List.mem_append_left _ hid, Or.inr trivial⟩
      · intro f hf
        rcases List.mem_append.mp hf with hf | hf
        · exact h.names f hf
        · rw [List.mem_singleton.mp hf]
          exact ⟨hname, hnul⟩
      · rw [h.ids, List.range_succ, List.map_append]
        rfl

/-- An annotation keeps the table when its work covers one more file. -/
theorem Table.addFrontendOriginal (h : m.Table spent) {a : SourceAnnotation} (ha : a.Checked)
    {spent' : Nat} (hspent : spent + 1 + m.files.length + m.nameBytes + a.fileBytes ≤ spent') :
    (m.addFrontendOriginal a).Table spent' ∧
      a.id ∈ (m.addFrontendOriginal a).originals.map OriginalNode.id ∧
      (m.addFrontendOriginal a).mappings = m.mappings := by
  have hle : spent ≤ spent' := by omega
  unfold SourceMetadata.addFrontendOriginal
  by_cases hknown : m.originals.any (fun node => node.id = a.id) = true
  · rw [if_pos hknown]
    obtain ⟨node, hnode, hid⟩ := List.any_eq_true.mp hknown
    refine ⟨h.mono hle, ?_, rfl⟩
    rw [← of_decide_eq_true hid]
    exact List.mem_map_of_mem hnode
  · rw [if_neg hknown]
    have hnew : a.id ∉ m.originals.map OriginalNode.id := by
      intro hmem
      obtain ⟨node, hnode, hid⟩ := List.mem_map.mp hmem
      exact hknown (List.any_eq_true.mpr ⟨node, hnode, decide_eq_true hid⟩)
    have hnodup : ∀ span : Option SourceSpan,
        ((m.originals ++ [OriginalNode.mk a.id span]).map OriginalNode.id).Nodup := by
      intro span
      rw [List.map_append]
      refine List.nodup_append.mpr ⟨h.originals, List.nodup_singleton _, ?_⟩
      rintro id hid id' hid' rfl
      rw [List.mem_singleton.mp hid'] at hid
      exact hnew hid
    have hmem : ∀ span : Option SourceSpan,
        a.id ∈ (m.originals ++ [OriginalNode.mk a.id span]).map OriginalNode.id := by
      intro span
      rw [List.map_append]
      exact List.mem_append_right _ List.mem_cons_self
    have hstill : ∀ span : Option SourceSpan, ∀ mapping ∈ m.mappings,
        mapping.original ∈ (m.originals ++ [OriginalNode.mk a.id span]).map OriginalNode.id := by
      intro span mapping hmapping
      rw [List.map_append]
      exact List.mem_append_left _ (h.known mapping hmapping)
    cases hsource : a.source with
    | none =>
        refine ⟨⟨h.names, h.ids, hnodup _, ?_, hstill _, Nat.le_trans h.paid hle⟩, hmem _, rfl⟩
        intro node hnode span hspan
        rcases List.mem_append.mp hnode with hnode | hnode
        · exact h.spans node hnode span hspan
        · rw [List.mem_singleton.mp hnode] at hspan
          cases hspan
    | some s =>
        have hgood := ha s hsource
        simp only [badSource, Bool.or_eq_false_iff, beq_eq_false_iff_ne, ne_eq,
          decide_eq_false_iff_not] at hgood
        obtain ⟨⟨⟨⟨⟨⟨hname, hnul⟩, hline⟩, hcolumn⟩, hendLine⟩, hendColumn⟩, horder⟩ := hgood
        obtain ⟨hfile, hnames, hids, hkept, hlength⟩ := fileId_spec h hname hnul
        refine ⟨⟨hnames, hids, hnodup _, ?_, hstill _, ?_⟩, hmem _, rfl⟩
        · intro node hnode span hspan
          rcases List.mem_append.mp hnode with hnode | hnode
          · obtain ⟨hin, hvalid⟩ := h.spans node hnode span hspan
            exact ⟨hkept _ hin, hvalid⟩
          · rw [List.mem_singleton.mp hnode] at hspan
            cases hspan
            refine ⟨hfile, ?_⟩
            unfold SourceSpan.valid
            rw [decide_eq_true_eq]
            have hpos : ∀ n : UInt32, ¬ n = 0 → 0 < n := fun n hn => UInt32.pos_iff_ne_zero.mpr hn
            refine ⟨hpos _ hline, hpos _ hcolumn, hpos _ hendLine, hpos _ hendColumn, ?_⟩
            obtain ⟨hle, hsame⟩ := not_or.mp horder
            rcases UInt32.lt_or_eq_of_le (UInt32.not_lt.mp hle) with hlt | heq
            · exact Or.inl hlt
            · exact Or.inr ⟨heq, UInt32.not_lt.mp fun hlt => hsame ⟨heq, hlt⟩⟩
        · have hbytes : 1 ≤ a.fileBytes := by
            unfold SourceAnnotation.fileBytes
            rw [hsource]
            refine Nat.pos_of_ne_zero fun hzero => ?_
            rw [String.utf8ByteSize_eq_zero_iff.mp hzero] at hname
            cases hname
          have hnameBytes := length_le_nameBytes fun file hf => (h.names file hf).1
          have hpaid := h.paid
          show (m.fileId s.file).2.length * ((m.fileId s.file).2.length + 1) ≤ spent'
          rcases hlength with hlength | hlength
          · rw [hlength]
            omega
          · rw [hlength]
            have hnext : (m.files.length + 1) * (m.files.length + 1 + 1) =
                m.files.length * (m.files.length + 1) + 2 * m.files.length + 2 := by ring
            omega

end SourceMetadata

/-! ## One operation -/

theorem chargeSourceWork_ok {s s' : SourceBuilder} {amount : Nat}
    (h : s.chargeSourceWork amount = .ok s') :
    amount ≤ s.sourceWork ∧ s' = { s with sourceWork := s.sourceWork - amount } := by
  unfold SourceBuilder.chargeSourceWork at h
  split at h
  · rename_i hle
    cases h
    exact ⟨hle, rfl⟩
  · cases h

/-- What holds of a builder with source mappings, of the total work `total`. -/
structure SourceState.Inv (total : Nat) (s : SourceState) (m : Marks) : Prop where
  constructing : Constructing s.builder.fb
  mapped : Mapped s.builder.fb m
  checkpoints : List.Forall₂ (Checkpointed s.builder.fb) s.checkpoints m.before
  work : s.builder.sourceWork ≤ total
  table : s.builder.sources.Table (total - s.builder.sourceWork)

theorem SourceMetadata.Table.flush {fb : FunctionBuilder} {spent : Nat}
    (h : fb.mb.module.sources.Table spent) : fb.flushed.module.sources.Table spent := by
  have hf := flushed_spec fb
  obtain ⟨names, ids, originals, spans, known, paid⟩ := h
  have hknown : ∀ mapping ∈ fb.flushed.module.sources.mappings,
      mapping.original ∈ fb.mb.module.sources.originals.map OriginalNode.id := by
    intro mapping hmapping
    have hmem := List.mem_map_of_mem (f := SourceMapping.original) hmapping
    rw [hf.known] at hmem
    obtain ⟨mapping', hmapping', heq⟩ := List.mem_map.mp hmem
    rw [← heq]
    exact known mapping' hmapping'
  rw [← hf.files] at names ids paid
  rw [← hf.files, ← hf.originals] at spans
  rw [← hf.originals] at originals hknown
  exact ⟨names, ids, originals, spans, hknown, paid⟩

namespace SourceState.Inv

variable {total : Nat} {s s' : SourceState} {m : Marks}

theorem emit (h : s.Inv total m) {op : FunctionOp} {fb : FunctionBuilder} {u : Unit}
    (hrun : op.run s.builder.fb = .ok u fb) (hbound : fb.mb.nextBlock ≤ 2 ^ 32) :
    Inv total { s with builder := { s.builder with fb := fb } }
      (m.move (op.moves s.builder.fb)) := by
  obtain ⟨e, he, hhoist⟩ := edits_functionOp op s.builder.fb u fb hrun
  have hmoves : op.moves s.builder.fb = e.moves s.builder.fb := by
    funext t
    rw [FunctionOp.moves, Edit.moves, hhoist]
  rw [hmoves]
  have h' := h.constructing.effect he hbound
  refine ⟨h', ?_, ?_, h.work, ?_⟩
  · cases e with
    | hoist ins => exact h.mapped.effect_hoist h.constructing he h'
    | _ => exact h.mapped.effect_stay h.constructing he h' rfl
  · refine List.forall₂_map_right_iff.mpr (h.checkpoints.imp fun _ _ hc => ?_)
    exact hc.effect h.constructing he h'
  · show fb.mb.module.sources.Table _
    rw [he.module]
    exact h.table

theorem flush (h : s.Inv total m) :
    Inv total { s with builder := s.builder.flushSourceShifts } m where
  constructing := h.constructing.same (functions_flush _) rfl (flushed_spec _).nextBlock
  mapped := h.mapped.flush
  checkpoints := h.checkpoints.imp fun _ _ hc => hc.same (functions_flush _) rfl
  work := h.work
  table := h.table.flush

/-- Work that is spent stays spent. -/
theorem charge (h : s.Inv total m) {builder : SourceBuilder} {amount : Nat}
    (hcharge : s.builder.chargeSourceWork amount = .ok builder) :
    Inv total { s with builder := builder } m := by
  obtain ⟨-, rfl⟩ := chargeSourceWork_ok hcharge
  exact ⟨h.constructing, h.mapped, h.checkpoints, (Nat.sub_le _ _).trans h.work,
    h.table.mono (by dsimp only; omega)⟩

theorem checkpoint (h : s.Inv total m) {taken : SourceCheckpoint} {builder : SourceBuilder}
    (hrun : s.builder.sourceCheckpoint = .ok (taken, builder)) :
    Inv total ⟨builder, taken :: s.checkpoints⟩
      { m with before := s.builder.fb.func.targets :: m.before } := by
  obtain ⟨b₁, hfirst, h₁⟩ := bind_ok_iff.mp hrun
  obtain ⟨b₂, hsecond, h₂⟩ := bind_ok_iff.mp h₁
  cases h₂
  have hinv := ((h.charge hfirst).charge hsecond).flush
  have hfb : b₂.fb = s.builder.fb := by
    rw [(chargeSourceWork_ok hsecond).2, (chargeSourceWork_ok hfirst).2]
  refine ⟨hinv.constructing, ?_, .cons ?_ hinv.checkpoints, hinv.work, hinv.table⟩
  · exact { hinv.mapped with }
  · rw [← hfb]
    exact Checkpointed.take hinv.constructing

theorem annotate (h : s.Inv total m) {note : SourceAnnotation} (ha : note.Checked)
    {before : SourceCheckpoint} {old : List SourceTarget}
    (hc : Checkpointed s.builder.fb before old) {builder : SourceBuilder}
    (hrun : s.builder.annotateSource note before = .ok builder) :
    Inv total { s with builder := builder }
      { m with records := m.records ++ m.recorded s.builder.fb.func old note.id } := by
  obtain ⟨b₁, hfirst, h₁⟩ := bind_ok_iff.mp hrun
  obtain ⟨b₂, hsecond, h₂⟩ := bind_ok_iff.mp h₁
  cases h₂
  obtain ⟨hle₁, rfl⟩ := chargeSourceWork_ok hfirst
  obtain ⟨hle₂, rfl⟩ := chargeSourceWork_ok hsecond
  have hflush := h.flush
  have hspec := flushed_spec s.builder.fb
  have hcheckpoint : Checkpointed s.builder.fb.flush before old :=
    hc.same (functions_flush _) rfl
  have hblocks : 0 < s.builder.fb.func.blocks.length := by
    obtain ⟨b, hb, -⟩ := h.constructing.entry
    exact List.length_pos_of_mem hb
  have hwork := h.work
  have hfiles : s.builder.fb.flushed.module.sources.files = s.builder.sources.files := hspec.files
  have hbytes : s.builder.fb.flushed.module.sources.nameBytes = s.builder.sources.nameBytes := by
    unfold SourceMetadata.nameBytes
    rw [hfiles]
  have hspent : total - s.builder.sourceWork + 1 +
      s.builder.fb.flushed.module.sources.files.length +
      s.builder.fb.flushed.module.sources.nameBytes + note.fileBytes ≤
      total - (s.builder.sourceWork -
        (s.builder.fb.func.blocks.length + s.builder.sources.files.length) -
        (s.builder.fb.func.instructionCount + s.builder.sources.mappings.length +
          s.builder.sources.originals.length + s.builder.sources.nameBytes +
          note.fileBytes)) := by
    rw [hfiles, hbytes]
    simp only [SourceBuilder.sources] at hle₁ hle₂ hblocks hwork ⊢
    omega
  obtain ⟨htable, hid, hmappings⟩ :=
    SourceMetadata.Table.addFrontendOriginal (m := s.builder.fb.flushed.module.sources)
      hflush.table ha hspent
  have hcovered := hflush.mapped.covered_eq hspec.shift hcheckpoint
  refine ⟨hflush.constructing.same rfl rfl rfl, ?_, ?_, ?_, ?_⟩
  · refine hflush.mapped.annotate hflush.constructing hspec.shift ?_ _
    rw [← hcovered]
    exact congrArg (fun mappings : List SourceMapping => mappings ++
      ((s.builder.fb.func.blocks.flatMap (newTargets s.builder.fb.func before)).filter
        (· ∉ mappings.map SourceMapping.target)).map (⟨·, note.id⟩)) hmappings
  · exact h.checkpoints.imp fun _ _ hc => hc.same (functions_flush _) rfl
  · show s.builder.sourceWork - _ - _ ≤ total
    omega
  · refine ⟨htable.names, htable.ids, htable.originals, htable.spans, ?_, htable.paid⟩
    intro mapping hmapping
    rcases List.mem_append.mp hmapping with hmapping | hmapping
    · exact htable.known mapping hmapping
    · obtain ⟨t, -, rfl⟩ := List.mem_map.mp hmapping
      exact hid

end SourceState.Inv

end Whale
