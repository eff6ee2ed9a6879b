import Whale.Verifier.Error

set_option autoImplicit false

/-! # Validation of source metadata

Files, original nodes and mappings are checked in this order; each loop collects the identities
it has seen. -/

namespace Whale

def SourceSpan.valid (s : SourceSpan) : Bool :=
  decide (0 < s.line ∧ 0 < s.column ∧ 0 < s.endLine ∧ 0 < s.endColumn ∧
    (s.line < s.endLine ∨ s.line = s.endLine ∧ s.column ≤ s.endColumn))

/-- The blocks of all functions by function and block. -/
def blockTable (functions : List Function) : List ((FunctionId × BlockId) × BasicBlock) :=
  functions.flatMap fun f => f.blocks.map fun b => ((f.id, b.id), b)

/-- The block that a target names. -/
def blockAt (functions : List Function) (function : FunctionId) (block : BlockId) :
    Option BasicBlock :=
  (AssocMap.extend [] (blockTable functions)).get (function, block)

/-- The target names an operation or a global. -/
def SourceTarget.exists (functions : List Function) (globals : List GlobalId) :
    SourceTarget → Bool
  | .instruction function block index =>
      (blockAt functions function block).any fun b => index < b.instructions.length
  | .terminator function block =>
      (blockAt functions function block).any fun b => b.terminator.isSome
  | .global id => globals.contains id

def checkFile (files : List UInt32) (file : SourceFile) :
    Except SourceMetadataError (List UInt32) := do
  require (¬ (file.name.isEmpty = true ∨ file.name.toList.contains '\x00' = true ∨
    file.id ∈ files)) (SourceMetadataError.mk "invalid or duplicate source file")
  return file.id :: files

def checkOriginal (files : List UInt32) (nodes : List UInt64) (node : OriginalNode) :
    Except SourceMetadataError (List UInt64) := do
  require (node.id ∉ nodes) (SourceMetadataError.mk "duplicate original node identity")
  match node.span with
  | none => return node.id :: nodes
  | some span => do
      require (span.file ∈ files ∧ span.valid = true)
        (SourceMetadataError.mk "invalid original source span")
      return node.id :: nodes

def checkMapping (nodes : List UInt64) (functions : List Function) (globals : List GlobalId)
    (targets : List SourceTarget) (mapping : SourceMapping) :
    Except SourceMetadataError (List SourceTarget) := do
  require (mapping.original ∈ nodes ∧ mapping.target ∉ targets)
    (SourceMetadataError.mk "unknown original node or duplicate source mapping")
  require (mapping.target.exists functions globals = true)
    (SourceMetadataError.mk "source mapping targets a missing IR operation")
  return mapping.target :: targets

/-- The globals of a module, constants first. -/
def Module.globalIds (m : Module) : List GlobalId :=
  m.globals.map Global.id ++ m.globalStorage.map GlobalStorage.id

def SourceMetadata.validate (s : SourceMetadata) (m : Module) : Except SourceMetadataError Unit :=
  if s.files = [] ∧ s.originals = [] ∧ s.mappings = [] then .ok ()
  else do
    let files ← s.files.foldlM checkFile []
    let nodes ← s.originals.foldlM (checkOriginal files) []
    let _ ← s.mappings.foldlM (checkMapping nodes m.functions m.globalIds) []
    return ()

/-! ## What it accepts -/

/-- What validation asks for. -/
structure SourceMetadata.Valid (s : SourceMetadata) (m : Module) : Prop where
  fileNames : ∀ file ∈ s.files, file.name.isEmpty = false ∧
    file.name.toList.contains '\x00' = false
  files : (s.files.map SourceFile.id).Nodup
  originals : (s.originals.map OriginalNode.id).Nodup
  spans : ∀ node ∈ s.originals, ∀ span, node.span = some span →
    span.file ∈ s.files.map SourceFile.id ∧ span.valid = true
  targets : (s.mappings.map SourceMapping.target).Nodup
  known : ∀ mapping ∈ s.mappings, mapping.original ∈ s.originals.map OriginalNode.id ∧
    mapping.target.exists m.functions m.globalIds = true

/-- A loop that collects keys takes elements with new keys. -/
theorem foldlM_collect {α κ ε : Type} {step : List κ → α → Except ε (List κ)} {key : α → κ}
    {xs : List α} {seen : List κ} (hnodup : (xs.map key).Nodup) (hfresh : ∀ x ∈ xs, key x ∉ seen)
    (hstep : ∀ seen, ∀ x ∈ xs, key x ∉ seen → step seen x = .ok (key x :: seen)) :
    xs.foldlM step seen = .ok ((xs.map key).reverse ++ seen) := by
  induction xs generalizing seen with
  | nil => rfl
  | cons x xs ih =>
      obtain ⟨hnew, hnodup⟩ := List.nodup_cons.mp hnodup
      obtain ⟨hx, hfresh⟩ := List.forall_mem_cons.mp hfresh
      rw [List.foldlM_cons, hstep seen x List.mem_cons_self hx, ok_bind]
      rw [ih hnodup (fun y hy hmem => ?_) fun seen y hy => hstep seen y (List.mem_cons_of_mem _ hy)]
      · rw [List.map_cons, List.reverse_cons, List.append_assoc]
        rfl
      · rcases List.mem_cons.mp hmem with heq | hmem
        · exact hnew (heq ▸ List.mem_map_of_mem hy)
        · exact hfresh y hy hmem

theorem SourceMetadata.Valid.validate {s : SourceMetadata} {m : Module} (h : s.Valid m) :
    s.validate m = .ok () := by
  have hfiles : s.files.foldlM checkFile [] = .ok (s.files.map SourceFile.id).reverse := by
    rw [foldlM_collect h.files (fun _ _ => List.not_mem_nil) fun seen file hfile hnew => ?_,
      List.append_nil]
    obtain ⟨hname, hnul⟩ := h.fileNames file hfile
    unfold checkFile
    rw [require_of (by simp only [hname, hnul]; simpa using hnew)]
    rfl
  have hnodes : s.originals.foldlM (checkOriginal (s.files.map SourceFile.id).reverse) [] =
      .ok (s.originals.map OriginalNode.id).reverse := by
    rw [foldlM_collect h.originals (fun _ _ => List.not_mem_nil) fun seen node hnode hnew => ?_,
      List.append_nil]
    unfold checkOriginal
    rw [require_of hnew, ok_bind]
    cases hspan : node.span with
    | none => rfl
    | some span =>
        obtain ⟨hfile, hvalid⟩ := h.spans node hnode span hspan
        simp only
        rw [require_of ⟨List.mem_reverse.mpr hfile, hvalid⟩]
        rfl
  have hmappings : s.mappings.foldlM (checkMapping (s.originals.map OriginalNode.id).reverse
      m.functions m.globalIds) [] = .ok (s.mappings.map SourceMapping.target).reverse := by
    rw [foldlM_collect h.targets (fun _ _ => List.not_mem_nil) fun seen mapping hmapping hnew => ?_,
      List.append_nil]
    obtain ⟨hknown, hexists⟩ := h.known mapping hmapping
    unfold checkMapping
    rw [require_of ⟨List.mem_reverse.mpr hknown, hnew⟩, ok_bind, require_of hexists]
    rfl
  unfold SourceMetadata.validate
  split
  · rfl
  · rw [hfiles, ok_bind, hnodes, ok_bind, hmappings]
    rfl

end Whale
