import Whale.Assembler.Amd64.WellFormed
import Whale.Lib.Region

set_option autoImplicit false

/-! # Branches reach their labels

The last pass has its own layout as its hint, so that a branch is encoded with the place where it
stands and the place where its label is. Nothing that follows moves or changes its bytes: later
nodes only add bytes, and a `loop` only sets its own displacement. -/

namespace Whale.Assembler.Amd64

/-- The opcodes of a branch to a label, each with the width of its displacement. -/
def branchForms (mnemonic : String) : List (List UInt8 × Nat) :=
  match familyOf mnemonic with
  | some (.branch spec) | some (.condition spec) =>
      (spec.nearOpcode, 4) :: (spec.shortOpcode.map fun opcode => ([opcode], 1)).toList
  | some .loop => [([0xe2], 1)]
  | _ => []

/-- From `start` to `stop` stands a branch to `target`: its displacement counts from its end. -/
def BranchAt (forms : List (List UInt8 × Nat)) (data : List UInt8) (start stop target : Nat) :
    Prop :=
  ∃ opcode field, (opcode, field.length) ∈ forms ∧ Holds data start (opcode ++ field) ∧
    start + (opcode ++ field).length = stop ∧ (target : Int) = stop + signedValue field

/-! ## The encoded branch -/

/-- The code of a branch to a place in its own section; the displacement of a `loop` is missing. -/
def BranchCode (forms : List (List UInt8 × Nat)) (label : String) (offset target : Nat) (c : Code) :
    Prop :=
  (∃ opcode field, (opcode, field.length) ∈ forms ∧ c = ⟨opcode ++ field, []⟩ ∧
    (target : Int) = (offset + (opcode ++ field).length : Nat) + signedValue field) ∨
  (([0xe2], 1) ∈ forms ∧ c = ⟨[0xe2, 0], [⟨1, label, .relative8, -1⟩]⟩)

theorem signedValue_lowByte {z : Int} (h : inI8 z) : signedValue [lowByte z] = z :=
  signedValue_leInt (n := 1) (by unfold inI8 at h; omega) (by unfold inI8 at h; omega)

variable {ins : Instruction} {operand : Operand} {label : String} {addend : Int}
  {relaxation : BranchRelaxation} {section' offset target : Nat} {labels : LabelLocations} {c : Code}

theorem encodeJump_code {spec : JumpSpec} (hnear : spec.nearLen = spec.nearOpcode.length + 4)
    (hoperands : ins.operands = [operand]) (hlabel : symbolOperand operand = some (label, addend))
    (htarget : labels.get label = some (section', target))
    (h : encodeJump ins spec relaxation Code.empty section' offset labels = .ok c)
    (hprevious : relaxation.previousLen = c.bytes.length) :
    BranchCode ((spec.nearOpcode, 4) :: (spec.shortOpcode.map fun opcode => ([opcode], 1)).toList)
      label offset target c := by
  unfold encodeJump at h
  simp only [hoperands, hlabel, orThrow_some, ok_bind, htarget, Option.filter_some, decide_true,
    if_true] at h
  obtain ⟨-, h⟩ := require_then_ok_iff.mp h
  split at h
  · rename_i opcode disp hshort
    cases h
    obtain ⟨_, hopcode, hshort⟩ := Option.bind_eq_some_iff.mp hshort
    obtain ⟨hopcode, -⟩ := Option.filter_eq_some_iff.mp hopcode
    -- The branch was short before, so that it does not shrink.
    have hshrink : relaxation.previousLen - 2 = 0 := by rw [hprevious]; rfl
    simp only [hshrink, ite_self] at hshort
    split at hshort
    · rename_i hfits
      cases hshort
      refine .inl ⟨[opcode], [_], by simp [hopcode], rfl, ?_⟩
      rw [signedValue_lowByte hfits]
      simp only [List.length_append, List.length_singleton]
      omega
    · cases hshort
  · obtain ⟨hfits, h⟩ := require_then_ok_iff.mp h
    cases h
    refine .inl ⟨spec.nearOpcode, leInt 4 _, by simp, rfl, ?_⟩
    unfold inI32 at hfits
    rw [signedValue_leInt (by omega) (by omega), List.length_append, length_leInt, ← hnear]
    omega

theorem encodeInstruction_code (hforms : branchForms ins.mnemonic ≠ [])
    (hoperands : ins.operands = [operand]) (hlabel : symbolOperand operand = some (label, addend))
    (htarget : labels.get label = some (section', target))
    (h : encodeInstruction ins Code.empty section' offset labels relaxation = .ok c)
    (hprevious : relaxation.previousLen = c.bytes.length) :
    BranchCode (branchForms ins.mnemonic) label offset target c := by
  unfold branchForms at hforms ⊢
  unfold encodeInstruction at h
  split at h
  case h_16 spec hfamily =>
    have hdirect : isIndirect ins = false := by
      unfold isIndirect
      rw [hoperands]
      cases operand <;> first | rfl | cases hlabel
    simp only [hdirect, Bool.false_eq_true, if_false] at h
    rw [hfamily]
    refine encodeJump_code ?_ hoperands hlabel htarget h hprevious
    rcases familyOf_branch hfamily with ⟨-, rfl⟩ | ⟨-, rfl⟩ <;> rfl
  case h_17 spec hfamily =>
    rw [hfamily]
    refine encodeJump_code ?_ hoperands hlabel htarget h hprevious
    obtain ⟨condition, -, rfl⟩ := familyOf_condition hfamily
    rfl
  case h_18 hfamily =>
    unfold encodeLoop at h
    simp only [hoperands, hlabel, orThrow_some, ok_bind] at h
    obtain ⟨-, h⟩ := require_then_ok_iff.mp h
    cases h
    rw [hfamily]
    exact .inr ⟨List.mem_singleton_self _, rfl⟩
  all_goals
    rename_i hfamily
    simp only [hfamily] at hforms
    exact absurd rfl hforms

/-! ## The rest of the pass -/

variable {p : PassInput} {s s' : PassState} {limits : AssemblyLimits}

/-- Bytes and relocations are only added behind those of a section. -/
def Stays (s s' : PassState) : Prop :=
  ∀ (i : Nat) (sec : AsmSection), s.sections[i]? = some sec → ∃ sec', s'.sections[i]? = some sec' ∧
    Extends ⟨sec.data, sec.relocs⟩ ⟨sec'.data, sec'.relocs⟩

/-- The labels have the places of their symbols. -/
def SymbolsPlaced (s : PassState) : Prop :=
  ∀ sym ∈ s.symbols, ∀ i, sym.sectionIndex = some i →
    s.labelLocs.get sym.name = some (i, sym.offset)

theorem stays_of_eq (h : s'.sections = s.sections) : Stays s s' :=
  fun i sec hsec => ⟨sec, by rw [h, hsec], .refl _⟩

theorem stays_set (h : s.WellFormed limits) {sec : AsmSection}
    (hsections : s'.sections = s.sections.set s.currentSection sec)
    (hextends : Extends ⟨s.section'.data, s.section'.relocs⟩ ⟨sec.data, sec.relocs⟩) :
    Stays s s' := by
  intro i old hold
  rw [hsections]
  by_cases hi : s.currentSection = i
  · subst hi
    rw [h.getElem?_current] at hold
    cases hold
    exact ⟨sec, List.getElem?_set_self h.current, hextends⟩
  · exact ⟨old, (List.getElem?_set_ne hi).trans hold, .refl _⟩

theorem aligned_extends (s : PassState) (alignment : Nat) :
    Extends ⟨s.section'.data, s.section'.relocs⟩
      ⟨(aligned s alignment).data, (aligned s alignment).relocs⟩ := by
  unfold aligned
  by_cases hkind : s.section'.kind = .bss
  · rw [if_pos hkind]
    exact .refl _
  · rw [if_neg hkind]
    exact extends_extend _ _

theorem instruction_extends {inst : Instruction} {c : Code} (h : Emission inst c) (before : Code) :
    Extends before ⟨before.bytes ++ c.bytes, before.relocs ++ c.relocs.map fun reloc =>
      { reloc with offset := reloc.offset + before.bytes.length }⟩ where
  bytes := List.prefix_append _ _
  fields := h.fields.append
  kept := List.subset_append_left _ _
  later reloc hreloc := by
    refine (List.mem_append.mp hreloc).imp_right fun hreloc => ?_
    obtain ⟨old, -, rfl⟩ := List.mem_map.mp hreloc
    exact Nat.le_add_left _ _

theorem encodeNode_stays {node : AstNode} {index : Nat} (h : s.WellFormed p.limits)
    (hs : encodeNode p s node index = .ok s') :
    Stays s s' ∧ (SymbolsPlaced s → SymbolsPlaced s') := by
  cases node with
  | const =>
      cases hs
      exact ⟨stays_of_eq rfl, id⟩
  | «section» name | sectionAttributes name kind =>
      rcases enterSection_ok hs with ⟨idx, -, rfl⟩ | ⟨-, rfl⟩
      · exact ⟨stays_of_eq rfl, id⟩
      · refine ⟨fun i sec hsec => ⟨sec, ?_, .refl _⟩, id⟩
        exact (List.getElem?_append_left (List.getElem?_eq_some_iff.mp hsec).1).trans hsec
  | «global» name =>
      obtain ⟨_, -, rfl⟩ := declareGlobal_ok hs
      exact ⟨stays_of_eq rfl, id⟩
  | external name =>
      obtain ⟨resolved, -, -, ⟨-, rfl⟩ | ⟨-, rfl⟩⟩ := declareExtern_ok hs
      · exact ⟨stays_of_eq rfl, id⟩
      · refine ⟨stays_of_eq rfl, fun hplaced sym hsym i hi => ?_⟩
        rcases List.mem_append.mp hsym with hsym | hsym
        · exact hplaced sym hsym i hi
        · cases List.mem_singleton.mp hsym
          cases hi
  | symbolMetadata name kind size visibility =>
      obtain ⟨_, _, -, -, rfl⟩ := recordMetadata_ok hs
      exact ⟨stays_of_eq rfl, id⟩
  | label name =>
      obtain ⟨resolved, -, hdeclared, hnew, -, rfl⟩ := defineLabel_ok hs
      refine ⟨stays_of_eq rfl, fun hplaced sym hsym i hi => ?_⟩
      rcases List.mem_append.mp hsym with hsym | hsym
      · have hne : sym.name ≠ resolved := by
          intro heq
          have hmem := (h.declared _).mp (List.mem_map_of_mem hsym)
          rw [heq] at hmem
          exact hmem.elim hnew hdeclared
        exact (AssocMap.get_insert_ne hne _ _).trans (hplaced sym hsym i hi)
      · cases List.mem_singleton.mp hsym
        cases hi
        exact AssocMap.get_insert_self _ _ _
  | instruction ins =>
      obtain ⟨inst, code, -, -, hcode, -, -, rfl⟩ := placeInstruction_ok hs
      exact ⟨stays_set h rfl (instruction_extends (encodeInstruction_emission hcode) _), id⟩
  | directive dir =>
      obtain ⟨named, -, ⟨-, hs⟩ | ⟨-, -, _, hsec, rfl⟩ | ⟨-, -, _, _, -, hcode, -, -, rfl⟩⟩ :=
        placeDirective_ok hs
      · obtain ⟨_, _, -, rfl, -⟩ := placeAlignment_ok hs
        exact ⟨stays_set h rfl (aligned_extends s _), id⟩
      · obtain ⟨_, -, -, rfl⟩ := encodeBssDirective_ok hsec
        exact ⟨stays_set h rfl (.refl _), id⟩
      · exact ⟨stays_set h rfl (encodeDirective_extends hcode), id⟩

theorem run_stays {nodes : List (AstNode × Nat)} (h : s.WellFormed p.limits)
    (hs : nodes.foldlM (passStep p) s = .ok s') :
    Stays s s' ∧ (SymbolsPlaced s → SymbolsPlaced s') := by
  refine (foldlM_inv (P := fun t => t.WellFormed p.limits ∧ Stays s t ∧
    (SymbolsPlaced s → SymbolsPlaced t)) ?_ ⟨h, stays_of_eq rfl, id⟩ hs).2
  rintro t e t' ⟨ht, hstays, hplaced⟩ hstep
  obtain ⟨next, sites, hnext, rfl⟩ := passStep_ok hstep
  obtain ⟨hstays', hplaced'⟩ := encodeNode_stays ht hnext
  refine ⟨{ encodeNode_wellFormed ht hnext with }, fun i sec hsec => ?_, hplaced' ∘ hplaced⟩
  obtain ⟨sec', hsec', hextends⟩ := hstays i sec hsec
  obtain ⟨sec'', hsec'', hextends'⟩ := hstays' i sec' hsec'
  exact ⟨sec'', hsec'', hextends.trans hextends'⟩

/-! ## Loops -/

variable {pass : EncodingPass} {ast : Ast}

/-- Where the displacement of a relocation leads, when it is one of a `loop` in its section. -/
def loopTarget (pass : EncodingPass) (index : Nat) (r : Relocation) : Option Nat :=
  ((pass.layout.labels.get r.symbol).filter fun target =>
    decide (r.kind = .relative8 ∧ target.1 = index)).map Prod.snd

/-- A byte is set by a `loop` whose field it is, or it stays. -/
theorem resolveLoop_byte {index k : Nat} {es : List (Relocation × Nat)}
    {state state' : List UInt8 × List Relocation} (hk : k < state.1.length)
    (h : es.foldlM (resolveLoop pass ast index) state = .ok state') :
    (state'.1[k]? = state.1[k]? ∧ ∀ e ∈ es, e.1.offset = k → loopTarget pass index e.1 = none) ∨
      ∃ e ∈ es, ∃ target, e.1.offset = k ∧ loopTarget pass index e.1 = some target ∧
        inI8 (target - k + e.1.addend) ∧
        state'.1[k]? = some (lowByte (target - k + e.1.addend)) := by
  induction es generalizing state with
  | nil =>
      cases h
      exact .inl ⟨rfl, nofun⟩
  | cons e es ih =>
      obtain ⟨next, hnext, h⟩ := foldlM_cons_ok.mp h
      unfold resolveLoop at hnext
      split at hnext
      · rename_i owner offset hfilter
        obtain ⟨hfits, hnext⟩ := require_then_ok_iff.mp hnext
        cases hnext
        have htarget : loopTarget pass index e.1 = some offset := by
          unfold loopTarget
          rw [hfilter]
          rfl
        rcases ih (by simpa using hk) h with ⟨hbyte, hnone⟩ | ⟨e', he', hset⟩
        · by_cases hoffset : e.1.offset = k
          · subst hoffset
            refine .inr ⟨e, List.mem_cons_self, offset, rfl, htarget, hfits, ?_⟩
            rw [hbyte]
            exact List.getElem?_set_self hk
          · refine .inl ⟨hbyte.trans (List.getElem?_set_ne hoffset), fun e' he' => ?_⟩
            rcases List.mem_cons.mp he' with rfl | he'
            · exact fun heq => absurd heq hoffset
            · exact hnone e' he'
        · exact .inr ⟨e', List.mem_cons_of_mem _ he', hset⟩
      · rename_i hfilter
        cases hnext
        rcases @ih (state.1, state.2 ++ [e.1]) hk h with ⟨hbyte, hnone⟩ | ⟨e', he', hset⟩
        · refine .inl ⟨hbyte, List.forall_mem_cons.mpr ⟨fun _ => ?_, hnone⟩⟩
          unfold loopTarget
          rw [hfilter]
          rfl
        · exact .inr ⟨e', List.mem_cons_of_mem _ he', hset⟩

theorem resolveLoops_section {out : AssemblerOutput} (h : resolveLoops ast pass = .ok out) {i : Nat}
    {sec : AsmSection} (hsec : pass.output.sections[i]? = some sec) : ∃ state,
      sec.relocs.zipIdx.foldlM (resolveLoop pass ast i) (sec.data, []) = .ok state ∧
        out.sections[i]? = some { sec with data := state.1, relocs := state.2 } := by
  obtain ⟨sections, hsections, h⟩ := bind_ok_iff.mp h
  cases h
  have hentry : pass.output.sections.zipIdx[i]? = some (sec, i) := by
    rw [List.getElem?_zipIdx, hsec, Option.map_some, Nat.zero_add]
  obtain ⟨sec', hsec', hrun⟩ := forall₂_getElem? (mapM_ok hsections) hentry
  obtain ⟨state, hstate, hrun⟩ := bind_ok_iff.mp hrun
  cases hrun
  exact ⟨state, hstate, hsec'⟩

/-- The final bytes of a branch, given the bytes and the relocations behind the last pass. -/
theorem branchAt_of_code {sec : AsmSection} {state : List UInt8 × List Relocation} {i start : Nat}
    {forms : List (List UInt8 × Nat)}
    (hrun : sec.relocs.zipIdx.foldlM (resolveLoop pass ast i) (sec.data, []) = .ok state)
    (hbytes : Holds sec.data start c.bytes)
    (hfields : ∀ r ∈ sec.relocs, r.kind = .relative8 → start ≤ r.offset →
      r.offset < start + c.bytes.length →
      ∃ old ∈ c.relocs, r = { old with offset := old.offset + start })
    (hkept : ∀ old ∈ c.relocs, { old with offset := old.offset + start } ∈ sec.relocs)
    (hlabel : pass.layout.labels.get label = some (i, target))
    (hcode : BranchCode forms label start target c) :
    BranchAt forms state.1 start (start + c.bytes.length) target := by
  have hlength : state.1.length = sec.data.length := (resolveLoop_run hrun).1
  have hbound := hbytes.1
  have hbyte : ∀ k < c.bytes.length, (∀ old ∈ c.relocs, old.offset ≠ k) →
      state.1[start + k]? = c.bytes[k]? := by
    intro k hk hfree
    rw [← hbytes.getElem? hk]
    rcases resolveLoop_byte (k := start + k) (by simp only; omega) hrun with ⟨hsame, -⟩ |
      ⟨e, he, _, hoffset, htarget, -⟩
    · exact hsame
    · obtain ⟨_, hfilter, -⟩ := Option.map_eq_some_iff.mp htarget
      have hkind := (of_decide_eq_true (Option.filter_eq_some_iff.mp hfilter).2).1
      obtain ⟨old, hold, hr⟩ := hfields e.1 (List.fst_mem_of_mem_zipIdx he) hkind (by omega)
        (by omega)
      rw [hr] at hoffset
      exact absurd (by simp only at hoffset; omega) (hfree old hold)
  rcases hcode with ⟨opcode, field, hform, rfl, htarget⟩ | ⟨hform, rfl⟩
  · refine ⟨opcode, field, hform, ⟨by rw [hlength]; exact hbound, slice_eq fun k hk => ?_⟩, rfl,
      htarget⟩
    exact hbyte k hk nofun
  · have hreloc := hkept _ (List.mem_singleton_self _)
    obtain ⟨j, hj⟩ := List.mem_iff_getElem?.mp hreloc
    rcases resolveLoop_byte (k := start + 1) (by simp only [List.length_cons] at hbound ⊢; omega)
      hrun with ⟨-, hnone⟩ | ⟨e, he, place, hoffset, hplace, hfits, hset⟩
    · have hnone := hnone _ (List.mk_mem_zipIdx_iff_getElem?.mpr hj) (Nat.add_comm _ _)
      unfold loopTarget at hnone
      simp [hlabel] at hnone
    · obtain ⟨_, hfilter, rfl⟩ := Option.map_eq_some_iff.mp hplace
      obtain ⟨hget, hdecide⟩ := Option.filter_eq_some_iff.mp hfilter
      obtain ⟨old, hold, hr⟩ := hfields e.1 (List.fst_mem_of_mem_zipIdx he)
        (of_decide_eq_true hdecide).1 (by omega) (by rw [hoffset]; exact Nat.lt_succ_self _)
      cases List.mem_singleton.mp hold
      simp only [hr] at hget hfits hset
      rw [hlabel] at hget
      cases hget
      refine ⟨[0xe2], [lowByte (target - (start + 1 : Nat) + -1)], hform,
        ⟨by rw [hlength]; exact hbound, slice_eq fun k hk => ?_⟩, rfl, ?_⟩
      · rcases k with _ | _ | k
        · exact hbyte 0 Nat.two_pos (by simp)
        · exact hset
        · exact absurd hk (by simp)
      · rw [signedValue_lowByte hfits]
        simp only [List.length_cons, List.length_nil]
        omega

/-! ## The last pass -/

/-- What follows an instruction in a pass does not move it. -/
theorem reached_instruction {forced : List Nat} {k : Nat} {ins : Instruction} {final : PassState}
    (hrun : runPass p forced = .ok final) (hreached : PassState.Reached p forced k s)
    (hk : p.ast.items[k]? = some (.instruction ins))
    (hstep : passStep p s (.instruction ins, k) = .ok s') :
    Stays s' final ∧ Untouched k s' final := by
  obtain ⟨before, rest, hitems, hbefore, hrest⟩ :=
    List.zipIdx_eq_append_iff.mp (List.take_append_drop k p.ast.items.zipIdx).symm
  have hlt := (List.getElem?_eq_some_iff.mp hk).1
  have hlength := congrArg List.length hbefore
  simp only [List.length_take, List.length_zipIdx, Nat.min_eq_left hlt.le] at hlength
  unfold runPass at hrun
  rw [← List.take_append_drop k p.ast.items.zipIdx, List.foldlM_append, hreached, ok_bind, hrest,
    ← hlength, Nat.zero_add] at hrun
  rw [hitems, List.getElem?_append_right hlength.ge, ← hlength, Nat.sub_self] at hk
  cases rest with
  | nil => cases hk
  | cons node after =>
      cases hk
      obtain ⟨next, hnext, hafter⟩ := foldlM_cons_ok.mp hrun
      cases hstep.symm.trans hnext
      have hs := run_wellFormed (PassState.wellFormed_start forced) hreached
      have hs' := run_wellFormed hs (foldlM_cons_ok.mpr ⟨_, hstep, rfl⟩ :
        [(_, k)].foldlM (passStep p) s = .ok s')
      exact ⟨(run_stays hs' hafter).1, run_untouched hafter (Nat.lt_succ_self k)⟩

/-- Every branch to a symbol of its own section, short, near or a `loop`, leads from its end in
the output to the offset of the symbol. -/
def BranchesReach (ast : Ast) (limits : AssemblyLimits) (out : AssemblerOutput) : Prop :=
  ∃ consts pass forced marked, resolveConstants ast = .ok consts ∧
    encodeOnce ⟨ast, some pass.layout, consts, limits⟩ forced = .ok (pass, marked) ∧
    resolveLoops ast pass = .ok out ∧
    ∀ k s s' ins inst operand addend sym,
      PassState.Reached ⟨ast, some pass.layout, consts, limits⟩ forced k s →
      ast.items[k]? = some (.instruction ins) →
      passStep ⟨ast, some pass.layout, consts, limits⟩ s (.instruction ins, k) = .ok s' →
      resolveInstruction consts s.currentNonlocalLabel ins = .ok inst →
      branchForms inst.mnemonic ≠ [] → inst.operands = [operand] →
      symbolOperand operand = some (sym.name, addend) →
      sym ∈ out.symbols → sym.sectionIndex = some s.currentSection →
      ∃ sec, out.sections[s.currentSection]? = some sec ∧
        BranchAt (branchForms inst.mnemonic) sec.data s.section'.data.length
          s'.section'.data.length sym.offset

/-- **In an accepted source every branch to a symbol of its own section reaches it.** -/
theorem encodeWithLimits_branches {limits : AssemblyLimits} {out : AssemblerOutput}
    (h : encodeWithLimits ast limits = .ok out) : BranchesReach ast limits out := by
  obtain ⟨consts, hconsts, h⟩ := bind_ok_iff.mp h
  obtain ⟨pass, hpass, hloops⟩ := bind_ok_iff.mp h
  cases hrelax : relax ast consts limits limits.maxRelaxIterations none [] with
  | none =>
      rw [hrelax] at hpass
      cases hpass
  | some result =>
      rw [hrelax] at hpass
      obtain rfl : result = .ok pass := hpass
      obtain ⟨forced, marked, hlast⟩ := relax_fixpoint hrelax
      refine ⟨consts, pass, forced, marked, hconsts, hlast, hloops, ?_⟩
      intro k s s' ins inst operand addend sym hreached hk hstep hinst hforms hoperands hoperand
        hsym hsection
      obtain ⟨final, hrun, hfinish, -⟩ := encodeOnce_ok hlast
      obtain ⟨symbols, hsymbols, -, rfl⟩ := finishPass_ok hfinish
      obtain ⟨hstays, huntouched⟩ := reached_instruction hrun hreached hk hstep
      have hs := run_wellFormed (PassState.wellFormed_start forced) hreached
      -- The label is where its symbol is.
      have hlabel : final.labelLocs.get sym.name = some (s.currentSection, sym.offset) := by
        rw [(resolveLoops_ok hloops).1] at hsym
        obtain ⟨old, hold, hfinished⟩ := exists_of_forall₂ (mapM_ok hsymbols).flip hsym
        obtain ⟨hname, -, hindex, hoffset⟩ := finishSymbol_ok hfinished
        rw [hname, hoffset]
        refine (run_stays (PassState.wellFormed_start forced) hrun).2 nofun old hold _ ?_
        rw [← hindex, hsection]
      obtain ⟨next, sites, hnext, rfl⟩ := passStep_ok hstep
      obtain ⟨inst', code, hinst', -, hcode, -, -, rfl⟩ := placeInstruction_ok hnext
      cases hinst.symm.trans hinst'
      have hlt := (List.getElem?_eq_some_iff.mp hk).1
      obtain ⟨hlengths, hoffsets⟩ := run_length hreached
      simp only [PassState.start, List.length_replicate] at hlengths hoffsets
      have hlength : final.instructionLengths.getD k 0 = code.bytes.length := by
        rw [List.getD_eq_getElem?_getD, huntouched.lengths]
        exact congrArg (Option.getD · 0) (List.getElem?_set_self (hlengths ▸ hlt))
      have hoffset : final.instructionOffsets.getD k 0 = s.section'.data.length := by
        rw [List.getD_eq_getElem?_getD, huntouched.offsets]
        exact congrArg (Option.getD · 0) (List.getElem?_set_self (hoffsets ▸ hlt))
      have hcode : encodeInstruction inst Code.empty s.currentSection
          (final.instructionOffsets.getD k 0) final.labelLocs
          ⟨final.instructionLengths.getD k 0, decide (k ∈ s.forcedNear)⟩ = .ok code := hcode
      rw [hoffset, hlength] at hcode
      obtain ⟨sec, hsec, hextends⟩ := hstays _ _ (List.getElem?_set_self hs.current)
      obtain ⟨state, hstate, hout⟩ := resolveLoops_section hloops hsec
      refine ⟨_, hout, ?_⟩
      rw [section_set (t := { afterInstruction _ s inst code k with relocationSites := sites })
        hs.current rfl rfl, List.length_append]
      refine branchAt_of_code hstate ?_ (fun r hr hkind hlo hhi => ?_) (fun old hold => ?_) hlabel
        (encodeInstruction_code hforms hoperands hoperand hlabel hcode rfl)
      · obtain ⟨more, hmore⟩ := hextends.bytes
        simp only [List.append_assoc] at hmore
        rw [← hmore]
        refine ⟨by simp, slice_eq fun j hj => ?_⟩
        rw [List.getElem?_append_right (Nat.le_add_right _ _), Nat.add_sub_cancel_left,
          List.getElem?_append_left hj]
      · rcases hextends.later r hr with hr | hlater
        · rcases List.mem_append.mp hr with hr | hr
          · obtain ⟨size, hsize, hinside⟩ := hs.section'.fields r hr
            rw [hkind] at hsize
            cases hsize
            omega
          · obtain ⟨old, hold, rfl⟩ := List.mem_map.mp hr
            exact ⟨old, hold, rfl⟩
        · rw [List.length_append] at hlater
          omega
      · exact hextends.kept (List.mem_append_right _ (List.mem_map_of_mem hold))

theorem encodeWithLimits_branches_alignedLoop : ∃ out,
    encodeWithLimits alignedLoop ⟨4096, 6⟩ = .ok out ∧ BranchesReach alignedLoop ⟨4096, 6⟩ out := by
  obtain ⟨out, hout⟩ := exists_of_isOk (x := encodeWithLimits alignedLoop ⟨4096, 6⟩)
    (by decide +kernel)
  exact ⟨out, hout, encodeWithLimits_branches hout⟩

end Whale.Assembler.Amd64
