import Whale.Assembler.Amd64.Steps

set_option autoImplicit false

/-! # Lengths of instructions

A branch to a label is short or near, and every other instruction has one length, wherever it
is. A branch that was short and grows is marked, and it stays near. -/

namespace Whale.Assembler.Amd64

/-! ## Short and near branches -/

/-- A branch to a label that may be short. -/
def isRelaxableBranch (ins : Instruction) : Bool :=
  isRelaxable ins.mnemonic && (ins.operands.head?.bind symbolOperand).isSome

variable {spec : JumpSpec}

theorem familyOf_branch {mnemonic : String} (h : familyOf mnemonic = some (.branch spec)) :
    (mnemonic = "jmp" ∧ spec = jumpSpec) ∨ (mnemonic = "call" ∧ spec = callSpec) := by
  have hall : ∀ e ∈ families, ∀ spec, e.2 = .branch spec →
      (e.1 = "jmp" ∧ spec = jumpSpec) ∨ (e.1 = "call" ∧ spec = callSpec) := by
    simp [families]
  rcases familyOf_cases h with hmem | ⟨_, -, h⟩ | ⟨_, -, h⟩ | ⟨_, -, h⟩
  · exact hall _ hmem spec rfl
  all_goals cases h

theorem familyOf_condition {mnemonic : String} (h : familyOf mnemonic = some (.condition spec)) :
    ∃ condition, conditionCode mnemonic = some condition ∧ spec = conditionSpec condition := by
  have hall : ∀ e ∈ families, ∀ spec, e.2 ≠ .condition spec := by
    simp [families]
  rcases familyOf_cases h with hmem | ⟨_, -, h⟩ | ⟨_, -, h⟩ | ⟨condition, hcondition, h⟩
  · exact absurd rfl (hall _ hmem spec)
  · cases h
  · cases h
  · cases h
    exact ⟨condition, hcondition, rfl⟩

variable {relaxation : BranchRelaxation}

theorem shortDisplacement_some {offset target : Nat} {e : UInt8 × Int}
    (h : shortDisplacement spec relaxation offset target = some e) :
    spec.shortOpcode.isSome = true ∧ relaxation.forceNear = false := by
  obtain ⟨opcode, hopcode, -⟩ := Option.bind_eq_some_iff.mp h
  obtain ⟨hopcode, hforce⟩ := Option.filter_eq_some_iff.mp hopcode
  rw [hopcode]
  exact ⟨rfl, by simpa using hforce⟩

variable {ins : Instruction}

/-- A jump is short, or it has the length that it has without labels. -/
theorem encodeJump_length {c c' : Code} {currentSection currentOffset : Nat}
    {labelLocs : LabelLocations}
    (h : encodeJump ins spec relaxation c currentSection currentOffset labelLocs = .ok c') :
    (ins.operands.head?.bind symbolOperand).isSome = true ∧
      (∃ near, (∀ relaxation, encodeJump ins spec relaxation c 0 0 [] = .ok near) ∧
        near.bytes.length = c.bytes.length + spec.nearOpcode.length + 4) ∧
      (c'.bytes.length = c.bytes.length + spec.nearOpcode.length + 4 ∨
        (c'.bytes.length = c.bytes.length + 2 ∧ spec.shortOpcode.isSome = true ∧
          relaxation.forceNear = false)) := by
  unfold encodeJump at h ⊢
  split at h
  case h_2 => cases h
  case h_1 operand hoperands =>
    obtain ⟨⟨label, addend⟩, hlabel, h⟩ := bind_ok_iff.mp h
    obtain ⟨haddend, h⟩ := require_then_ok_iff.mp h
    rw [orThrow_ok_iff] at hlabel
    refine ⟨?_, ?_, ?_⟩
    · rw [hoperands, List.head?_cons, Option.bind_some, hlabel]
      rfl
    · simp only [hlabel, orThrow_some, ok_bind]
      refine ⟨((c.extend spec.nearOpcode).relocate ⟨(c.extend spec.nearOpcode).bytes.length, label,
        .branch32, -4⟩).extend (leInt 4 0), fun _ => require_then_ok_iff.mpr ⟨haddend, rfl⟩, ?_⟩
      simp [Nat.add_assoc]
    · simp only at h
      split at h
      · split at h
        · rename_i hshort
          cases h
          exact .inr ⟨by simp, shortDisplacement_some hshort⟩
        · obtain ⟨-, h⟩ := require_then_ok_iff.mp h
          cases h
          exact .inl (by simp [Nat.add_assoc])
      · cases h
        exact .inl (by simp [Nat.add_assoc])

/-- An instruction has the length that it has without labels, except for branches that are
short. -/
theorem encodeInstruction_length {c : Code} {currentSection currentOffset : Nat}
    {labelLocs : LabelLocations}
    (h : encodeInstruction ins Code.empty currentSection currentOffset labelLocs relaxation =
      .ok c) :
    ∃ near, encodeInstruction ins Code.empty 0 0 [] ⟨0, false⟩ = .ok near ∧
      (c.bytes.length = near.bytes.length ∨ (isRelaxableBranch ins = true ∧
        c.bytes.length = 2 ∧ 2 < near.bytes.length ∧ relaxation.forceNear = false)) := by
  unfold encodeInstruction at h ⊢
  cases hfamily : familyOf ins.mnemonic with
  | none =>
      rw [hfamily] at h
      cases h
  | some family =>
      rw [hfamily] at h
      -- Only the direct jumps have a short form.
      cases family
      case branch spec =>
        simp only at h ⊢
        by_cases hindirect : isIndirect ins = true
        · rw [if_pos hindirect] at h ⊢
          exact ⟨c, h, .inl rfl⟩
        · rw [if_neg hindirect] at h ⊢
          obtain ⟨hoperand, ⟨near, hnear, hlength⟩, hcases⟩ := encodeJump_length h
          refine ⟨near, hnear _, ?_⟩
          rcases hcases with hsame | ⟨hshort, hopcode, hforce⟩
          · exact .inl (by rw [hsame, hlength])
          · rcases familyOf_branch hfamily with ⟨hjmp, rfl⟩ | ⟨-, rfl⟩
            · refine .inr ⟨?_, hshort, ?_, hforce⟩
              · unfold isRelaxableBranch isRelaxable
                rw [hoperand, hjmp]
                rfl
              · rw [hlength]
                decide
            · cases hopcode
      case condition spec =>
        obtain ⟨hoperand, ⟨near, hnear, hlength⟩, hcases⟩ := encodeJump_length h
        refine ⟨near, hnear _, ?_⟩
        rcases hcases with hsame | ⟨hshort, -, hforce⟩
        · exact .inl (by rw [hsame, hlength])
        · obtain ⟨condition, hcondition, rfl⟩ := familyOf_condition hfamily
          refine .inr ⟨?_, hshort, ?_, hforce⟩
          · unfold isRelaxableBranch isRelaxable
            rw [hoperand, hcondition, Option.isSome_some, Bool.or_true]
            rfl
          · rw [hlength]
            show 2 < 0 + 2 + 4
            decide
      all_goals exact ⟨c, h, .inl rfl⟩

/-! ## Resolved instructions -/

variable {scope : Option String} {consts : AssocMap String Int}

theorem resolveOperand_symbol {op named op' : Operand}
    (hnamed : resolveOperandSymbols scope op = .ok named)
    (hop : resolveOperandConsts consts named = .ok op') (h : (symbolOperand op').isSome = true) :
    (symbolOperand op).isSome = true := by
  have hnamed' : (symbolOperand named).isSome = true := by
    cases named with
    | label | symbolExpr => rfl
    | register | immediate =>
        cases hop
        exact h
    | memory mem =>
        unfold resolveOperandConsts at hop
        simp only at hop
        split at hop
        · cases hop
          exact h
        · obtain ⟨_, -, hop⟩ := bind_ok_iff.mp hop
          obtain ⟨_, -, hop⟩ := bind_ok_iff.mp hop
          cases hop
          exact h
  cases op with
  | label | symbolExpr => rfl
  | register | immediate =>
      cases hnamed
      exact hnamed'
  | memory mem =>
      unfold resolveOperandSymbols at hnamed
      simp only at hnamed
      split at hnamed
      · cases hnamed
        exact hnamed'
      · obtain ⟨_, -, hnamed⟩ := bind_ok_iff.mp hnamed
        cases hnamed
        exact hnamed'

theorem resolveInstruction_ok {ins inst : Instruction}
    (h : resolveInstruction consts scope ins = .ok inst) :
    inst.mnemonic = ins.mnemonic ∧
      ∃ named : List Operand,
        List.Forall₂ (fun op op' => resolveOperandSymbols scope op = .ok op') ins.operands named ∧
        List.Forall₂ (fun op op' => resolveOperandConsts consts op = .ok op') named inst.operands := by
  obtain ⟨named, hnamed, h⟩ := bind_ok_iff.mp h
  obtain ⟨operands, hoperands, hnamed⟩ := bind_ok_iff.mp hnamed
  cases hnamed
  obtain ⟨operands', hoperands', h⟩ := bind_ok_iff.mp h
  cases h
  exact ⟨rfl, operands, mapM_ok hoperands, mapM_ok hoperands'⟩

theorem resolveInstruction_relaxable {ins inst : Instruction}
    (h : resolveInstruction consts scope ins = .ok inst)
    (hrelaxable : isRelaxableBranch inst = true) : isRelaxableBranch ins = true := by
  obtain ⟨hmnemonic, named, hnamed, hoperands⟩ := resolveInstruction_ok h
  unfold isRelaxableBranch at hrelaxable ⊢
  rw [Bool.and_eq_true] at hrelaxable ⊢
  refine ⟨by rw [← hmnemonic]; exact hrelaxable.1, ?_⟩
  have hhead := hrelaxable.2
  revert hhead
  generalize hfrom : ins.operands = ops at hnamed ⊢
  generalize hto : inst.operands = ops' at hoperands ⊢
  cases hnamed with
  | nil =>
      cases hoperands
      exact id
  | cons hop _ =>
      cases hoperands with
      | cons hop' _ => exact resolveOperand_symbol hop hop'

/-! ## What a node does to the lengths -/

def isRelaxableNode : AstNode → Bool
  | .instruction ins => isRelaxableBranch ins
  | _ => false

/-- The length of the instruction at a node when all branches are near. -/
def nearLength (consts : AssocMap String Int) (e : ScopedNode) : Nat :=
  match e.2 with
  | .instruction ins =>
      match resolveInstruction consts e.1 ins with
      | .ok inst =>
          match encodeInstruction inst Code.empty 0 0 [] ⟨0, false⟩ with
          | .ok near => near.bytes.length
          | .error _ => 0
      | .error _ => 0
  | _ => 0

variable {p : PassInput} {s s' : PassState} {node : AstNode} {index : Nat}

/-- Nodes that are not instructions leave the lengths and the marked branches as they are. -/
theorem encodeNode_kept (h : encodeNode p s node index = .ok s')
    (hnode : ∀ ins, node ≠ .instruction ins) :
    s'.instructionLengths = s.instructionLengths ∧
      s'.instructionOffsets = s.instructionOffsets ∧ s'.forcedNear = s.forcedNear := by
  cases node with
  | instruction ins => exact absurd rfl (hnode ins)
  | const =>
      cases h
      exact ⟨rfl, rfl, rfl⟩
  | «section» name | sectionAttributes name kind =>
      rcases enterSection_ok h with ⟨idx, -, rfl⟩ | ⟨-, rfl⟩ <;> exact ⟨rfl, rfl, rfl⟩
  | «global» name =>
      obtain ⟨_, -, rfl⟩ := declareGlobal_ok h
      exact ⟨rfl, rfl, rfl⟩
  | external name =>
      obtain ⟨_, -, -, ⟨-, rfl⟩ | ⟨-, rfl⟩⟩ := declareExtern_ok h <;> exact ⟨rfl, rfl, rfl⟩
  | symbolMetadata name kind size visibility =>
      obtain ⟨_, _, -, -, rfl⟩ := recordMetadata_ok h
      exact ⟨rfl, rfl, rfl⟩
  | label name =>
      obtain ⟨_, -, -, -, -, rfl⟩ := defineLabel_ok h
      exact ⟨rfl, rfl, rfl⟩
  | directive dir =>
      obtain ⟨named, -, ⟨-, h⟩ | ⟨-, -, _, -, rfl⟩ | ⟨-, -, _, _, -, -, -, -, rfl⟩⟩ :=
        placeDirective_ok h
      · obtain ⟨_, _, -, rfl, -⟩ := placeAlignment_ok h
        exact ⟨rfl, rfl, rfl⟩
      · exact ⟨rfl, rfl, rfl⟩
      · exact ⟨rfl, rfl, rfl⟩

theorem encodeNode_scope (h : encodeNode p s node index = .ok s') :
    s'.currentNonlocalLabel = node.scopeAfter s.currentNonlocalLabel := by
  cases node with
  | const =>
      cases h
      rfl
  | «section» name | sectionAttributes name kind =>
      rcases enterSection_ok h with ⟨idx, -, rfl⟩ | ⟨-, rfl⟩ <;> rfl
  | «global» name =>
      obtain ⟨_, -, rfl⟩ := declareGlobal_ok h
      rfl
  | external name =>
      obtain ⟨_, -, -, ⟨-, rfl⟩ | ⟨-, rfl⟩⟩ := declareExtern_ok h <;> rfl
  | symbolMetadata name kind size visibility =>
      obtain ⟨_, _, -, -, rfl⟩ := recordMetadata_ok h
      rfl
  | label name =>
      obtain ⟨resolved, hresolved, -, -, -, rfl⟩ := defineLabel_ok h
      unfold scopedName at hresolved
      unfold AstNode.scopeAfter Definitions.scopeAfter
      simp only
      split
      · rfl
      · rename_i hlocal
        rw [if_neg hlocal] at hresolved
        exact hresolved.symm
  | instruction ins =>
      obtain ⟨_, _, -, -, -, -, -, rfl⟩ := placeInstruction_ok h
      rfl
  | directive dir =>
      obtain ⟨named, -, ⟨-, h⟩ | ⟨-, -, _, -, rfl⟩ | ⟨-, -, _, _, -, -, -, -, rfl⟩⟩ :=
        placeDirective_ok h
      · obtain ⟨_, _, -, rfl, -⟩ := placeAlignment_ok h
        rfl
      · rfl
      · rfl

/-- A node other than the one at `i` was encoded. -/
structure Untouched (i : Nat) (s s' : PassState) : Prop where
  lengths : s'.instructionLengths[i]? = s.instructionLengths[i]?
  offsets : s'.instructionOffsets[i]? = s.instructionOffsets[i]?
  forced : i ∈ s'.forcedNear ↔ i ∈ s.forcedNear

theorem Untouched.refl (i : Nat) (s : PassState) : Untouched i s s := ⟨rfl, rfl, Iff.rfl⟩

theorem Untouched.trans {i : Nat} {a b c : PassState} (h : Untouched i a b)
    (h' : Untouched i b c) : Untouched i a c :=
  ⟨h'.lengths.trans h.lengths, h'.offsets.trans h.offsets, h'.forced.trans h.forced⟩

theorem encodeNode_untouched (h : encodeNode p s node index = .ok s') {i : Nat} (hi : i ≠ index) :
    Untouched i s s' := by
  by_cases hnode : ∃ ins, node = .instruction ins
  · obtain ⟨ins, rfl⟩ := hnode
    obtain ⟨inst, code, -, -, -, -, -, rfl⟩ := placeInstruction_ok h
    constructor
    · exact List.getElem?_set_ne hi.symm
    · exact List.getElem?_set_ne hi.symm
    · unfold afterInstruction
      simp only
      split
      · rw [List.mem_cons, or_iff_right hi]
      · rfl
  · obtain ⟨hlengths, hoffsets, hforced⟩ := encodeNode_kept h fun ins hins => hnode ⟨ins, hins⟩
    exact ⟨by rw [hlengths], by rw [hoffsets], by rw [hforced]⟩

/-- What a node does to its own length. -/
theorem encodeNode_length (h : encodeNode p s node index = .ok s')
    (hzero : s.instructionLengths[index]? = some 0) :
    ∃ n, s'.instructionLengths[index]? = some n ∧
      (n = nearLength p.consts (s.currentNonlocalLabel, node) ∨
        (isRelaxableNode node = true ∧ n = 2 ∧
          2 < nearLength p.consts (s.currentNonlocalLabel, node) ∧ index ∉ s.forcedNear)) ∧
      (index ∈ s.forcedNear → index ∈ s'.forcedNear) ∧
      (isRelaxableNode node = true → p.previousLength index = 2 → 2 < n →
        index ∈ s'.forcedNear) ∧
      (index ∈ s'.forcedNear → index ∈ s.forcedNear ∨ 2 < n) := by
  -- Only an instruction takes bytes; the other nodes keep the lengths and the forced set.
  by_cases hnode : ∃ ins, node = .instruction ins
  · obtain ⟨ins, rfl⟩ := hnode
    obtain ⟨inst, code, hinst, -, hcode, -, -, rfl⟩ := placeInstruction_ok h
    obtain ⟨near, hnear, hlength⟩ := encodeInstruction_length hcode
    have hnearLength : nearLength p.consts (s.currentNonlocalLabel, .instruction ins) =
        near.bytes.length := by
      unfold nearLength
      simp only [hinst, hnear]
    have hmem : ∀ i, i ∈ (afterInstruction p s inst code index).forcedNear ↔
        i ∈ s.forcedNear ∨ (i = index ∧ p.previousLength index = 2 ∧ 2 < code.bytes.length ∧
          isRelaxable inst.mnemonic = true) := by
      intro i
      unfold afterInstruction
      simp only [Bool.and_eq_true, decide_eq_true_eq]
      split
      case isTrue hgrows =>
        rw [List.mem_cons]
        constructor
        · rintro (rfl | hi)
          · exact .inr ⟨rfl, hgrows.1.1, hgrows.1.2, hgrows.2⟩
          · exact .inl hi
        · rintro (hi | ⟨rfl, -⟩)
          · exact .inr hi
          · exact .inl rfl
      case isFalse hgrows =>
        constructor
        · exact .inl
        · rintro (hi | ⟨-, hprevious, hlong, hrelaxable⟩)
          · exact hi
          · exact absurd ⟨⟨hprevious, hlong⟩, hrelaxable⟩ hgrows
    refine ⟨code.bytes.length, ?_, ?_, ?_, ?_, ?_⟩
    · exact List.getElem?_set_self (List.getElem?_eq_some_iff.mp hzero).1
    · rw [hnearLength]
      rcases hlength with hsame | ⟨hrelaxable, hshort, hlong, hforce⟩
      · exact .inl hsame
      · refine .inr ⟨resolveInstruction_relaxable hinst hrelaxable, hshort, hlong, ?_⟩
        exact of_decide_eq_false hforce
    · intro hforced
      exact (hmem index).mpr (.inl hforced)
    · intro hrelaxable hprevious hlong
      refine (hmem index).mpr (.inr ⟨rfl, hprevious, hlong, ?_⟩)
      rw [(resolveInstruction_ok hinst).1]
      exact (Bool.and_eq_true_iff.mp hrelaxable).1
    · intro hforced
      exact ((hmem index).mp hforced).imp_right fun h => h.2.2.1
  · obtain ⟨hlengths, -, hforced⟩ := encodeNode_kept h fun ins hins => hnode ⟨ins, hins⟩
    have hplain : isRelaxableNode node = false ∧
        nearLength p.consts (s.currentNonlocalLabel, node) = 0 := by
      cases node with
      | instruction ins => exact absurd ⟨ins, rfl⟩ hnode
      | _ => exact ⟨rfl, rfl⟩
    refine ⟨0, ?_, .inl hplain.2.symm, ?_, ?_, ?_⟩
    · rw [hlengths, hzero]
    · rw [hforced]
      exact id
    · intro hrelaxable
      rw [hplain.1] at hrelaxable
      cases hrelaxable
    · rw [hforced]
      exact .inl

/-! ## Whole runs -/

theorem passStep_untouched {e : AstNode × Nat} (h : passStep p s e = .ok s') {i : Nat}
    (hi : i ≠ e.2) : Untouched i s s' := by
  obtain ⟨next, sites, hnext, rfl⟩ := passStep_ok h
  have hkept := encodeNode_untouched hnext hi
  exact { hkept with }

theorem run_untouched {nodes : List AstNode} {k : Nat}
    (h : (nodes.zipIdx k).foldlM (passStep p) s = .ok s') {i : Nat} (hi : i < k) :
    Untouched i s s' := by
  induction nodes generalizing k s with
  | nil =>
      cases h
      exact .refl i _
  | cons node nodes ih =>
      obtain ⟨next, hnext, hrest⟩ := foldlM_cons_ok.mp h
      have hne : i ≠ k := by omega
      exact (passStep_untouched hnext hne).trans (ih hrest (by omega))

/-- Each node is encoded once, with the length zero before it. -/
theorem run_visits {nodes : List AstNode} {k : Nat}
    (h : (nodes.zipIdx k).foldlM (passStep p) s = .ok s') {j : Nat} {e : ScopedNode}
    (hj : (scopesFrom s.currentNonlocalLabel nodes)[j]? = some e) :
    ∃ before after, encodeNode p before e.2 (k + j) = .ok after ∧
      before.currentNonlocalLabel = e.1 ∧ Untouched (k + j) s before ∧
      Untouched (k + j) after s' := by
  induction nodes generalizing k s j with
  | nil => cases hj
  | cons node nodes ih =>
      obtain ⟨next, hnext, hrest⟩ := foldlM_cons_ok.mp h
      obtain ⟨node', sites, hnode, rfl⟩ := passStep_ok hnext
      cases j with
      | zero =>
          cases hj
          refine ⟨s, node', hnode, rfl, .refl _ s, ?_⟩
          have hkept := run_untouched hrest (i := k) (by omega)
          exact { hkept with }
      | succ j =>
          have hscope := encodeNode_scope hnode
          have hj' : (scopesFrom node'.currentNonlocalLabel nodes)[j]? = some e := by
            rw [hscope]
            exact hj
          obtain ⟨before, after, hstep, hlabel, hbefore, hafter⟩ := ih hrest hj'
          have hplace : k + 1 + j = k + (j + 1) := by omega
          rw [hplace] at hstep hbefore hafter
          have hfirst := passStep_untouched hnext (i := k + (j + 1)) (by simp)
          exact ⟨before, after, hstep, hlabel, hfirst.trans hbefore, hafter⟩

theorem run_length {nodes : List (AstNode × Nat)} (h : nodes.foldlM (passStep p) s = .ok s') :
    s'.instructionLengths.length = s.instructionLengths.length ∧
      s'.instructionOffsets.length = s.instructionOffsets.length := by
  refine foldlM_inv (P := fun t => t.instructionLengths.length = s.instructionLengths.length ∧
    t.instructionOffsets.length = s.instructionOffsets.length) ?_ ⟨rfl, rfl⟩ h
  intro b e b' hb hstep
  obtain ⟨next, sites, hnext, rfl⟩ := passStep_ok hstep
  rw [← hb.1, ← hb.2]
  by_cases hnode : ∃ ins, e.1 = .instruction ins
  · obtain ⟨ins, hins⟩ := hnode
    rw [hins] at hnext
    obtain ⟨_, _, -, -, -, -, -, rfl⟩ := placeInstruction_ok hnext
    exact ⟨List.length_set, List.length_set⟩
  · obtain ⟨hlengths, hoffsets, -⟩ := encodeNode_kept hnext fun ins hins => hnode ⟨ins, hins⟩
    exact ⟨congrArg List.length hlengths, congrArg List.length hoffsets⟩

end Whale.Assembler.Amd64
