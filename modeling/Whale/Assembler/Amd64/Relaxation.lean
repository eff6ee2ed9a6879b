import Whale.Assembler.Amd64.SameShape
import Whale.Assembler.Amd64.Unsettled
import Whale.Lib.Sizing

set_option autoImplicit false

/-! # Relaxation converges

A branch that was short and grows again because of an alignment stays near, so that the lengths
settle, and with them the layout. -/

namespace Whale.Assembler.Amd64

/-- The number of branches to labels that may be short. -/
def relaxableBranches (items : List AstNode) : Nat := items.countP isRelaxableNode

theorem getElem?_scopesFrom (scope : Option String) (nodes : List AstNode) (i : Nat) :
    ((scopesFrom scope nodes)[i]?).map Prod.snd = nodes[i]? := by
  induction nodes generalizing scope i with
  | nil => rfl
  | cons node nodes ih =>
      cases i with
      | zero => rfl
      | succ i => exact ih _ i

/-- The lengths of a source as sizes that settle. -/
def sizing (ast : Ast) (consts : AssocMap String Int) : Sizing where
  count := ast.items.length
  flexible i := ((ast.items[i]?).map isRelaxableNode).getD false
  full i := (((scopes ast.items)[i]?).map (nearLength consts)).getD 0
  short := 2

/-- The lengths of a layout, with the branches that stay near. -/
def sizes (lengths : List Nat) (forcedNear : List Nat) : Sizing.State where
  size i := lengths.getD i 0
  marked i := decide (i ∈ forcedNear)

theorem countP_sizing (ast : Ast) (consts : AssocMap String Int) :
    (List.range (sizing ast consts).count).countP (sizing ast consts).flexible =
      relaxableBranches ast.items := by
  have hmap : (List.range ast.items.length).map (sizing ast consts).flexible =
      ast.items.map isRelaxableNode := by
    apply List.ext_getElem
    · rw [List.length_map, List.length_range, List.length_map]
    · intro i hi hi'
      rw [List.length_map] at hi'
      rw [List.getElem_map, List.getElem_range, List.getElem_map]
      unfold sizing
      simp only [List.getElem?_eq_getElem hi', Option.map_some, Option.getD_some]
  have hcount := congrArg (List.countP id) hmap
  rw [List.countP_map, List.countP_map] at hcount
  exact hcount

variable {forced marked : List Nat} {pass : EncodingPass}

/-- A pass is a step of the sizes. -/
theorem encodeOnce_step {p : PassInput} (h : encodeOnce p forced = .ok (pass, marked)) :
    (sizing p.ast p.consts).Step ⟨p.previousLength, fun i => decide (i ∈ forced)⟩
      (sizes pass.layout.instructionLengths marked) := by
  obtain ⟨s, hs, hpass, rfl⟩ := encodeOnce_ok h
  obtain ⟨_, -, -, rfl⟩ := finishPass_ok hpass
  have hvisit : ∀ i < p.ast.items.length, ∃ n,
      (sizes s.instructionLengths s.forcedNear).size i = n ∧
      (sizing p.ast p.consts).Allowed n (decide (i ∈ forced)) i ∧
      (i ∈ forced → i ∈ s.forcedNear) ∧
      ((sizing p.ast p.consts).flexible i = true → p.previousLength i = 2 → 2 < n →
        i ∈ s.forcedNear) ∧
      (i ∈ s.forcedNear → i ∈ forced ∨ 2 < n) := by
    intro i hi
    have hnode := getElem?_scopesFrom none p.ast.items i
    rw [List.getElem?_eq_getElem hi] at hnode
    obtain ⟨e, he, hnode⟩ := Option.map_eq_some_iff.mp hnode
    obtain ⟨before, after, hstep, hscope, hbefore, hafter⟩ := run_visits hs he
    rw [Nat.zero_add] at hstep hbefore hafter
    have hzero : before.instructionLengths[i]? = some 0 := by
      rw [hbefore.lengths]
      unfold PassState.start
      rw [List.getElem?_replicate, if_pos hi]
    obtain ⟨n, hn, hallowed, hkeeps, hmarks, hgrown⟩ := encodeNode_length hstep hzero
    have hflexible : (sizing p.ast p.consts).flexible i = isRelaxableNode e.2 := by
      unfold sizing
      simp only [List.getElem?_eq_getElem hi, Option.map_some, Option.getD_some, hnode]
    have hfull : (sizing p.ast p.consts).full i = nearLength p.consts e := by
      unfold sizing scopes
      simp only [he, Option.map_some, Option.getD_some]
    have hforced : i ∈ before.forcedNear ↔ i ∈ forced := hbefore.forced
    rw [hscope, hforced] at hallowed
    rw [hforced] at hkeeps hgrown
    rw [← hafter.forced] at hkeeps hmarks hgrown
    refine ⟨n, ?_, ?_, hkeeps, ?_, hgrown⟩
    · show s.instructionLengths.getD i 0 = n
      rw [List.getD_eq_getElem?_getD, hafter.lengths, hn, Option.getD_some]
    · unfold Sizing.Allowed
      rw [hflexible, hfull, decide_eq_false_iff_not]
      exact hallowed
    · rw [hflexible]
      exact hmarks
  constructor
  · intro i hi
    obtain ⟨n, rfl, hallowed, -⟩ := hvisit i hi
    exact hallowed
  · intro i hi hforced
    obtain ⟨n, -, -, hkeeps, -⟩ := hvisit i hi
    exact decide_eq_true (hkeeps (of_decide_eq_true hforced))
  · intro i hi hflexible hprevious hlong
    obtain ⟨n, rfl, -, -, hmarks, -⟩ := hvisit i hi
    exact decide_eq_true (hmarks hflexible hprevious hlong)
  · intro i hi hmarked
    obtain ⟨n, rfl, -, -, -, hgrown⟩ := hvisit i hi
    exact (hgrown (of_decide_eq_true hmarked)).imp_left decide_eq_true

theorem encodeOnce_count {p : PassInput} (h : encodeOnce p forced = .ok (pass, marked)) :
    pass.layout.instructionLengths.length = p.ast.items.length := by
  obtain ⟨s, hs, hpass, -⟩ := encodeOnce_ok h
  obtain ⟨_, -, -, rfl⟩ := finishPass_ok hpass
  exact (run_length hs).1.trans List.length_replicate

/-! ## The loop -/

/-- The layout comes from a pass over the source. -/
def FromPass (ast : Ast) (consts : AssocMap String Int) (layout : EncodingLayout)
    (marked : List Nat) : Prop :=
  ∃ p forced pass, p.ast = ast ∧ p.consts = consts ∧ encodeOnce p forced = .ok (pass, marked) ∧
    layout = pass.layout

variable {ast : Ast} {consts : AssocMap String Int} {limits : AssemblyLimits}

/-- A pass with another layout uses up a change. -/
theorem pass_budget_lt {layout : EncodingLayout} (hlayout : FromPass ast consts layout forced)
    (h : encodeOnce { ast, hint := some layout, consts, limits } forced = .ok (pass, marked))
    (hne : layout ≠ pass.layout) :
    (sizing ast consts).budget (sizes pass.layout.instructionLengths marked) <
      (sizing ast consts).budget (sizes layout.instructionLengths forced) := by
  obtain ⟨p, f, before, rfl, rfl, hbefore, rfl⟩ := hlayout
  refine (encodeOnce_step h).budget_lt (encodeOnce_step hbefore).valid ?_
  by_contra hsame
  push Not at hsame
  refine hne (encodeOnce_layout (p := p)
    (q := { ast := p.ast, hint := some before.layout, consts := p.consts, limits }) rfl rfl hbefore h
    ?_)
  apply List.ext_getElem
  · rw [encodeOnce_count hbefore, encodeOnce_count h]
  · intro i hi hi'
    have hi'' : i < p.ast.items.length := by
      rw [← encodeOnce_count hbefore]
      exact hi
    have hsize := hsame i hi''
    unfold sizes at hsize
    simp only at hsize
    rw [List.getD_eq_getElem _ _ hi, List.getD_eq_getElem _ _ hi'] at hsize
    exact hsize.symm

/-- The loop ends when there are more passes than changes are left, and further passes would not
be made. -/
theorem relax_of_budget {layout : EncodingLayout} {passes : Nat}
    (hlayout : FromPass ast consts layout forced)
    (hbudget : (sizing ast consts).budget (sizes layout.instructionLengths forced) < passes) :
    ∃ result, ∀ more, relax ast consts limits (passes + more) (some layout) forced =
      some result := by
  induction passes generalizing layout forced with
  | zero => exact absurd hbudget (Nat.not_lt_zero _)
  | succ passes ih =>
      cases hpass : encodeOnce { ast, hint := some layout, consts, limits } forced with
      | error e =>
          refine ⟨.error e, fun more => ?_⟩
          rw [Nat.succ_add]
          unfold relax
          rw [hpass]
      | ok result =>
          obtain ⟨pass, marked⟩ := result
          by_cases hsame : layout = pass.layout
          · refine ⟨.ok pass, fun more => ?_⟩
            rw [Nat.succ_add]
            unfold relax
            rw [hpass]
            simp only
            rw [if_pos (congrArg some hsame)]
          · have hlt := pass_budget_lt hlayout hpass hsame
            obtain ⟨result, hresult⟩ := ih ⟨_, _, _, rfl, rfl, hpass, rfl⟩ (by omega)
            refine ⟨result, fun more => ?_⟩
            rw [Nat.succ_add]
            unfold relax
            rw [hpass]
            simp only
            rw [if_neg fun h => hsame (Option.some.inj h)]
            exact hresult more

/-- Two passes for each branch and two more are enough. -/
theorem relax_converges (ast : Ast) (consts : AssocMap String Int) (limits : AssemblyLimits) :
    ∃ result, ∀ passes, 2 * relaxableBranches ast.items + 2 ≤ passes →
      relax ast consts limits passes none [] = some result := by
  cases hpass : encodeOnce { ast, hint := none, consts, limits } [] with
  | error e =>
      refine ⟨.error e, fun passes hpasses => ?_⟩
      obtain ⟨more, rfl⟩ := Nat.exists_eq_add_of_le' (by omega : 1 ≤ passes)
      unfold relax
      rw [hpass]
  | ok result =>
      obtain ⟨pass, marked⟩ := result
      have hbudget := Sizing.budget_le (z := sizing ast consts)
        (sizes pass.layout.instructionLengths marked)
      rw [countP_sizing] at hbudget
      have hfrom : FromPass ast consts pass.layout marked := ⟨_, _, _, rfl, rfl, hpass, rfl⟩
      have hloop : ∃ result, ∀ more, relax ast consts limits
          (2 * relaxableBranches ast.items + 1 + more) (some pass.layout) marked = some result :=
        relax_of_budget hfrom (Nat.lt_succ_of_le hbudget)
      obtain ⟨result, hresult⟩ := hloop
      refine ⟨result, fun passes hpasses => ?_⟩
      obtain ⟨more, rfl⟩ := Nat.exists_eq_add_of_le hpasses
      have hsum : 2 * relaxableBranches ast.items + 2 + more =
          2 * relaxableBranches ast.items + 1 + more + 1 := by omega
      rw [hsum]
      unfold relax
      rw [hpass]
      simp only
      rw [if_neg (by simp)]
      exact hresult more

/-- The last pass had its own layout as its hint. -/
theorem relax_fixpoint {passes : Nat} {previous : Option EncodingLayout}
    (h : relax ast consts limits passes previous forced = some (.ok pass)) :
    ∃ forced marked,
      encodeOnce { ast, hint := some pass.layout, consts, limits } forced = .ok (pass, marked) := by
  induction passes generalizing previous forced with
  | zero => cases h
  | succ passes ih =>
      unfold relax at h
      cases hpass : encodeOnce { ast, hint := previous, consts, limits } forced with
      | error e =>
          rw [hpass] at h
          cases h
      | ok result =>
          obtain ⟨pass', marked⟩ := result
          rw [hpass] at h
          simp only at h
          split at h
          case isTrue hsame =>
            cases h
            rw [hsame] at hpass
            exact ⟨forced, marked, hpass⟩
          case isFalse => exact ih h

theorem relax_settles {passes : Nat} {previous : Option EncodingLayout}
    {result : Except AsmError EncodingPass}
    (h : relax ast consts limits passes previous forced = some result) : Settles result := by
  induction passes generalizing previous forced with
  | zero => cases h
  | succ passes ih =>
      unfold relax at h
      split at h
      case h_1 hpass =>
        cases h
        have hsettles := settles_encodeOnce { ast, hint := previous, consts, limits } forced
        rw [hpass] at hsettles
        rintro _ ⟨⟩
        exact hsettles _ rfl
      case h_2 =>
        split at h
        · cases h
          exact settles_ok _
        · exact ih h

/-- With two passes for each branch that may be short and two more, the passes end: with an
error of a pass, or with a layout that the next pass has again. The error for a layout that does
not settle is not returned. -/
theorem encodeWithLimits_converges (ast : Ast) (limits : AssemblyLimits)
    (h : 2 * relaxableBranches ast.items + 2 ≤ limits.maxRelaxIterations) :
    (∀ consts, ∃ result,
      (∀ passes, 2 * relaxableBranches ast.items + 2 ≤ passes →
        relax ast consts limits passes none [] = some result) ∧
      ∀ pass, result = .ok pass → ∃ forced marked,
        encodeOnce { ast, hint := some pass.layout, consts, limits } forced =
          .ok (pass, marked)) ∧
    ∀ passes, encodeWithLimits ast limits ≠ .error (.encodeError (.notConverged passes)) := by
  constructor
  · intro consts
    obtain ⟨result, hresult⟩ := relax_converges ast consts limits
    refine ⟨result, hresult, fun pass hpass => ?_⟩
    have hlast := hresult _ le_rfl
    rw [hpass] at hlast
    exact relax_fixpoint hlast
  · intro passes herror
    have hsettles : Settles (encodeWithLimits ast limits) := by
      unfold encodeWithLimits encodeWithin
      simp only [settles_bind]
      refine ⟨settles_resolveConstants ast, fun consts _ => ⟨?_, fun pass _ =>
        settles_resolveLoops ast pass⟩⟩
      obtain ⟨result, hresult⟩ := relax_converges ast consts limits
      rw [hresult _ h]
      exact relax_settles (hresult _ h)
    exact hsettles _ herror trivial

/-- A loop over an alignment. -/
def alignedLoop : Ast where
  items := [.label "start", .instruction ⟨"je", [.label "done"]⟩,
    .directive ⟨"align", [.expr (.number 64)]⟩, .instruction ⟨"jmp", [.label "start"]⟩,
    .label "done", .instruction ⟨"ret", []⟩]
  spans := []
  sourceName := "loop.asm"

theorem encodeWithLimits_converges_alignedLoop :
    ¬ ∃ passes, encodeWithLimits alignedLoop ⟨4096, 6⟩ =
      .error (.encodeError (.notConverged passes)) :=
  not_exists.mpr (encodeWithLimits_converges alignedLoop ⟨4096, 6⟩ (by decide)).2

end Whale.Assembler.Amd64
