import Whale.Asmobj.Reference
import Whale.Asmobj.Table

set_option autoImplicit false

/-! # The rule and its cost

`relocationKind` selects what `selectKind` selects. Comparing the namespace is charged to the
budget; a budget that is too small is a failure. -/

namespace Whale.Asmobj

/-- The work of comparing a namespace with the literals. -/
def namespaceCost (namespaceName : Span) : Nat :=
  if namespaceName.bytes = aarch64.bytes then 7
  else if namespaceName.length = 7 then 14
  else if namespaceName.length = 11 then 11
  else 0

def kindCost (r : Relocation) : Nat := if r.kind = 6 then namespaceCost r.namespaceName else 0

section Namespace

variable {s : State} {namespaceName : Span}

theorem namesEqual_length {left : Span} (right : Span) (h : left.length ≠ right.length) :
    namesEqual s left right = (false, s) := if_pos h

/-- A comparison without enough work is a failure. -/
theorem namesEqual_short {left : Span} (right : Span) (h : left.length = right.length)
    (hwork : s.work < left.length) :
    namesEqual s left right = (false, { s with status := 9 }) := by
  unfold namesEqual charge
  rw [if_neg (not_not.mpr h), if_pos hwork]

theorem cost_seven {right : Span} (h : namespaceName.length = 7) (hright : right.length = 7) :
    (if namespaceName.length = right.length then namespaceName.length else 0) = 7 := by
  rw [hright, if_pos h, h]

theorem namespaceMachine_ok (hwork : namespaceCost namespaceName ≤ s.work) :
    namespaceMachine s namespaceName =
      (machineOf namespaceName.bytes, { s with work := s.work - namespaceCost namespaceName }) := by
  unfold namespaceCost at hwork ⊢
  unfold namespaceMachine machineOf
  -- The lengths are compared first: 7 leaves two candidates, 11 leaves one.
  by_cases haarch : namespaceName.bytes = aarch64.bytes
  · have hlength : namespaceName.length = 7 := congrArg List.length haarch
    rw [if_pos haarch] at hwork ⊢
    rw [if_pos haarch, namesEqual_self haarch (by omega), hlength]
  · rw [if_neg haarch] at hwork ⊢
    rw [if_neg haarch]
    have hloong {s' : State} (hne : namespaceName.length ≠ 11) :
        namesEqual s' namespaceName loongarch64 = (false, s') := namesEqual_length _ hne
    by_cases hseven : namespaceName.length = 7
    · -- Seven bytes are compared with two literals.
      rw [if_pos hseven] at hwork ⊢
      have hfirst := namesEqual_ne (s := s) aarch64 haarch (by
        show (if namespaceName.length = 7 then namespaceName.length else 0) ≤ s.work
        rw [if_pos hseven]
        omega)
      rw [hfirst, cost_seven hseven rfl]
      dsimp only
      by_cases hriscv : namespaceName.bytes = riscv64.bytes
      · have hleft : namespaceName.length ≤ s.work - 7 := by omega
        rw [if_pos hriscv, namesEqual_self hriscv hleft]
        dsimp only
        congr 2
        omega
      · have hsecond := namesEqual_ne (s := { s with work := s.work - 7 }) riscv64 hriscv
          (by
            show (if namespaceName.length = 7 then namespaceName.length else 0) ≤ s.work - 7
            rw [if_pos hseven]
            omega)
        rw [if_neg hriscv, hsecond, cost_seven hseven rfl]
        dsimp only
        rw [hloong (by omega)]
        have hlong : namespaceName.bytes ≠ loongarch64.bytes := fun heq => by
          have hlength : namespaceName.length = 11 := congrArg List.length heq
          omega
        rw [if_neg hlong]
        rfl
    · rw [if_neg hseven] at hwork ⊢
      have hriscv : namespaceName.bytes ≠ riscv64.bytes := fun heq =>
        hseven (congrArg List.length heq)
      rw [if_neg hriscv, namesEqual_length aarch64 hseven]
      dsimp only
      rw [namesEqual_length riscv64 hseven]
      dsimp only
      by_cases heleven : namespaceName.length = 11
      · rw [if_pos heleven] at hwork ⊢
        by_cases hlong : namespaceName.bytes = loongarch64.bytes
        · rw [if_pos hlong, namesEqual_self hlong (by omega), heleven]
        · have hthird := namesEqual_ne (s := s) loongarch64 hlong (by
            show (if namespaceName.length = 11 then namespaceName.length else 0) ≤ s.work
            rw [if_pos heleven]
            omega)
          have hcost : (if namespaceName.length = loongarch64.length then namespaceName.length
              else 0) = 11 := by
            show (if namespaceName.length = 11 then namespaceName.length else 0) = 11
            rw [if_pos heleven, heleven]
          rw [if_neg hlong, hthird, hcost]
      · have hlong : namespaceName.bytes ≠ loongarch64.bytes := fun heq =>
          heleven (congrArg List.length heq)
        rw [if_neg heleven, if_neg hlong, hloong heleven]
        rfl

theorem namespaceMachine_short (hwork : s.work < namespaceCost namespaceName) :
    (namespaceMachine s namespaceName).2.status = 9 := by
  unfold namespaceCost at hwork
  unfold namespaceMachine
  by_cases hseven : namespaceName.length = 7
  · have hlong : namespaceName.length ≠ loongarch64.length := by
      rw [hseven]
      decide
    by_cases hfirst : s.work < 7
    · -- No comparison can be paid.
      rw [namesEqual_short aarch64 hseven (by omega)]
      dsimp only
      rw [namesEqual_short riscv64 hseven (by show s.work < _; omega)]
      dsimp only
      rw [namesEqual_length _ hlong]
    · have haarch : namespaceName.bytes ≠ aarch64.bytes := fun heq => by
        rw [if_pos heq] at hwork
        exact hfirst hwork
      rw [if_neg haarch, if_pos hseven] at hwork
      have hcost := @cost_seven _ aarch64 hseven rfl
      rw [namesEqual_ne aarch64 haarch (by omega), hcost]
      dsimp only
      rw [namesEqual_short riscv64 hseven (by show s.work - 7 < _; omega)]
      dsimp only
      rw [namesEqual_length _ hlong]
  · have haarch : namespaceName.bytes ≠ aarch64.bytes := fun heq =>
      hseven (congrArg List.length heq)
    rw [if_neg haarch, if_neg hseven] at hwork
    by_cases heleven : namespaceName.length = 11
    · rw [if_pos heleven] at hwork
      rw [namesEqual_length aarch64 hseven]
      dsimp only
      rw [namesEqual_length riscv64 hseven]
      dsimp only
      rw [namesEqual_short loongarch64 heleven (by omega)]
    · rw [if_neg heleven] at hwork
      exact absurd hwork (Nat.not_lt_zero _)

end Namespace

section Kind

variable {s s' : State} {target : Target} {r : Relocation} {undefined : Nat}

/-- With enough work the rule is what is selected. -/
theorem relocationKind_eq (hstatus : s.status = 0) (hwork : kindCost r ≤ s.work) :
    relocationKind s target r undefined =
      (selectKind target r undefined, { s with work := s.work - kindCost r }) := by
  unfold kindCost at hwork ⊢
  unfold relocationKind selectKind
  by_cases hbranch : r.kind = 4
  · have hgeneric : r.kind ≠ 6 := by omega
    rw [if_neg hgeneric, if_pos hbranch, if_pos hbranch]
    split_ifs <;> rfl
  · rw [if_neg hbranch, if_neg hbranch]
    by_cases hspecific : r.kind = 6
    · rw [if_pos hspecific] at hwork ⊢
      rw [if_neg (not_not.mpr hspecific), if_neg (not_not.mpr hspecific),
        namespaceMachine_ok hwork]
      dsimp only
      rw [if_neg (not_not.mpr hstatus)]
      cases machineOf r.namespaceName.bytes with
      | none => rfl
      | some machine =>
          dsimp only
          split_ifs <;> rfl
    · rw [if_neg hspecific, if_pos hspecific, if_pos hspecific]
      rfl

theorem relocationKind_ok {selected : Nat × Nat} (hstatus : s.status = 0)
    (hrun : relocationKind s target r undefined = (.ok selected, s')) :
    kindCost r ≤ s.work ∧ selectKind target r undefined = .ok selected ∧
      s' = { s with work := s.work - kindCost r } := by
  by_cases hwork : kindCost r ≤ s.work
  · rw [relocationKind_eq hstatus hwork] at hrun
    obtain ⟨hselect, hs⟩ := Prod.mk.inj hrun
    exact ⟨hwork, hselect, hs.symm⟩
  · -- The comparisons of the namespace cannot be paid.
    have hspecific : r.kind = 6 := by
      by_contra hne
      unfold kindCost at hwork
      rw [if_neg hne] at hwork
      exact hwork (Nat.zero_le _)
    unfold kindCost at hwork
    rw [if_pos hspecific] at hwork
    have hshort := namespaceMachine_short (Nat.lt_of_not_le hwork)
    unfold relocationKind at hrun
    rw [if_neg (by omega), if_neg (not_not.mpr hspecific)] at hrun
    dsimp only at hrun
    rw [if_pos (by rw [hshort]; decide)] at hrun
    cases hrun

end Kind

end Whale.Asmobj
