import Whale.Verifier.Error

set_option autoImplicit false

/-! # Definitions of values and their types

The type table of a function must have one entry for each definition, with the type the
definition gives (`verifyValueTypes_ok_iff`). -/

namespace Whale

/-! ## Definitions -/

/-- The value an instruction defines and its type. -/
def instrResult : Instruction → Option (ValueId × Ty)
  | .nullFunction dst signature | .functionAddr dst _ signature => some (dst, .fnPtr signature)
  | .constDecl dst _ expression _ => some (dst, expression.ty)
  | .const dst ty _ | .undef dst ty | .mov dst ty _ | .bin dst _ ty _ _ | .neg dst ty _
  | .not dst ty _ | .select dst ty _ _ _ | .phi dst ty _ | .volatileLoad dst ty _ _
  | .load dst ty _ _ => some (dst, ty)
  | .cmp dst .. | .iCmp dst .. | .fCmp dst .. => some (dst, .bool)
  | .cast dst _ dstTy _ _ | .extract dst dstTy _ _ | .gep dst dstTy _ _ => some (dst, dstTy)
  | .checked dst _ ty _ _ => some (dst, .tuple [ty, .bool])
  | .alloca dst ty _ | .globalAddr dst _ ty => some (dst, .ptr ty)
  | .ptrDiff dst _ _ => some (dst, .i128)
  | .lifetimeEnd _ | .uninit .. | .volatileStore .. | .store .. | .memcpy .. | .memset ..
  | .trapIf .. => none
  | .call _ dst retTy _ _ => dst.map fun v => (v, retTy)

/-- The parameters and the results of the instructions. -/
def Function.definitions (f : Function) : List (ValueId × Ty) :=
  f.params.map (fun p => (p.id, p.ty)) ++ f.instructions.filterMap instrResult

/-! ## The check -/

/-- The annotations that come after one of the same value. -/
def checkAnnotations (func : String) :
    List (ValueId × Ty) → List ValueId → Except VerifyError Unit
  | [], _ => .ok ()
  | e :: types, seen => do
      require (e.1 ∉ seen) (VerifyError.duplicateValueType func e.1)
      checkAnnotations func types (e.1 :: seen)

/-- Each definition has its type; what remains of `seen` has no definition. -/
def checkDefinitions (f : Function) :
    List (ValueId × Ty) → List ValueId → Except VerifyError (List ValueId)
  | [], seen => .ok seen
  | d :: definitions, seen => do
      let got ← orThrow (f.valueType d.1) (VerifyError.missingValueType f.name d.1)
      require (got = d.2) (VerifyError.valueTypeMismatch f.name d.1 d.2 got)
      checkDefinitions f definitions (seen.filter (· ≠ d.1))

def verifyValueTypes (f : Function) : Except VerifyError Unit := do
  checkAnnotations f.name f.valueTypes []
  let seen ← checkDefinitions f f.definitions (f.valueTypes.map Prod.fst)
  f.valueTypes.forM fun e => require (e.1 ∉ seen) (VerifyError.unexpectedValueType f.name e.1)

/-! ## What the check accepts -/

theorem checkAnnotations_ok_iff {func : String} {types : List (ValueId × Ty)}
    {seen : List ValueId} :
    checkAnnotations func types seen = .ok () ↔
      (types.map Prod.fst).Nodup ∧ ∀ e ∈ types, e.1 ∉ seen := by
  induction types generalizing seen with
  | nil => exact ⟨fun _ => ⟨List.nodup_nil, nofun⟩, fun _ => rfl⟩
  | cons e types ih =>
      unfold checkAnnotations
      rw [bind_ok_iff, List.map_cons, List.nodup_cons, List.forall_mem_cons]
      constructor
      · rintro ⟨_, hrequire, hrest⟩
        obtain ⟨hnodup, hfresh⟩ := ih.mp hrest
        refine ⟨⟨?_, hnodup⟩, require_ok_iff.mp hrequire, fun x hx hseen => ?_⟩
        · intro hmem
          obtain ⟨x, hx, heq⟩ := List.mem_map.mp hmem
          exact hfresh x hx (heq ▸ List.mem_cons_self)
        · exact hfresh x hx (List.mem_cons_of_mem _ hseen)
      · rintro ⟨⟨hnew, hnodup⟩, hunseen, hfresh⟩
        refine ⟨(), require_of hunseen _, ih.mpr ⟨hnodup, fun x hx hseen => ?_⟩⟩
        rcases List.mem_cons.mp hseen with heq | hseen
        · exact hnew (heq ▸ List.mem_map_of_mem hx)
        · exact hfresh x hx hseen

theorem checkDefinitions_ok_iff {f : Function} {definitions : List (ValueId × Ty)}
    {seen rest : List ValueId} :
    checkDefinitions f definitions seen = .ok rest ↔
      (∀ d ∈ definitions, f.valueType d.1 = some d.2) ∧
        rest = seen.filter (· ∉ definitions.map Prod.fst) := by
  induction definitions generalizing seen with
  | nil => simp [checkDefinitions, eq_comm]
  | cons d definitions ih =>
      have hfilter : seen.filter (· ∉ (d :: definitions).map Prod.fst) =
          (seen.filter (· ≠ d.1)).filter (· ∉ definitions.map Prod.fst) := by
        rw [List.filter_filter]
        refine List.filter_congr fun x _ => ?_
        rw [← Bool.decide_and, decide_eq_decide, List.map_cons, List.mem_cons, not_or, and_comm]
      unfold checkDefinitions
      rw [bind_ok_iff, List.forall_mem_cons, hfilter]
      constructor
      · rintro ⟨got, hgot, h⟩
        obtain ⟨_, hrequire, h⟩ := bind_ok_iff.mp h
        obtain ⟨htypes, hrest⟩ := ih.mp h
        refine ⟨⟨?_, htypes⟩, hrest⟩
        rw [orThrow_ok_iff.mp hgot, require_ok_iff.mp hrequire]
      · rintro ⟨⟨hd, htypes⟩, hrest⟩
        exact ⟨d.2, orThrow_ok_iff.mpr hd,
          bind_ok_iff.mpr ⟨(), require_of rfl _, ih.mpr ⟨htypes, hrest⟩⟩⟩

/-- The table has one entry for each definition, of its type, and no other entry. -/
theorem verifyValueTypes_ok_iff {f : Function} :
    verifyValueTypes f = .ok () ↔
      (f.valueTypes.map Prod.fst).Nodup ∧ (∀ d ∈ f.definitions, f.valueType d.1 = some d.2) ∧
        ∀ e ∈ f.valueTypes, e.1 ∈ f.definitions.map Prod.fst := by
  unfold verifyValueTypes
  rw [bind_ok_iff]
  constructor
  · rintro ⟨_, hannotations, h⟩
    obtain ⟨rest, hdefinitions, h⟩ := bind_ok_iff.mp h
    obtain ⟨htypes, rfl⟩ := checkDefinitions_ok_iff.mp hdefinitions
    refine ⟨(checkAnnotations_ok_iff.mp hannotations).1, htypes, fun e he => ?_⟩
    have hrest := require_ok_iff.mp (forM_ok_iff.mp h e he)
    by_contra hundefined
    exact hrest (List.mem_filter.mpr ⟨List.mem_map_of_mem he, decide_eq_true hundefined⟩)
  · rintro ⟨hnodup, htypes, hdefined⟩
    refine ⟨(), checkAnnotations_ok_iff.mpr ⟨hnodup, fun _ _ => List.not_mem_nil⟩, ?_⟩
    refine bind_ok_iff.mpr ⟨_, checkDefinitions_ok_iff.mpr ⟨htypes, rfl⟩, ?_⟩
    refine forM_ok_iff.mpr fun e he => require_ok_iff.mpr fun hrest => ?_
    exact of_decide_eq_true (List.mem_filter.mp hrest).2 (hdefined e he)

end Whale
