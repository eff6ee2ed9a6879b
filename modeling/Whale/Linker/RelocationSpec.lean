import Whale.Linker.LayoutSpec
import Whale.Linker.Relocation
import Whale.Object.Valid

set_option autoImplicit false

/-! # What relocation does to payloads

Every patch lies inside its section, so that payloads keep their lengths. -/

namespace Whale.Linker

/-- `payloads` holds a payload of the right length for every section. -/
def Payloads.Fit (payloads : Payloads) (objects : List ObjectFile) : Prop :=
  ∀ oi si s, sectionAt objects oi si = some s →
    ∃ payload, payloads.at? oi si = some payload ∧ payload.length = s.data.length

/-- The patch lies inside its section. -/
def Patch.Inside (p : Patch) (objects : List ObjectFile) : Prop :=
  ∃ s, sectionAt objects p.objectIndex p.sectionIndex = some s ∧
    p.offset + p.bytes.length ≤ s.data.length

variable {objects : List ObjectFile}

theorem patchOf_inside {layout : Layout} {symbols : SymbolTable} {occupied occupied' : Occupied}
    {relocation : ObjectRelocation} {reference : ResolvedReference} {p : Patch}
    (h : patchOf objects layout symbols occupied relocation reference = .ok (p, occupied')) :
    p.Inside objects := by
  unfold patchOf at h
  obtain ⟨object, hobject, h⟩ := bind_ok_iff.mp h
  obtain ⟨symbol, -, h⟩ := bind_ok_iff.mp h
  obtain ⟨target, -, h⟩ := bind_ok_iff.mp h
  obtain ⟨base, -, h⟩ := bind_ok_iff.mp h
  obtain ⟨place, -, h⟩ := bind_ok_iff.mp h
  obtain ⟨⟨value, width⟩, -, h⟩ := bind_ok_iff.mp h
  obtain ⟨_, -, h⟩ := bind_ok_iff.mp h
  obtain ⟨s, hs, h⟩ := bind_ok_iff.mp h
  obtain ⟨stop, hstop, h⟩ := bind_ok_iff.mp h
  obtain ⟨_, -, h⟩ := bind_ok_iff.mp h
  cases h
  have hsection : sectionAt objects reference.objectIndex reference.sectionIndex = some s := by
    unfold sectionAt
    rw [orThrow_ok_iff.mp hobject]
    exact orThrow_ok_iff.mp hs
  obtain ⟨hsum, hle⟩ := Option.filter_eq_some_iff.mp (orThrow_ok_iff.mp hstop)
  have hsum := (checkedAdd_eq_some.mp hsum).1
  have hle : stop ≤ s.data.length := of_decide_eq_true hle
  refine ⟨s, hsection, ?_⟩
  simp only [List.length_take, length_leBytes]
  omega

theorem patchesOf_inside {layout : Layout} {symbols : SymbolTable}
    {es : List (ObjectRelocation × ResolvedReference)} {occupied : Occupied} {patches : List Patch}
    (h : patchesOf objects layout symbols es occupied = .ok patches) :
    ∀ p ∈ patches, p.Inside objects := by
  induction es generalizing occupied patches with
  | nil =>
      cases h
      exact fun p hp => nomatch hp
  | cons e es ih =>
      unfold patchesOf at h
      cases hpatch : patchOf objects layout symbols occupied e.1 e.2 with
      | error cause =>
          rw [hpatch] at h
          cases h
      | ok result =>
          rw [hpatch] at h
          obtain ⟨rest, hrest, h⟩ := bind_ok_iff.mp h
          cases h
          intro p hp
          rcases List.mem_cons.mp hp with rfl | hp
          · exact patchOf_inside hpatch
          · exact ih hrest p hp

theorem at?_applyPatch (payloads : Payloads) (p : Patch) (oi si : Nat) :
    (applyPatch payloads p).at? oi si =
      if p.objectIndex = oi ∧ p.sectionIndex = si then
        (payloads.at? oi si).map (patch · p.offset p.bytes)
      else payloads.at? oi si := by
  unfold Payloads.at? applyPatch
  by_cases hobject : p.objectIndex = oi
  · subst hobject
    rw [List.getElem?_modify_eq]
    cases payloads[p.objectIndex]? with
    | none => simp
    | some row =>
        show (row.modify p.sectionIndex _)[si]? = _
        by_cases hsection : p.sectionIndex = si
        · subst hsection
          rw [List.getElem?_modify_eq, if_pos ⟨rfl, rfl⟩]
          rfl
        · rw [List.getElem?_modify_ne _ _ hsection, if_neg (fun h => hsection h.2)]
          rfl
  · rw [List.getElem?_modify_ne _ _ hobject, if_neg (fun h => hobject h.1)]

variable {payloads : Payloads}

theorem Payloads.Fit.applyPatch {p : Patch} (h : payloads.Fit objects) (hp : p.Inside objects) :
    (Linker.applyPatch payloads p).Fit objects := by
  intro oi si s hs
  obtain ⟨payload, hpayload, hlen⟩ := h oi si s hs
  rw [at?_applyPatch]
  by_cases hkey : p.objectIndex = oi ∧ p.sectionIndex = si
  · obtain ⟨rfl, rfl⟩ := hkey
    obtain ⟨s', hs', hle⟩ := hp
    rw [hs, Option.some.injEq] at hs'
    subst hs'
    rw [if_pos ⟨rfl, rfl⟩, hpayload]
    exact ⟨_, rfl, by rw [length_patch (by omega), hlen]⟩
  · rw [if_neg hkey]
    exact ⟨payload, hpayload, hlen⟩

/-- The payload of a section before relocation is its data. -/
theorem at?_data {oi si : Nat} {s : Section} (hs : sectionAt objects oi si = some s) :
    Payloads.at? (objects.map fun o => o.sections.map Section.data) oi si = some s.data := by
  obtain ⟨o, ho, hs⟩ := Option.bind_eq_some_iff.mp hs
  unfold Payloads.at?
  rw [List.getElem?_map, ho]
  show (o.sections.map Section.data)[si]? = some s.data
  rw [List.getElem?_map, hs]
  rfl

theorem fit_data (objects : List ObjectFile) :
    Payloads.Fit (objects.map fun o => o.sections.map Section.data) objects :=
  fun _ _ s hs => ⟨s.data, at?_data hs, rfl⟩

theorem Payloads.Fit.applyPatches {patches : List Patch} (hinside : ∀ p ∈ patches, p.Inside objects)
    (h : payloads.Fit objects) : (patches.foldl Linker.applyPatch payloads).Fit objects := by
  induction patches generalizing payloads with
  | nil => exact h
  | cons p patches ih =>
      exact ih (fun q hq => hinside q (List.mem_cons_of_mem p hq))
        (h.applyPatch (hinside p List.mem_cons_self))

/-- Relocation returns a payload of the right length for every section. -/
theorem applyRelocations_fit {layout : Layout} {maxBytes : Nat}
    (h : applyRelocations objects layout maxBytes = .ok payloads) : payloads.Fit objects := by
  unfold applyRelocations at h
  obtain ⟨symbols, -, h⟩ := bind_ok_iff.mp h
  obtain ⟨_, -, h⟩ := bind_ok_iff.mp h
  obtain ⟨patches, hpatches, h⟩ := bind_ok_iff.mp h
  cases h
  exact (fit_data objects).applyPatches (patchesOf_inside hpatches)

end Whale.Linker
