import Whale.Linker.RelocationCorrect

set_option autoImplicit false

/-! # The order of relocations

Objects whose relocations are in another order (`Reordered`) have the same sections, symbols and
bindings, and the same relocations apart from their order. As there is one result of relocation,
it is the same for them. -/

namespace Whale.Linker

/-- The objects differ in the order of their relocations only. -/
structure Reordered (o o' : ObjectFile) : Prop where
  target : o.target = o'.target
  sections : o.sections = o'.sections
  symbols : o.symbols = o'.symbols
  relocations : o.relocations.Perm o'.relocations

theorem Reordered.symm {o o' : ObjectFile} (h : Reordered o o') : Reordered o' o :=
  ⟨h.target.symm, h.sections.symm, h.symbols.symm, h.relocations.symm⟩

/-- The sites of one relocation in the two lists of objects. -/
structure SameSite (x x' : Site) : Prop where
  object : Reordered x.1.1 x'.1.1
  index : x.1.2 = x'.1.2
  relocation : x.2 = x'.2

/-! ## Objects -/

theorem validateRelocations_ok_iff {target : ObjectTarget} {sections : List Section}
    {relocations : List ObjectRelocation} :
    ObjectFile.validateRelocations target sections relocations = .ok () ↔
      ∀ r ∈ relocations, r.validate target sections = .ok () := by
  induction relocations with
  | nil => exact ⟨fun _ _ hr => absurd hr List.not_mem_nil, fun _ => rfl⟩
  | cons r relocations ih =>
      show (r.validate target sections >>= fun _ => _) = .ok () ↔ _
      rw [bind_ok_iff, List.forall_mem_cons]
      constructor
      · rintro ⟨_, hr, hrest⟩
        exact ⟨hr, ih.mp hrest⟩
      · exact fun ⟨hr, hrest⟩ => ⟨(), hr, ih.mpr hrest⟩

theorem Reordered.validate {o o' : ObjectFile} (h : Reordered o o') (hvalid : o.validate = .ok ()) :
    o'.validate = .ok () := by
  unfold ObjectFile.validate at hvalid ⊢
  rw [h.target, h.sections, h.symbols] at hvalid
  cases htarget : o'.target.validate with
  | error e =>
      rw [htarget] at hvalid
      cases hvalid
  | ok u =>
      rw [htarget] at hvalid
      obtain ⟨_, hsections, h₁⟩ := bind_ok_iff.mp hvalid
      obtain ⟨_, hsymbols, hrelocations⟩ := bind_ok_iff.mp h₁
      refine bind_ok_iff.mpr ⟨_, hsections, bind_ok_iff.mpr ⟨_, hsymbols, ?_⟩⟩
      refine validateRelocations_ok_iff.mpr fun r hr => ?_
      exact validateRelocations_ok_iff.mp hrelocations r (h.relocations.mem_iff.mpr hr)

section

variable {objects objects' : List ObjectFile} (h : List.Forall₂ Reordered objects objects')

include h

theorem reordered_symm : List.Forall₂ Reordered objects' objects :=
  h.flip.imp fun _ _ hab => Reordered.symm hab

theorem reordered_accepted (haccepted : Accepted objects) : Accepted objects' := by
  intro o' ho'
  obtain ⟨o, ho, hsame⟩ := exists_of_forall₂ (reordered_symm h) ho'
  obtain ⟨htarget, hvalid⟩ := haccepted o ho
  exact ⟨hsame.target ▸ htarget, hsame.symm.validate hvalid⟩

theorem reordered_sections :
    objects.map ObjectFile.sections = objects'.map ObjectFile.sections := by
  induction h with
  | nil => rfl
  | cons hab _ ih => rw [List.map_cons, List.map_cons, hab.sections, ih]

theorem reordered_symbols : objects.flatMap ObjectFile.symbols =
    objects'.flatMap ObjectFile.symbols := by
  induction h with
  | nil => rfl
  | cons hab _ ih => rw [List.flatMap_cons, List.flatMap_cons, hab.symbols, ih]

theorem reordered_definitions : definitionsOf objects.zipIdx = definitionsOf objects'.zipIdx := by
  have hfrom : ∀ n, definitionsOf (objects.zipIdx n) = definitionsOf (objects'.zipIdx n) := by
    induction h with
    | nil => exact fun _ => rfl
    | @cons a b as bs hab _ ih =>
        intro n
        show ((a.symbols.filter (·.sectionIndex.isSome)).map (n, ·)) ++
          definitionsOf (as.zipIdx (n + 1)) = _
        rw [ih, hab.symbols]
        rfl
  exact hfrom 0

theorem reordered_sectionAt (oi si : Nat) : sectionAt objects oi si = sectionAt objects' oi si := by
  have hrow : ∀ os : List ObjectFile,
      sectionAt os oi si = (os.map ObjectFile.sections)[oi]? >>= (·[si]?) := by
    intro os
    unfold sectionAt
    rw [List.getElem?_map]
    cases os[oi]? <;> rfl
  rw [hrow, hrow, reordered_sections h]

theorem reordered_payloadBytes : payloadBytes objects = payloadBytes objects' := by
  have hfrom : ∀ n, (((objects.zipIdx n).flatMap fun o => o.1.sections.zipIdx.map fun s =>
      ((o.2, s.2), s.1))) = ((objects'.zipIdx n).flatMap fun o => o.1.sections.zipIdx.map fun s =>
        ((o.2, s.2), s.1)) := by
    induction h with
    | nil => exact fun _ => rfl
    | @cons a b as bs hab _ ih =>
        intro n
        rw [List.zipIdx_cons, List.zipIdx_cons, List.flatMap_cons, List.flatMap_cons, hab.sections,
          ih]
  unfold payloadBytes allSections
  rw [hfrom 0]

theorem reordered_places {layout : Layout} (hplaces : layout.Places objects) :
    layout.Places objects' :=
  fun oi si s hs => hplaces oi si s ((reordered_sectionAt h oi si).trans hs)

theorem reordered_strongUnique (hstrong : StrongUnique objects) : StrongUnique objects' := by
  unfold StrongUnique at hstrong ⊢
  rw [← reordered_symbols h]
  exact hstrong

/-! ## Sites -/

theorem reordered_site {x' : Site} (hx' : x' ∈ relocationsOf objects') :
    ∃ x ∈ relocationsOf objects, SameSite x x' := by
  obtain ⟨he, hr⟩ := mem_relocationsOf.mp hx'
  obtain ⟨o, ho, hsame⟩ :=
    forall₂_getElem? (reordered_symm h) (List.mem_zipIdx_iff_getElem?.mp he)
  refine ⟨((o, x'.1.2), x'.2), mem_relocationsOf.mpr ⟨?_, ?_⟩, hsame.symm, rfl, rfl⟩
  · exact List.mk_mem_zipIdx_iff_getElem?.mpr ho
  · exact hsame.relocations.mem_iff.mp hr

theorem reordered_binding {x x' : Site} (hsame : SameSite x x') (name : String) :
    bindingOf objects x.1.1 x.1.2 name = bindingOf objects' x'.1.1 x'.1.2 name := by
  unfold bindingOf definitionOf
  rw [reordered_definitions h, hsame.object.symbols, hsame.index]

theorem reordered_stores {layout : Layout} {x x' : Site} (hsame : SameSite x x') {f : FieldForm}
    {v : Int} (hstores : Stores objects layout x f v) : Stores objects' layout x' f v := by
  obtain ⟨hform, b, target, place, hb, htarget, hplace, rfl⟩ := hstores
  rw [reordered_binding h hsame] at hb
  unfold Site.place at hplace
  rw [hsame.index, hsame.relocation] at hplace
  rw [hsame.relocation] at hform hb ⊢
  exact ⟨hform, b, target, place, hb, htarget, hplace, rfl⟩

omit h in
theorem SameSite.stop {x x' : Site} (hsame : SameSite x x') : x.stop = x'.stop := by
  unfold Site.stop Site.width
  rw [hsame.relocation]

theorem reordered_sound {layout : Layout} {x x' : Site} (hsame : SameSite x x')
    (hsound : Sound objects layout x) : Sound objects' layout x' := by
  obtain ⟨f, v, s, hstores, hfits, hs, hinside⟩ := hsound
  rw [hsame.stop] at hinside
  rw [hsame.object.sections, hsame.relocation] at hs
  exact ⟨f, v, s, reordered_stores h hsame hstores, hfits, hs, hinside⟩

/-- The relocations of the objects, but for their order. -/
theorem reordered_perm :
    ((relocationsOf objects).map fun x => (x.1.2, x.2)).Perm
      ((relocationsOf objects').map fun x => (x.1.2, x.2)) := by
  have hfrom : ∀ n,
      (((objects.zipIdx n).flatMap fun e => e.1.relocations.map (e, ·)).map
        fun x => (x.1.2, x.2)).Perm
      (((objects'.zipIdx n).flatMap fun e => e.1.relocations.map (e, ·)).map
        fun x => (x.1.2, x.2)) := by
    induction h with
    | nil => exact fun _ => .nil
    | @cons a b as bs hab _ ih =>
        intro n
        rw [List.zipIdx_cons, List.zipIdx_cons, List.flatMap_cons, List.flatMap_cons,
          List.map_append, List.map_append, List.map_map, List.map_map]
        exact (hab.relocations.map fun r => (n, r)).append (ih (n + 1))
  exact hfrom 0

theorem reordered_apart (hapart : (relocationsOf objects).Pairwise Site.Apart) :
    (relocationsOf objects').Pairwise Site.Apart := by
  -- Whether two fields are apart depends on their places only.
  let ends (p : Nat × ObjectRelocation) : Nat :=
    p.2.offset + ((fieldForm p.2.kind).map FieldForm.width).getD 0
  let apart (p q : Nat × ObjectRelocation) : Prop :=
    p.1 = q.1 → p.2.sectionIndex = q.2.sectionIndex → ends p ≤ q.2.offset ∨ ends q ≤ p.2.offset
  have hsymm : Std.Symm apart := ⟨fun p q hpq hi hs => (hpq hi.symm hs.symm).symm⟩
  have hmap : ∀ xs : List Site,
      xs.Pairwise Site.Apart ↔ (xs.map fun x => (x.1.2, x.2)).Pairwise apart := by
    intro xs
    rw [List.pairwise_map]
    rfl
  exact (hmap _).mpr (((reordered_perm h).pairwise_iff (fun hpq => hsymm.symm _ _ hpq)).mp
    ((hmap _).mp hapart))

/-- A result of relocation is one for every order. -/
theorem reordered_relocated {layout : Layout} {payloads : Payloads}
    (hrelocated : Relocated objects layout payloads) : Relocated objects' layout payloads := by
  refine ⟨?_, fun x' hx' => ?_, fun oi si s hs => ?_⟩
  · have hlengths := congrArg (List.map List.length) (reordered_sections h)
    rw [List.map_map, List.map_map] at hlengths
    exact hrelocated.shape.trans hlengths
  · obtain ⟨x, hx, hsame⟩ := reordered_site h hx'
    obtain ⟨payload, f, v, hat, hstores, hinside, hdecode⟩ := hrelocated.field x hx
    rw [hsame.index, hsame.relocation] at hat
    rw [hsame.relocation] at hinside hdecode
    exact ⟨payload, f, v, hat, reordered_stores h hsame hstores, hinside, hdecode⟩
  · obtain ⟨payload, hat, hlength, hrest⟩ :=
      hrelocated.input oi si s ((reordered_sectionAt h oi si).trans hs)
    refine ⟨payload, hat, hlength, fun i hnot => hrest i fun x hx hcovers => ?_⟩
    obtain ⟨x', hx', hsame⟩ := reordered_site (reordered_symm h) hx
    refine hnot x' hx' ?_
    unfold Site.Covers at hcovers ⊢
    rw [hsame.index, hsame.relocation, hsame.stop]
    exact hcovers

end

/-! ## The theorem -/

section

variable {objects objects' : List ObjectFile} {layout : Layout} {maxBytes : Nat}

theorem applyRelocations_reordered (haccepted : Accepted objects)
    (hplaces : layout.Places objects) (hmax : maxBytes < wordBound)
    (hbudget : payloadBytes objects ≤ maxBytes) (h : List.Forall₂ Reordered objects objects')
    {payloads : Payloads} (hok : applyRelocations objects layout maxBytes = .ok payloads) :
    applyRelocations objects' layout maxBytes = .ok payloads := by
  have haccepted' := reordered_accepted h haccepted
  have hplaces' := reordered_places h hplaces
  obtain ⟨hstrong, hsound, hapart⟩ :=
    (applyRelocations_isOk_iff haccepted hplaces hmax hbudget).mp ⟨payloads, hok⟩
  obtain ⟨payloads', hok'⟩ :=
    (applyRelocations_isOk_iff haccepted' hplaces' hmax (reordered_payloadBytes h ▸ hbudget)).mpr
      ⟨reordered_strongUnique h hstrong, fun x' hx' => by
        obtain ⟨x, hx, hsame⟩ := reordered_site h hx'
        exact reordered_sound h hsame (hsound x hx), reordered_apart h hapart⟩
  have hrelocated := reordered_relocated h (applyRelocations_relocated haccepted hplaces hok)
  rw [hok', hrelocated.unique (applyRelocations_relocated haccepted' hplaces' hok')]

/-- **Relocation** stores exactly the values of the relocations and keeps every other byte. It
fails exactly when two strong definitions clash, a relocation is refused or two fields overlap,
and neither that nor the result depends on the order of the relocations. -/
theorem applyRelocations_exact (objects : List ObjectFile) (layout : Layout) (maxBytes : Nat)
    (haccepted : Accepted objects) (hlayout : ComputedLayout objects layout)
    (hmax : maxBytes < wordBound) (hbudget : payloadBytes objects ≤ maxBytes) :
    (∀ payloads, applyRelocations objects layout maxBytes = .ok payloads →
      Relocated objects layout payloads) ∧
    ((∃ e, applyRelocations objects layout maxBytes = .error e) ↔
      ¬ StrongUnique objects ∨ (∃ x ∈ relocationsOf objects, Refused objects layout x) ∨
        ¬ (relocationsOf objects).Pairwise Site.Apart) ∧
    ∀ objects', List.Forall₂ Reordered objects objects' → ∀ payloads,
      applyRelocations objects layout maxBytes = .ok payloads ↔
        applyRelocations objects' layout maxBytes = .ok payloads := by
  have hplaces := hlayout.places
  refine ⟨fun payloads h => applyRelocations_relocated haccepted hplaces h, ?_,
    fun objects' h payloads => ⟨?_, ?_⟩⟩
  · have hok := applyRelocations_isOk_iff haccepted hplaces hmax hbudget
    have hsound : (∀ x ∈ relocationsOf objects, Sound objects layout x) ↔
        ¬ ∃ x ∈ relocationsOf objects, Refused objects layout x := by
      push Not
      exact forall₂_congr fun x hx => sound_iff haccepted hplaces hx
    rw [hsound] at hok
    cases hresult : applyRelocations objects layout maxBytes with
    | ok payloads =>
        rw [hresult] at hok
        obtain ⟨hstrong, hnot, hapart⟩ := hok.mp ⟨payloads, rfl⟩
        simp [hstrong, hapart, hnot]
    | error e =>
        rw [hresult] at hok
        refine ⟨fun _ => ?_, fun _ => ⟨e, rfl⟩⟩
        by_contra hall
        push Not at hall
        obtain ⟨payloads, hpayloads⟩ := hok.mpr ⟨hall.1, by push Not; exact hall.2.1, hall.2.2⟩
        cases hpayloads
  · exact applyRelocations_reordered haccepted hplaces hmax hbudget h
  · exact applyRelocations_reordered (reordered_accepted h haccepted) (reordered_places h hplaces)
      hmax (reordered_payloadBytes h ▸ hbudget) (reordered_symm h)

/-- Two objects that call one another. -/
def mutualCalls : List ObjectFile :=
  [callingObject "_start" "helper", callingObject "helper" "_start"]

theorem applyRelocations_exact_calls :
    ∃ layout payloads, applyRelocations mutualCalls layout 65536 = .ok payloads ∧
      Relocated mutualCalls layout payloads := by
  have haccepted : Accepted mutualCalls := by
    unfold Accepted mutualCalls
    decide
  have hok : (match Layout.compute mutualCalls 4096 with
      | .ok layout => (applyRelocations mutualCalls layout 65536).isOk
      | .error _ => false) = true := by decide +kernel
  cases hlayout : Layout.compute mutualCalls 4096 with
  | error e =>
      rw [hlayout] at hok
      cases hok
  | ok layout =>
      rw [hlayout] at hok
      change (applyRelocations mutualCalls layout 65536).isOk = true at hok
      cases hresult : applyRelocations mutualCalls layout 65536 with
      | error e =>
          rw [hresult] at hok
          cases hok
      | ok payloads =>
          exact ⟨layout, payloads, hresult, (applyRelocations_exact mutualCalls layout 65536
            haccepted (.inr ⟨4096, hlayout⟩) (by decide) (by decide)).1 payloads hresult⟩

end

end Whale.Linker
