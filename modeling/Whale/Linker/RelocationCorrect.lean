import Whale.Linker.Occupied
import Whale.Linker.RelocationSpec
import Whale.Linker.Sites

set_option autoImplicit false

/-! # Relocation is exact and local

One relocation first: what its patch is and when there is one (`patchOf_iff`). Then the patches of
a list of relocations, and what they leave of the payloads. -/

namespace Whale.Linker

/-! ## The bytes of a value -/

/-- The low bytes of the value. -/
def valueBytes (v : Int) (width : Nat) : List UInt8 := (leBytes 8 (v % 2 ^ 64).toNat).take width

theorem length_valueBytes (v : Int) {width : Nat} (h : width ≤ 8) :
    (valueBytes v width).length = width := by
  rw [valueBytes, List.length_take, length_leBytes]
  omega

theorem decode_valueBytes {f : FieldForm} {v : Int} (hf : 0 < f.width ∧ f.width ≤ 8)
    (hv : f.Fits v) : f.decode (valueBytes v f.width) = v := by
  unfold FieldForm.decode
  rw [valueBytes, take_leBytes _ hf.2]
  rw [length_leBytes, leValue_leBytes]
  have hpow : 256 ^ f.width = 2 ^ (8 * f.width) := by rw [Nat.pow_mul]
  have hnat : (((v % 2 ^ 64).toNat : Nat) : Int) = v % 2 ^ 64 :=
    Int.toNat_of_nonneg (Int.emod_nonneg v (by decide))
  have hcongr : (((v % 2 ^ 64).toNat % 256 ^ f.width : Nat) : Int) ≡ v
      [ZMOD (2 ^ (8 * f.width) : Nat)] := by
    rw [hpow, Int.natCast_mod, hnat]
    refine (Int.mod_modEq _ _).trans ((Int.mod_modEq v (2 ^ 64)).of_dvd ?_)
    have hdvd : (2 : Nat) ^ (8 * f.width) ∣ 2 ^ 64 := pow_dvd_pow 2 (by omega)
    exact_mod_cast hdvd
  rw [reading_congr f.isSigned hcongr]
  exact reading_of_inRange (by omega) hv

/-! ## The rule and the code -/

theorem value_eq_form (kind : RelocKind) (target : Nat) (addend : Int) (place : Nat) :
    RelocKind.value kind (target + addend) place =
      (fieldForm kind).map fun f => (f.value target addend place, f.width) := by
  cases kind <;> rfl

theorem fits_iff_form {kind : RelocKind} {f : FieldForm} (h : fieldForm kind = some f) (v : Int) :
    RelocKind.fits kind v = true ↔ f.Fits v := by
  cases kind <;> cases h <;> simp [RelocKind.fits, FieldForm.Fits, InRange]

namespace Site

def key (x : Site) : PatchKey := (x.1.2, x.2.sectionIndex, x.2.offset)

/-- The patch that stores the value. -/
def patch (x : Site) (v : Int) : Patch where
  objectIndex := x.1.2
  sectionIndex := x.2.sectionIndex
  offset := x.2.offset
  bytes := valueBytes v x.width

theorem apart_iff {x y : Site} : Apart x y ↔ ¬ Touches y.key y.stop (x.key, x.stop) := by
  show (x.1.2 = y.1.2 → x.2.sectionIndex = y.2.sectionIndex →
      x.stop ≤ y.2.offset ∨ y.stop ≤ x.2.offset) ↔
    ¬ (x.1.2 = y.1.2 ∧ x.2.sectionIndex = y.2.sectionIndex ∧ x.2.offset < y.stop ∧
      y.2.offset < x.stop)
  omega

end Site

theorem Site.key_lt_stop {x : Site} {f : FieldForm} (h : fieldForm x.2.kind = some f) :
    x.key.2.2 < x.stop := by
  have hpos := (fieldForm_width h).1
  show x.2.offset < x.2.offset + x.width
  rw [Site.width_of_form h]
  omega

/-- The relocation has a value that fits, and its field is in its section. -/
def Sound (objects : List ObjectFile) (layout : Layout) (x : Site) : Prop :=
  ∃ f v s, Stores objects layout x f v ∧ f.Fits v ∧
    x.1.1.sections[x.2.sectionIndex]? = some s ∧ x.stop ≤ s.data.length

/-- `p` is the patch of a sound relocation. -/
def PatchOf (objects : List ObjectFile) (layout : Layout) (x : Site) (p : Patch) : Prop :=
  ∃ f v, Stores objects layout x f v ∧ f.Fits v ∧ p = x.patch v

theorem Sound.key_lt_stop {objects : List ObjectFile} {layout : Layout} {x : Site}
    (h : Sound objects layout x) : x.key.2.2 < x.stop := by
  obtain ⟨f, v, s, hstores, -⟩ := h
  exact Site.key_lt_stop hstores.1

variable {patches : List Patch}

section

variable {objects : List ObjectFile} {layout : Layout} {x : Site}

theorem bindingOf_definition {e : ObjectFile × Nat} (he : e ∈ objects.zipIdx) {name : String}
    {i : Nat} {symbol : ObjectSymbol}
    (h : bindingOf objects e.1 e.2 name = some (.definition i symbol)) :
    ∃ o, objects[i]? = some o ∧ symbol ∈ o.symbols ∧ symbol.sectionIndex.isSome = true := by
  have hdefinition : ∀ {binding : SymbolBinding} {d : Nat × ObjectSymbol},
      definitionOf objects binding name = some d →
      ∃ o, objects[d.1]? = some o ∧ d.2 ∈ o.symbols ∧ d.2.sectionIndex.isSome = true :=
    fun hd => mem_definitionsOf.mp (List.mem_of_find?_eq_some hd)
  unfold bindingOf at h
  extract_lets declaration at h
  by_cases hlocal : declaration.any (·.binding = .local) = true
  · rw [if_pos hlocal] at h
    obtain ⟨found, hfound, heq⟩ := Option.map_eq_some_iff.mp h
    cases heq
    obtain ⟨hfind, hdefined⟩ := Option.filter_eq_some_iff.mp hfound
    exact ⟨e.1, List.mem_zipIdx_iff_getElem?.mp he, List.mem_of_find?_eq_some hfind, hdefined⟩
  · rw [if_neg hlocal] at h
    split at h
    · rename_i d hd
      cases h
      exact hdefinition hd
    · rename_i d _ hd
      cases h
      exact hdefinition hd
    · split at h <;> cases h

variable (haccepted : Accepted objects) (hplaces : layout.Places objects)

include haccepted hplaces

/-- What a relocation is bound to has an address below `2 ^ 64`. -/
theorem address_of_binding {e : ObjectFile × Nat} (he : e ∈ objects.zipIdx) {name : String}
    {b : Binding} (hb : bindingOf objects e.1 e.2 name = some b) :
    ∃ target, b.address layout = some target ∧ target < wordBound := by
  cases b with
  | null => exact ⟨0, rfl, by decide⟩
  | definition i symbol =>
      obtain ⟨o, ho, hsymbol, hdefined⟩ := bindingOf_definition he hb
      obtain ⟨si, hsi⟩ := Option.isSome_iff_exists.mp hdefined
      have hvalid := (haccepted o (List.mem_of_getElem? ho)).2
      obtain ⟨sec, hsec, hextent⟩ := ObjectFile.validate_extent hvalid hsymbol hsi
      have hsize := (ObjectFile.validate_sections hvalid sec (List.mem_of_getElem? hsec)).size
      have hat : sectionAt objects i si = some sec := by
        unfold sectionAt
        rw [ho]
        exact hsec
      obtain ⟨a, ha, hfits⟩ := hplaces i si sec hat
      have hend := hextent _ hsize
      have hbound := hfits _ hsize
      refine ⟨a + symbol.value.toNat, ?_, by omega⟩
      show (symbol.sectionIndex >>= layout.address i).map _ = _
      rw [hsi]
      show (layout.address i si).map _ = _
      rw [ha]
      rfl

/-- The section of a relocation, its address and that of the field. -/
theorem place_of_site (hx : x ∈ relocationsOf objects) :
    ∃ s base, x.1.1.sections[x.2.sectionIndex]? = some s ∧ objects[x.1.2]? = some x.1.1 ∧
      s.kind ≠ .bss ∧ s.data.length < wordBound ∧
      layout.address x.1.2 x.2.sectionIndex = some base ∧
      x.place layout = some (base + x.2.offset) ∧ base + x.2.offset < wordBound := by
  obtain ⟨he, hr⟩ := mem_relocationsOf.mp hx
  have ho := List.mem_zipIdx_iff_getElem?.mp he
  have hvalid := (haccepted x.1.1 (List.mem_of_getElem? ho)).2
  obtain ⟨-, s, hs, hkind, e, -, hinside⟩ :=
    (ObjectFile.validate_valid hvalid).relocations x.2 hr
  have hsection := ObjectFile.validate_sections hvalid s (List.mem_of_getElem? hs)
  have hat : sectionAt objects x.1.2 x.2.sectionIndex = some s := by
    unfold sectionAt
    rw [ho]
    exact hs
  obtain ⟨base, hbase, hfits⟩ := hplaces _ _ s hat
  have hbound := hfits _ hsection.size
  have hlength := hsection.fits
  refine ⟨s, base, hs, ho, hkind, by omega, hbase, ?_, by omega⟩
  rw [Site.place, hbase]
  rfl

/-- A relocation is sound unless there is a reason to refuse it. -/
theorem sound_iff (hx : x ∈ relocationsOf objects) :
    Sound objects layout x ↔ ¬ Refused objects layout x := by
  obtain ⟨s, base, hs, -, hkind, -, -, hplace, -⟩ := place_of_site haccepted hplaces hx
  constructor
  · rintro ⟨f, v, s', hstores, hfits, hs', hinside⟩ hrefused
    -- Each of the five refusals contradicts one clause of `Sound`.
    cases hrefused with
    | unsupported h =>
        rw [hstores.1] at h
        cases h
    | leavesSection h =>
        have hlt := h s' hs'
        omega
    | zeroFill s'' hs'' h =>
        rw [hs, Option.some.injEq] at hs''
        exact hkind (hs'' ▸ h)
    | unresolved h =>
        obtain ⟨-, b, _, _, hb, -⟩ := hstores
        rw [hb] at h
        cases h
    | range f' v' hv h =>
        obtain ⟨rfl, rfl⟩ := hstores.unique hv
        exact h hfits
  · intro hnot
    cases hform : fieldForm x.2.kind with
    | none => exact absurd (.unsupported hform) hnot
    | some f =>
        cases hb : bindingOf objects x.1.1 x.1.2 x.2.symbol with
        | none => exact absurd (.unresolved hb) hnot
        | some b =>
            obtain ⟨target, htarget, -⟩ :=
              address_of_binding haccepted hplaces (mem_relocationsOf.mp hx).1 hb
            have hstores : Stores objects layout x f
                (f.value target x.2.addend.toInt (base + x.2.offset)) :=
              ⟨hform, b, target, _, hb, htarget, hplace, rfl⟩
            refine ⟨f, _, s, hstores, ?_, hs, ?_⟩
            · by_contra hfits
              exact hnot (.range f _ hstores hfits)
            · by_contra hlt
              refine hnot (.leavesSection fun s' hs' => ?_)
              rw [hs, Option.some.injEq] at hs'
              rw [← hs']
              omega

/-! ## One relocation -/

omit haccepted hplaces in
theorem targetAddress_of_entry {b : Binding} {name : String} {r : ResolvedSymbol}
    {ref : ResolvedReference} {target : Nat} (hentry : b.Entry name r)
    (hweak : ref.weakUndefined = true ↔ b = .null) (htarget : b.address layout = some target)
    (hbound : target < wordBound) : targetAddress layout r ref = .ok target := by
  cases b with
  | null =>
      obtain ⟨-, hobject, hsection, -⟩ := hentry
      cases htarget
      unfold targetAddress
      rw [hobject, hsection]
      exact if_pos (hweak.mpr rfl)
  | definition i symbol =>
      obtain ⟨base, hbase, rfl⟩ := Option.map_eq_some_iff.mp htarget
      obtain ⟨si, hsi, hat⟩ := Option.bind_eq_some_iff.mp hbase
      obtain rfl : r = definedSymbol i symbol := hentry
      unfold targetAddress
      rw [show (definedSymbol i symbol).objectIndex = some i from rfl,
        show (definedSymbol i symbol).sectionIndex = some si from hsi]
      refine orThrow_ok_iff.mpr ?_
      rw [hat]
      exact checkedAdd_eq_some.mpr ⟨rfl, hbound⟩

variable {table : SymbolTable} {occupied : Occupied}

/-- A relocation has a patch exactly when it is sound and its field touches none before it. -/
theorem patchOf_iff {ref : ResolvedReference} (hx : x ∈ relocationsOf objects)
    (hbound : BoundTo objects table x ref) (hordered : occupied.Ordered) {result : Patch × Occupied}
    :
    patchOf objects layout table occupied x.2 ref = .ok result ↔
      Sound objects layout x ∧ (∀ e ∈ occupied, ¬ Touches x.key x.stop e) ∧
        ∃ p, PatchOf objects layout x p ∧ result = (p, occupied.insert x.key x.stop) := by
  obtain ⟨s, base, hs, ho, -, hlength, hbase, hplace, hfit⟩ :=
    place_of_site haccepted hplaces hx
  obtain ⟨⟨hobject, hsection, -⟩, b, r, hb, hget, hentry, hweak⟩ := hbound
  obtain ⟨target, htarget, hlt⟩ :=
    address_of_binding haccepted hplaces (mem_relocationsOf.mp hx).1 hb
  have htargetAddress := targetAddress_of_entry hentry hweak htarget hlt
  have hadd : checkedAdd base x.2.offset = some (base + x.2.offset) :=
    checkedAdd_eq_some.mpr ⟨rfl, hfit⟩
  unfold patchOf
  simp only [hobject, hsection, ho, hget, htargetAddress, hbase, hadd, hs, orThrow_some, ok_bind,
    value_eq_form]
  cases hform : fieldForm x.2.kind with
  | none =>
      constructor
      · intro h
        cases h
      · rintro ⟨⟨f, v, s', hstores, -⟩, -⟩
        rw [hstores.1] at hform
        cases hform
  | some f =>
      have hstores : Stores objects layout x f
          (f.value target x.2.addend.toInt (base + x.2.offset)) :=
        ⟨hform, b, target, _, hb, htarget, hplace, rfl⟩
      simp only [Option.map_some, orThrow_some, ok_bind]
      generalize f.value target x.2.addend.toInt (base + x.2.offset) = v at *
      have hwidth : x.width = f.width := Site.width_of_form hform
      have hpos : x.key.2.2 < x.stop := Site.key_lt_stop hform
      have hover : occupied.overlaps x.key x.stop = false ↔
          ∀ e ∈ occupied, ¬ Touches x.key x.stop e := by
        rw [← Bool.not_eq_true, Occupied.overlaps_iff hordered hpos]
        push Not
        rfl
      have hstop : ∀ stop, (checkedAdd x.2.offset f.width).filter (· ≤ s.data.length) = some stop ↔
          x.stop ≤ s.data.length ∧ stop = x.stop := by
        intro stop
        rw [Option.filter_eq_some_iff, checkedAdd_eq_some, decide_eq_true_eq, Site.stop, hwidth]
        omega
      simp only [bind_ok_iff, require_ok_iff, orThrow_ok_iff, hstop, fits_iff_form hform]
      -- Each check of the source is one clause of the right side.
      constructor
      · rintro ⟨_, hfits, stop, ⟨hinside, rfl⟩, _, hfree, heq⟩
        cases heq
        refine ⟨⟨f, v, s, hstores, hfits, hs, hinside⟩, hover.mp hfree, x.patch v,
          ⟨f, v, hstores, hfits, rfl⟩, ?_⟩
        rw [Site.patch, hwidth]
        rfl
      · rintro ⟨⟨f', v', s', hstores', hfits, hs', hinside⟩, hfree, _,
          ⟨f'', v'', hstores'', -, rfl⟩, rfl⟩
        obtain ⟨rfl, rfl⟩ := hstores.unique hstores'
        obtain ⟨rfl, rfl⟩ := hstores.unique hstores''
        rw [hs, Option.some.injEq] at hs'
        subst hs'
        refine ⟨(), hfits, _, ⟨hinside, rfl⟩, (), hover.mpr hfree, ?_⟩
        rw [Site.patch, hwidth]
        rfl

/-! ## The list of relocations -/

theorem patchesOf_ok {xs : List Site} {refs : List ResolvedReference}
    (hbound : List.Forall₂ (BoundTo objects table) xs refs)
    (hmem : ∀ x ∈ xs, x ∈ relocationsOf objects) (hordered : occupied.Ordered)
    (h : patchesOf objects layout table ((xs.map Prod.snd).zip refs) occupied = .ok patches) :
    (∀ x ∈ xs, Sound objects layout x) ∧ xs.Pairwise Site.Apart ∧
      (∀ x ∈ xs, ∀ e ∈ occupied, ¬ Touches x.key x.stop e) ∧
      List.Forall₂ (PatchOf objects layout) xs patches := by
  -- `occupied` holds the fields patched so far, in order and apart.
  induction hbound generalizing occupied patches with
  | nil =>
      cases h
      exact ⟨fun _ hx => absurd hx List.not_mem_nil, .nil,
        fun _ hx => absurd hx List.not_mem_nil, .nil⟩
  | @cons x ref xs refs hfirst hrest ih =>
      have hx := hmem x List.mem_cons_self
      rw [List.map_cons, List.zip_cons_cons, patchesOf] at h
      cases hpatch : patchOf objects layout table occupied x.2 ref with
      | error e =>
          rw [hpatch] at h
          cases h
      | ok result =>
          rw [hpatch] at h
          obtain ⟨hsound, hfree, p, hp, rfl⟩ :=
            (patchOf_iff haccepted hplaces hx hfirst hordered).mp hpatch
          obtain ⟨ps, hps, heq⟩ := bind_ok_iff.mp h
          cases heq
          have hpos := hsound.key_lt_stop
          have hnew := hordered.fresh hpos hfree
          obtain ⟨hsounds, hapart, hfrees, hpatches⟩ :=
            ih (fun y hy => hmem y (List.mem_cons_of_mem x hy))
              (hordered.insert hpos hfree) hps
          refine ⟨?_, ?_, ?_, .cons hp hpatches⟩
          · intro y hy
            rcases List.mem_cons.mp hy with rfl | hy
            · exact hsound
            · exact hsounds y hy
          · refine List.pairwise_cons.mpr ⟨fun y hy => ?_, hapart⟩
            rw [Site.apart_iff]
            exact hfrees y hy _ ((Occupied.mem_insert hnew).mpr (.inl rfl))
          · intro y hy e he
            rcases List.mem_cons.mp hy with rfl | hy
            · exact hfree e he
            · exact hfrees y hy e ((Occupied.mem_insert hnew).mpr (.inr he))

theorem patchesOf_isOk {xs : List Site} {refs : List ResolvedReference}
    (hbound : List.Forall₂ (BoundTo objects table) xs refs)
    (hmem : ∀ x ∈ xs, x ∈ relocationsOf objects) (hordered : occupied.Ordered)
    (hsound : ∀ x ∈ xs, Sound objects layout x) (hapart : xs.Pairwise Site.Apart)
    (hfree : ∀ x ∈ xs, ∀ e ∈ occupied, ¬ Touches x.key x.stop e) :
    ∃ patches, patchesOf objects layout table ((xs.map Prod.snd).zip refs) occupied =
      .ok patches := by
  induction hbound generalizing occupied with
  | nil => exact ⟨[], rfl⟩
  | @cons x ref xs refs hfirst hrest ih =>
      have hx := hmem x List.mem_cons_self
      have hxsound := hsound x List.mem_cons_self
      have hxfree := hfree x List.mem_cons_self
      obtain ⟨hxapart, hapart⟩ := List.pairwise_cons.mp hapart
      obtain ⟨f, v, s, hstores, hfits, -⟩ := id hxsound
      have hpatch := (patchOf_iff haccepted hplaces hx hfirst hordered).mpr
        ⟨hxsound, hxfree, x.patch v, ⟨f, v, hstores, hfits, rfl⟩, rfl⟩
      have hpos := hxsound.key_lt_stop
      have hnew := hordered.fresh hpos hxfree
      obtain ⟨ps, hps⟩ := ih (fun y hy => hmem y (List.mem_cons_of_mem x hy))
        (hordered.insert hpos hxfree) (fun y hy => hsound y (List.mem_cons_of_mem x hy)) hapart
        fun y hy e he => by
          rcases (Occupied.mem_insert hnew).mp he with rfl | he
          · exact Site.apart_iff.mp (hxapart y hy)
          · exact hfree y (List.mem_cons_of_mem x hy) e he
      refine ⟨x.patch v :: ps, ?_⟩
      rw [List.map_cons, List.zip_cons_cons, patchesOf, hpatch]
      exact bind_ok_iff.mpr ⟨ps, hps, rfl⟩

end

/-! ## The budget -/

/-- The number of payload bytes of all sections. -/
def payloadBytes (objects : List ObjectFile) : Nat :=
  ((allSections objects).map fun e => e.2.data.length).sum

theorem mem_allSections {objects : List ObjectFile} {e : (Nat × Nat) × Section} :
    e ∈ allSections objects ↔ sectionAt objects e.1.1 e.1.2 = some e.2 := by
  obtain ⟨⟨oi, si⟩, s⟩ := e
  unfold allSections sectionAt
  simp only [List.mem_flatMap, List.mem_map, Prod.exists, List.mem_zipIdx_iff_getElem?,
    Prod.mk.injEq, Option.bind_eq_bind, Option.bind_eq_some_iff]
  constructor
  · rintro ⟨o, i, ho, t, j, ht, ⟨rfl, rfl⟩, rfl⟩
    exact ⟨o, ho, ht⟩
  · rintro ⟨o, ho, hs⟩
    exact ⟨o, oi, ho, s, si, hs, ⟨rfl, rfl⟩, rfl⟩

variable {maxBytes : Nat}

theorem foldlM_checkPlacement {layout : Layout} {es : List ((Nat × Nat) × Section)}
    (hplaced : ∀ e ∈ es, e.2.Valid ∧ ∃ a, layout.address e.1.1 e.1.2 = some a ∧ FitsAt e.2 a)
    (hmax : maxBytes < wordBound) {total : Nat}
    (hbudget : total + (es.map fun e => e.2.data.length).sum ≤ maxBytes) :
    ∃ total', es.foldlM (checkPlacement layout maxBytes) total = .ok total' := by
  induction es generalizing total with
  | nil => exact ⟨total, rfl⟩
  | cons e es ih =>
      obtain ⟨hvalid, a, ha, hfits⟩ := hplaced e List.mem_cons_self
      rw [List.map_cons, List.sum_cons] at hbudget
      obtain ⟨total', htotal'⟩ := ih (fun e' he' => hplaced e' (List.mem_cons_of_mem e he'))
        (show total + e.2.data.length + _ ≤ maxBytes by omega)
      have hend : checkedAdd a (e.2.data.length + e.2.zeroFill.toNat) = some _ :=
        checkedAdd_eq_some.mpr ⟨rfl, hfits _ hvalid.size⟩
      have htotal : (checkedAdd total e.2.data.length).filter (· ≤ maxBytes) =
          some (total + e.2.data.length) := by
        rw [Option.filter_eq_some_iff, checkedAdd_eq_some, decide_eq_true_eq]
        omega
      refine ⟨total', foldlM_cons_ok.mpr ⟨_, ?_, htotal'⟩⟩
      unfold checkPlacement
      simp only [ha, hvalid.size, hend, htotal, orThrow_some, ok_bind]

/-! ## The patched payloads -/

/-- One byte of the payloads. -/
def Payloads.byteAt (payloads : Payloads) (oi si i : Nat) : Option UInt8 :=
  payloads.at? oi si >>= (·[i]?)

/-- The byte at `i` of the section belongs to the patch. -/
def Patch.Covers (p : Patch) (oi si i : Nat) : Prop :=
  p.objectIndex = oi ∧ p.sectionIndex = si ∧ p.offset ≤ i ∧ i < p.offset + p.bytes.length

instance (p : Patch) (oi si i : Nat) : Decidable (p.Covers oi si i) :=
  inferInstanceAs (Decidable (_ ∧ _))

variable {payloads : Payloads}

theorem slice_of_byteAt {oi si start : Nat} {payload bytes : List UInt8}
    (hpayload : payloads.at? oi si = some payload)
    (h : ∀ j < bytes.length, payloads.byteAt oi si (start + j) = bytes[j]?) :
    slice payload start bytes.length = bytes := by
  refine List.ext_getElem? fun j => ?_
  rw [getElem?_slice]
  split
  · rename_i hj
    have hbyte := h j hj
    rw [Payloads.byteAt, hpayload] at hbyte
    exact hbyte
  · rename_i hj
    exact (List.getElem?_eq_none (Nat.le_of_not_lt hj)).symm

theorem byteAt_applyPatch {objects : List ObjectFile} (hfit : payloads.Fit objects) {p : Patch}
    (hp : p.Inside objects) (oi si i : Nat) :
    (applyPatch payloads p).byteAt oi si i =
      if p.Covers oi si i then p.bytes[i - p.offset]? else payloads.byteAt oi si i := by
  unfold Payloads.byteAt
  rw [at?_applyPatch]
  by_cases hkey : p.objectIndex = oi ∧ p.sectionIndex = si
  · obtain ⟨rfl, rfl⟩ := hkey
    obtain ⟨s, hs, hinside⟩ := hp
    obtain ⟨payload, hpayload, hlength⟩ := hfit _ _ s hs
    rw [if_pos ⟨rfl, rfl⟩, hpayload]
    show (patch payload p.offset p.bytes)[i]? = _
    rw [getElem?_patch (by omega)]
    exact if_congr ⟨fun h => ⟨rfl, rfl, h⟩, fun h => h.2.2⟩ rfl rfl
  · rw [if_neg hkey, if_neg fun h => hkey ⟨h.1, h.2.1⟩]

/-- The patched payloads have the bytes of the patches, and are what they were elsewhere. -/
theorem byteAt_applyPatches {objects : List ObjectFile} (hinside : ∀ p ∈ patches, p.Inside objects)
    (hapart : patches.Pairwise fun p q => ∀ oi si i, p.Covers oi si i → ¬ q.Covers oi si i)
    (hfit : payloads.Fit objects) (oi si i : Nat) :
    (∀ p ∈ patches, p.Covers oi si i →
      (patches.foldl applyPatch payloads).byteAt oi si i = p.bytes[i - p.offset]?) ∧
    ((∀ p ∈ patches, ¬ p.Covers oi si i) →
      (patches.foldl applyPatch payloads).byteAt oi si i = payloads.byteAt oi si i) := by
  induction patches generalizing payloads with
  | nil => exact ⟨nofun, fun _ => rfl⟩
  | cons p patches ih =>
      obtain ⟨hfirst, hapart⟩ := List.pairwise_cons.mp hapart
      have hp := hinside p List.mem_cons_self
      obtain ⟨hcovered, hother⟩ := ih (fun q hq => hinside q (List.mem_cons_of_mem p hq)) hapart
        (hfit.applyPatch hp)
      have hbyte := byteAt_applyPatch hfit hp oi si i
      refine ⟨fun q hq hcovers => ?_, fun hnot => ?_⟩
      · rcases List.mem_cons.mp hq with rfl | hq
        -- The patches behind the first one leave its bytes alone.
        · rw [if_pos hcovers] at hbyte
          exact (hother fun q' hq' => hfirst q' hq' oi si i hcovers).trans hbyte
        · exact hcovered q hq hcovers
      · rw [if_neg (hnot p List.mem_cons_self)] at hbyte
        exact (hother fun q hq => hnot q (List.mem_cons_of_mem p hq)).trans hbyte

theorem shape_applyPatch (payloads : Payloads) (p : Patch) :
    (applyPatch payloads p).map List.length = payloads.map List.length := by
  refine List.ext_getElem? fun i => ?_
  unfold applyPatch
  rw [List.getElem?_map, List.getElem?_map, List.getElem?_modify]
  split
  · cases payloads[i]? with
    | none => rfl
    | some row => simp
  · simp

theorem shape_applyPatches (patches : List Patch) (payloads : Payloads) :
    (patches.foldl applyPatch payloads).map List.length = payloads.map List.length := by
  induction patches generalizing payloads with
  | nil => rfl
  | cons p patches ih => exact (ih _).trans (shape_applyPatch payloads p)

section

variable {objects : List ObjectFile} {layout : Layout} {x : Site} {p : Patch}

theorem PatchOf.length (h : PatchOf objects layout x p) : p.bytes.length = x.width := by
  obtain ⟨f, v, hstores, -, rfl⟩ := h
  have hwidth := (fieldForm_width hstores.1).2
  rw [← Site.width_of_form hstores.1] at hwidth
  exact length_valueBytes v hwidth

theorem PatchOf.covers (h : PatchOf objects layout x p) (oi si i : Nat) :
    p.Covers oi si i ↔ x.Covers oi si i := by
  have hlength := h.length
  obtain ⟨f, v, -, -, rfl⟩ := h
  unfold Patch.Covers
  rw [hlength]
  rfl

variable (haccepted : Accepted objects) (hplaces : layout.Places objects)

include haccepted hplaces

theorem PatchOf.inside (h : PatchOf objects layout x p) (hx : x ∈ relocationsOf objects)
    (hsound : Sound objects layout x) : p.Inside objects := by
  have hlength := h.length
  obtain ⟨f, v, -, -, rfl⟩ := h
  obtain ⟨s, -, hs, ho, -⟩ := place_of_site haccepted hplaces hx
  obtain ⟨-, -, s', -, -, hs', hinside⟩ := hsound
  refine ⟨s', ?_, ?_⟩
  · show objects[x.1.2]? >>= (·.sections[x.2.sectionIndex]?) = _
    rw [ho]
    exact hs'
  · rw [hlength]
    exact hinside

theorem relocated_of_patches (hsound : ∀ x ∈ relocationsOf objects, Sound objects layout x)
    (hapart : (relocationsOf objects).Pairwise Site.Apart)
    (hpatches : List.Forall₂ (PatchOf objects layout) (relocationsOf objects) patches) :
    Relocated objects layout
      (patches.foldl applyPatch (objects.map fun o => o.sections.map Section.data)) := by
  have hinside : ∀ p ∈ patches, p.Inside objects := by
    intro p hp
    obtain ⟨x, hx, hpatch⟩ := exists_of_forall₂ hpatches.flip hp
    exact PatchOf.inside haccepted hplaces hpatch hx (hsound x hx)
  have hdisjoint :
      patches.Pairwise fun p q => ∀ oi si i, p.Covers oi si i → ¬ q.Covers oi si i := by
    refine pairwise_of_forall₂ ?_ hpatches hapart
    intro x y p q hp hq hxy oi si i hcovers hcovers'
    obtain ⟨hxo, hxs, hxlo, hxhi⟩ := (hp.covers oi si i).mp hcovers
    obtain ⟨hyo, hys, hylo, hyhi⟩ := (hq.covers oi si i).mp hcovers'
    rcases hxy (hxo.trans hyo.symm) (hxs.trans hys.symm) with hle | hle
    · omega
    · omega
  -- Patches that stay inside and apart write every byte at most once.
  have hbytes := byteAt_applyPatches hinside hdisjoint (fit_data objects)
  have hfit := (fit_data objects).applyPatches hinside
  have hshape := shape_applyPatches patches (objects.map fun o => o.sections.map Section.data)
  generalize patches.foldl applyPatch _ = payloads at *
  refine ⟨?_, fun (x : Site) hx => ?_, fun oi si s hs => ?_⟩
  · rw [hshape, List.map_map]
    exact List.map_congr_left fun o _ => List.length_map _
  · obtain ⟨p, hp, hpatch⟩ := exists_of_forall₂ hpatches hx
    obtain ⟨s, hs, hin⟩ := hinside p hp
    have hlength := hpatch.length
    have hcovers := hpatch.covers x.1.2 x.2.sectionIndex
    obtain ⟨f, v, hstores, hfits, rfl⟩ := hpatch
    obtain ⟨payload, hpayload, hsize⟩ := hfit _ _ s hs
    have hwidth := Site.width_of_form hstores.1
    have hend : x.2.offset + f.width ≤ payload.length := by
      rw [hsize, ← hwidth, ← hlength]
      exact hin
    refine ⟨payload, f, v, hpayload, hstores, hend, ?_⟩
    have hslice : slice payload x.2.offset (x.patch v).bytes.length = (x.patch v).bytes := by
      refine slice_of_byteAt hpayload fun j hj => ?_
      rw [hlength] at hj
      have hbyte := (hbytes x.1.2 x.2.sectionIndex (x.2.offset + j)).1 _ hp
        ((hcovers _).mpr ⟨rfl, rfl, Nat.le_add_right _ _, Nat.add_lt_add_left hj _⟩)
      rw [show x.2.offset + j - (x.patch v).offset = j from Nat.add_sub_cancel_left _ _] at hbyte
      exact hbyte
    rw [hlength, hwidth] at hslice
    rw [hslice]
    show f.decode (valueBytes v x.width) = v
    rw [hwidth]
    exact decode_valueBytes (fieldForm_width hstores.1) hfits
  · obtain ⟨payload, hpayload, hsize⟩ := hfit _ _ s hs
    refine ⟨payload, hpayload, hsize, fun i hnot => ?_⟩
    have hbyte := (hbytes oi si i).2 fun p hp hcovers => by
      obtain ⟨x, hx, hpatch⟩ := exists_of_forall₂ hpatches.flip hp
      exact hnot x hx ((PatchOf.covers hpatch oi si i).mp hcovers)
    obtain ⟨data, hdata, -⟩ := fit_data objects oi si s hs
    unfold Payloads.byteAt at hbyte
    rw [hpayload, at?_data hs] at hbyte
    exact hbyte

/-! ## All relocations -/

omit haccepted hplaces in
theorem relocations_eq_sites (objects : List ObjectFile) :
    objects.flatMap ObjectFile.relocations = (relocationsOf objects).map Prod.snd := by
  have hfrom : ∀ (os : List ObjectFile) (n : Nat), os.flatMap ObjectFile.relocations =
      ((os.zipIdx n).flatMap fun e => e.1.relocations.map (e, ·)).map Prod.snd := by
    intro os
    induction os with
    | nil => exact fun _ => rfl
    | cons o os ih =>
        intro n
        rw [List.zipIdx_cons, List.flatMap_cons, List.flatMap_cons, List.map_append, ← ih (n + 1),
          List.map_map]
        exact congrArg (· ++ _) (List.map_id _).symm
  exact hfrom objects 0

omit hplaces in
theorem patches_of_applyRelocations (h : applyRelocations objects layout maxBytes = .ok payloads) :
    ∃ table patches, resolve objects = .ok table ∧
      patchesOf objects layout table (((relocationsOf objects).map Prod.snd).zip table.references)
        [] = .ok patches ∧
      List.Forall₂ (BoundTo objects table) (relocationsOf objects) table.references ∧
      payloads = patches.foldl applyPatch (objects.map fun o => o.sections.map Section.data) := by
  unfold applyRelocations at h
  obtain ⟨table, htable, h₁⟩ := bind_ok_iff.mp h
  obtain ⟨_, -, h₂⟩ := bind_ok_iff.mp h₁
  obtain ⟨patches, hpatches, h₃⟩ := bind_ok_iff.mp h₂
  cases h₃
  rw [relocations_eq_sites] at hpatches
  have hresolve := mapError_ok_iff.mp htable
  exact ⟨table, patches, hresolve, hpatches, resolve_bound haccepted hresolve, rfl⟩

theorem applyRelocations_relocated (h : applyRelocations objects layout maxBytes = .ok payloads) :
    Relocated objects layout payloads := by
  obtain ⟨table, patches, -, hpatches, hbound, rfl⟩ := patches_of_applyRelocations haccepted h
  obtain ⟨hsound, hapart, -, hall⟩ := patchesOf_ok haccepted hplaces hbound (fun _ hx => hx)
    Occupied.ordered_nil hpatches
  exact relocated_of_patches haccepted hplaces hsound hapart hall

/-- Relocation succeeds exactly when the names resolve, every relocation is sound and no two
fields overlap. -/
theorem applyRelocations_isOk_iff (hmax : maxBytes < wordBound)
    (hbudget : payloadBytes objects ≤ maxBytes) :
    (∃ payloads, applyRelocations objects layout maxBytes = .ok payloads) ↔
      StrongUnique objects ∧ (∀ x ∈ relocationsOf objects, Sound objects layout x) ∧
        (relocationsOf objects).Pairwise Site.Apart := by
  constructor
  · rintro ⟨payloads, h⟩
    obtain ⟨table, patches, htable, hpatches, hbound, -⟩ := patches_of_applyRelocations haccepted h
    obtain ⟨hsound, hapart, -⟩ := patchesOf_ok haccepted hplaces hbound (fun _ hx => hx)
      Occupied.ordered_nil hpatches
    exact ⟨StrongUnique.of_resolve htable, hsound, hapart⟩
  · rintro ⟨hstrong, hsound, hapart⟩
    obtain ⟨table, htable⟩ := (resolve_isOk_iff_bound haccepted).mpr
      ⟨hstrong, fun x hx hnone => by
        obtain ⟨-, -, -, ⟨-, b, -, -, hb, -⟩, -⟩ := hsound x hx
        rw [hnone] at hb
        cases hb⟩
    have hplaced : ∀ e ∈ allSections objects,
        e.2.Valid ∧ ∃ a, layout.address e.1.1 e.1.2 = some a ∧ FitsAt e.2 a := by
      intro e he
      have hat := mem_allSections.mp he
      obtain ⟨o, ho, hs⟩ := Option.bind_eq_some_iff.mp hat
      exact ⟨ObjectFile.validate_sections (haccepted o (List.mem_of_getElem? ho)).2 e.2
        (List.mem_of_getElem? hs), hplaces _ _ _ hat⟩
    obtain ⟨total, htotal⟩ := foldlM_checkPlacement hplaced hmax
      (show 0 + payloadBytes objects ≤ maxBytes by omega)
    obtain ⟨patches, hpatches⟩ := patchesOf_isOk haccepted hplaces
      (resolve_bound haccepted htable) (fun _ hx => hx) Occupied.ordered_nil hsound hapart
      fun _ _ _ he => absurd he List.not_mem_nil
    refine ⟨patches.foldl applyPatch (objects.map fun o => o.sections.map Section.data), ?_⟩
    unfold applyRelocations
    rw [htable, relocations_eq_sites]
    refine bind_ok_iff.mpr ⟨table, rfl, bind_ok_iff.mpr ⟨total, htotal, ?_⟩⟩
    exact bind_ok_iff.mpr ⟨patches, hpatches, rfl⟩

end

end Whale.Linker
