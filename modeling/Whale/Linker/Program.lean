import Whale.Linker.Load
import Whale.Linker.RelocationCorrect
import Whale.Linker.Selection

set_option autoImplicit false

/-! # The linked program -/

namespace Whale.Linker

theorem LoadsAsLaidOut.payload {objects : List ObjectFile} {layout : Layout} {payloads : Payloads}
    {bytes payload : List UInt8} (h : LoadsAsLaidOut objects layout payloads bytes) {oi si : Nat}
    {s : Section} (hs : sectionAt objects oi si = some s) (hkind : s.kind ≠ .bss)
    (hpayload : payloads.at? oi si = some payload) :
    ∃ base, layout.address oi si = some base ∧ ∀ (i : Nat) b, payload[i]? = some b →
      imageByte bytes (base + i) = some (b, permission s.kind) := by
  obtain ⟨base, image, hplaced⟩ := h.placed oi si s hs
  obtain ⟨_, hat, -, himage⟩ := hplaced.image
  cases hpayload.symm.trans hat
  rw [sectionImage, if_neg hkind] at himage
  exact ⟨base, hplaced.address, fun i b hb => h.loaded oi si s _ _ hplaced i b (himage ▸ hb)⟩

/-- The loaded program holds the value of every relocation in its field, and the bytes of the
selected objects elsewhere. -/
def ProgramRelocated (inputs : List LinkInput) (entry : String) (maxBytes : Nat)
    (bytes : List UInt8) : Prop :=
  ∃ objects layout segments, select inputs entry maxBytes = .ok objects ∧
    executableLayout objects maxBytes = .ok (layout, segments) ∧
    (∀ x ∈ relocationsOf objects, ∃ f v place field, Stores objects layout x f v ∧
      Site.place layout x = some place ∧ field.length = f.width ∧ f.decode field = v ∧
      ∀ (i : Nat) b, field[i]? = some b → ∃ p, imageByte bytes (place + i) = some (b, p)) ∧
    ∀ oi si s, sectionAt objects oi si = some s → s.kind ≠ .bss → ∃ base,
      layout.address oi si = some base ∧ ∀ (i : Nat) b, s.data[i]? = some b →
        (∀ x ∈ relocationsOf objects, ¬ Site.Covers x oi si i) →
        imageByte bytes (base + i) = some (b, permission s.kind)

/-- What the linker writes loads as the relocated program. -/
theorem link_relocated {inputs : List LinkInput} {entry : String} {maxBytes : Nat}
    {bytes : List UInt8} (h : linkWithLimit inputs entry maxBytes = .ok bytes) :
    ProgramRelocated inputs entry maxBytes bytes := by
  unfold linkWithLimit at h
  obtain ⟨_, -, h⟩ := bind_ok_iff.mp h
  obtain ⟨objects, hobjects, h⟩ := bind_ok_iff.mp h
  obtain ⟨_, -, h⟩ := bind_ok_iff.mp h
  obtain ⟨_, layout, segments, payloads, hsymbols, hlayout, hpayloads, -, hloads⟩ :=
    writeExecutable_loads h
  obtain ⟨_, hchecked, -⟩ := bind_ok_iff.mp hsymbols
  have haccepted := checkInputs_iff.mp hchecked
  have hplaces := executableLayout_places hlayout
  have hrelocated := applyRelocations_relocated haccepted hplaces hpayloads
  refine ⟨objects, layout, segments, mapError_ok_iff.mp hobjects, hlayout, fun x hx => ?_,
    fun oi si s hs hkind => ?_⟩
  · obtain ⟨payload, f, v, hat, hstores, hinside, hdecode⟩ := hrelocated.field x hx
    obtain ⟨s, base, hs, ho, hkind, -, hbase, hplace, -⟩ := place_of_site haccepted hplaces hx
    have hsection : sectionAt objects x.1.2 x.2.sectionIndex = some s := by
      unfold sectionAt
      rw [ho]
      exact hs
    obtain ⟨_, hbase', hloaded⟩ := hloads.payload hsection hkind hat
    cases hbase.symm.trans hbase'
    refine ⟨f, v, _, _, hstores, hplace, length_slice hinside, hdecode, fun i b hb => ?_⟩
    rw [getElem?_slice] at hb
    split at hb
    · rw [Nat.add_assoc]
      exact ⟨_, hloaded _ b hb⟩
    · cases hb
  · obtain ⟨payload, hat, -, hinput⟩ := hrelocated.input oi si s hs
    obtain ⟨base, hbase, hloaded⟩ := hloads.payload hs hkind hat
    exact ⟨base, hbase, fun i b hb hx => hloaded i b ((hinput i hx).trans hb)⟩

theorem link_relocated_chainedInputs : ∃ bytes,
    linkWithLimit chainedInputs "_start" 65536 = .ok bytes ∧
      ProgramRelocated chainedInputs "_start" 65536 bytes := by
  obtain ⟨bytes, h⟩ := exists_of_isOk (x := linkWithLimit chainedInputs "_start" 65536)
    (by decide +kernel)
  exact ⟨bytes, h, link_relocated h⟩

end Whale.Linker
