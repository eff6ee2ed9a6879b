import Whale.Object.Coff.Limit
import Whale.Object.MachO.Limit

set_option autoImplicit false

/-! # Exact output limits

An output limit is exact when it refuses the files above it and no others. The COFF writer has
exact limits. The Mach-O writer refuses some files that fit, since it counts sixteen bytes for a
relocation that takes eight. -/

namespace Whale

/-- With the limit the writer accepts what it accepts with the greatest one, if the file fits. -/
def LimitExact (write : ObjectFile → UInt64 → Except ObjectError (List UInt8)) (o : ObjectFile)
    (limit : UInt64) : Prop :=
  ∀ bytes, write o limit = .ok bytes ↔
    write o 0xffffffff = .ok bytes ∧ bytes.length ≤ limit.toNat

/-- The limits of both writers are exact but for the objects that Mach-O can hold in a file within
the limit and whose symbols and relocations, at sixteen bytes each, exceed it. -/
theorem outputLimits_exact_iff (o : ObjectFile) (limit : UInt64)
    (hlimit : limit.toNat ≤ 2 ^ 32 - 1) :
    LimitExact Coff.write o limit ∧ LimitExact MachO.write o limit ↔
      ¬ (MachO.Encodable o ∧ MachO.fileSize o ≤ limit.toNat ∧
        limit.toNat < (o.symbols.length + o.relocations.length) * 16) := by
  constructor
  · rintro ⟨-, hexact⟩ ⟨hencodable, hsize, hstaged⟩
    -- From the file's size up to the staged sizes the writer refuses what would fit.
    obtain ⟨bytes, hwrite⟩ := (MachO.write_accepts o).mpr hencodable
    have hfits : bytes.length ≤ limit.toNat := by
      rw [MachO.length_write hwrite]
      exact hsize
    have hsmall := (hexact bytes).mpr ⟨hwrite, hfits⟩
    have hestimate := ((MachO.write_limit o hlimit bytes).mp hsmall).2.2
    omega
  · intro hstaged
    refine ⟨fun bytes => Coff.write_limit o hlimit bytes, fun bytes => ?_⟩
    rw [MachO.write_limit o hlimit bytes]
    constructor
    · rintro ⟨hwrite, hfits, -⟩
      exact ⟨hwrite, hfits⟩
    · rintro ⟨hwrite, hfits⟩
      have hencodable := (MachO.write_accepts o).mp ⟨bytes, hwrite⟩
      have hsize := MachO.length_write hwrite
      refine ⟨hwrite, hfits, Nat.le_of_not_lt fun hlt => hstaged ⟨hencodable, ?_, hlt⟩⟩
      rw [← hsize]
      exact hfits

theorem outputLimits_exact_iff_call :
    LimitExact Coff.write MachO.callObject 4096 ∧ LimitExact MachO.write MachO.callObject 4096 :=
  (outputLimits_exact_iff MachO.callObject 4096 (by decide)).mpr fun h => by
    have hstaged := h.2.2
    revert hstaged
    decide

/-- A table of 83 calls of one function. -/
def callTable : ObjectFile where
  target := { format := .machO64, machine := .x86_64, endian := .little, addressBits := 64 }
  sections := [{ name := ".data", kind := .data, data := List.replicate 332 0, zeroFill := 0
                 align := 1 }]
  symbols := []
  relocations := (List.range 83).map fun i =>
    { sectionIndex := 0, offset := 4 * i, symbol := "f", addend := 0, kind := .plt32 }

/-- Its file has 1327 bytes, and with that limit it is refused. -/
theorem outputLimits_not_exact : ¬ ∀ (o : ObjectFile) (limit : UInt64),
    limit.toNat ≤ 2 ^ 32 - 1 → LimitExact Coff.write o limit ∧ LimitExact MachO.write o limit := by
  intro h
  have hrefused : (MachO.write callTable 1327).isOk = false := by decide +kernel
  have haccepted : (MachO.write callTable 0xffffffff).isOk = true := by decide +kernel
  have hsize : MachO.fileSize callTable = 1327 := by decide +kernel
  obtain ⟨bytes, hwrite⟩ := exists_of_isOk haccepted
  have hfits : bytes.length ≤ (1327 : UInt64).toNat := by
    rw [MachO.length_write hwrite, hsize]
    decide
  obtain ⟨-, hexact⟩ := h callTable 1327 (by decide)
  rw [(hexact bytes).mpr ⟨hwrite, hfits⟩] at hrefused
  cases hrefused

end Whale
