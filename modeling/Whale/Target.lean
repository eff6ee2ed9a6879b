import Whale.Lib.Except

set_option autoImplicit false

/-! # Output target contracts -/

namespace Whale

inductive Endian where
  | little
  | big
  deriving DecidableEq

structure DataLayout where
  ptrBits : UInt32
  endian : Endian
  deriving DecidableEq

inductive ObjectFormat where
  | elf64
  | coff
  | machO64
  deriving DecidableEq

/-- Machine identity is not a promise that an encoder exists for that machine. -/
inductive Machine where
  | x86_64
  | aArch64
  | riscV64
  | loongArch64
  deriving DecidableEq

structure ObjectTarget where
  format : ObjectFormat
  machine : Machine
  endian : Endian
  addressBits : UInt32
  deriving DecidableEq

inductive TargetError where
  | unsupportedObjectTarget (target : ObjectTarget)
  | unsupportedAmd64ObjectTarget (target : ObjectTarget)
  deriving DecidableEq

namespace ObjectTarget

/-- The object target of `x86_64-whale-linux`. -/
def x86_64WhaleLinux : ObjectTarget where
  format := .elf64
  machine := .x86_64
  endian := .little
  addressBits := 64

/-- Serialization support is independent of static linker and reader support. -/
def validate (target : ObjectTarget) : Except TargetError Unit :=
  if target.endian = .little ∧ target.addressBits = 64 ∧
      (target.format = .elf64 ∨ target.machine = .x86_64 ∨ target.machine = .aArch64) then
    .ok ()
  else .error (.unsupportedObjectTarget target)

/-- The static linker and its relocation and layout functions implement AMD64 only. -/
def validateAmd64 (target : ObjectTarget) : Except TargetError Unit :=
  if target = x86_64WhaleLinux then .ok () else .error (.unsupportedAmd64ObjectTarget target)

/-- An ELF machine code, only for a supported ELF encoding contract. -/
def elfMachine (target : ObjectTarget) : Except TargetError Nat := do
  target.validate
  require (target.format = .elf64) (TargetError.unsupportedObjectTarget target)
  return match target.machine with
    | .x86_64 => 62
    | .aArch64 => 183
    | .riscV64 => 243
    | .loongArch64 => 258

def elfFlags (target : ObjectTarget) : Nat :=
  match target.machine with
  | .loongArch64 => 0x41
  | _ => 0

end ObjectTarget

end Whale
