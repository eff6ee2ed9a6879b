import Whale.IR.Layout
import Whale.Interp.Scalar
import Whale.Lib.AssocMap
import Whale.Lib.Bytes

set_option autoImplicit false

/-! # Tracked memory: data

Synthetic 64-bit addresses, byte initialization and separately copied capabilities. A
pointer is an address and possibly a capability, the right to touch a range of one
allocation; the bytes of a stored pointer carry fragments of it, byte by byte.

The fragments of an allocation are a hash map whose capacity is charged as work. What the
capacity is, is up to the host: `Memory.capacity` gives it as a function of the operations
the map has seen (`Allocation.history`). Failing host allocations are not modelled. -/

namespace Whale

structure MemoryLimits where
  maxBytes : Nat
  maxAllocations : Nat
  maxPointerFragments : Nat
  maxWork : Nat
  deriving DecidableEq

def MemoryLimits.default : MemoryLimits where
  maxBytes := 64 * 1024 * 1024
  maxAllocations := 16384
  maxPointerFragments := 262144
  maxWork := 256 * 1024 * 1024

inductive MemoryResource where
  | bytes
  | allocations
  | pointerFragments
  | work
  | hostAllocation
  deriving DecidableEq

inductive MemoryTrap where
  | nullPointer
  | missingProvenance
  | expiredAllocation
  | outOfBounds
  | addressOverflow
  | permissionDenied
  | misaligned (address align : Nat)
  | uninitialized (offset : Nat)
  | invalidBool (byte : UInt8)
  | overlappingCopy
  | differentAllocation
  | invalidLifetimeEnd
  deriving DecidableEq

/-- How a memory operation fails. `panic` stands for the source's `unreachable!`, `unwrap`,
`expect` and index panics; no operation on well-formed operands reaches it. -/
inductive Fault where
  | trap (t : MemoryTrap)
  | limit (resource : MemoryResource) (limit : Nat)
  | panic
  deriving DecidableEq

/-- The right to touch the bytes `lower..upper` of one allocation, standing at `offset`. -/
structure Capability where
  arena : Nat
  allocation : Nat
  generation : Nat
  lower : Nat
  upper : Nat
  offset : Nat
  read : Bool
  write : Bool
  deriving DecidableEq

structure Pointer where
  address : UInt64
  capability : Option Capability
  deriving DecidableEq

/-- A pointer without any authority. -/
def Pointer.raw (address : UInt64) : Pointer where
  address := address
  capability := none

inductive FunctionTarget where
  | null
  | defined (id : FunctionId)
  | invalidBits (bits : UInt64)
  deriving DecidableEq

structure FunctionPointer where
  signature : FunctionSignature
  target : FunctionTarget
  deriving DecidableEq

def FunctionPointer.bits (p : FunctionPointer) : UInt64 :=
  match p.target with
  | .null => 0
  | .defined id => UInt64.ofNat (id.num.toNat + 1)
  | .invalidBits bits => bits

/-- A run-time value. -/
inductive Value where
  | scalar (value : ConstValue)
  | checked (value : ConstValue) (overflow : Bool)
  | pointer (pointer : Pointer)
  | functionPointer (pointer : FunctionPointer)
  deriving DecidableEq

inductive StoredPointer where
  | data (pointer : Pointer)
  | function (pointer : FunctionPointer)
  deriving DecidableEq

def StoredPointer.bits : StoredPointer → UInt64
  | data p => p.address
  | function p => p.bits

/-- Byte number `byte` of a stored pointer. -/
structure Fragment where
  pointer : StoredPointer
  byte : Nat
  deriving DecidableEq

inductive AllocationKind where
  | stack
  | global
  deriving DecidableEq

/-- An operation of a hash map that may change its capacity. -/
inductive MapOp where
  | reserve (additional : Nat)
  | retainOutside (start stop : Nat)
  | extend (keys : List Nat)
  | clear
  deriving DecidableEq

structure Allocation where
  kind : AllocationKind
  address : Nat
  generation : Nat
  alive : Bool
  read : Bool
  write : Bool
  bytes : List UInt8
  initialized : List UInt8
  fragments : AssocMap Nat Fragment
  history : List MapOp

inductive GepStep where
  | stride (stride : Nat)
  | field (offset : Nat)
  deriving DecidableEq

structure Memory where
  arena : Nat
  allocations : List Allocation
  limits : MemoryLimits
  bytes : Nat
  fragments : Nat
  work : Nat
  nextAddress : Nat
  capacity : List MapOp → Nat

/-- An operation on memory: a result and the memory after it, also when it fails. -/
abbrev MemoryM := EStateM Fault Memory

/-- The memory a run starts with. -/
def Memory.new (arena : Nat) (capacity : List MapOp → Nat) (limits : MemoryLimits) : Memory where
  arena := arena
  allocations := []
  limits := limits
  bytes := 0
  fragments := 0
  work := 0
  nextAddress := 0x1000
  capacity := capacity

end Whale
