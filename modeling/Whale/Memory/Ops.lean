import Whale.Memory.Basic

set_option autoImplicit false

/-! # Tracked memory: operations

The operations of the interpreter's memory. Those that only look are functions of the
memory; those that change it are computations in `MemoryM`, which keep what was already
charged when they fail. -/

namespace Whale

/-- The layout of a type whose layout was checked before execution. -/
def checkedLayout (ty : Ty) : Except Fault TypeLayout :=
  match layoutOfWithLimit ty maxIrNesting with
  | .ok layout => .ok layout
  | .error _ => .error .panic

/-- The scalar in a value. -/
def Value.scalarPart : Value → Except Fault ConstValue
  | scalar v => .ok v
  | _ => .error .panic

/-- The boolean in a value. -/
def Value.boolPart : Value → Except Fault Bool
  | scalar (.bool b) => .ok b
  | _ => .error .panic

/-- `i128::checked_*`: the result when it fits. -/
def checkedI128 (v : Int) : Option Int := if -2 ^ 127 ≤ v ∧ v < 2 ^ 127 then some v else none

/-- `retire_allocation` on one allocation. -/
def Allocation.retire (a : Allocation) : Allocation :=
  if a.alive then
    { a with
      alive := false, fragments := [], history := a.history ++ [.clear], bytes := [],
      initialized := [] }
  else a

/-- `retain` and `extend` on the fragments of one allocation. -/
def Allocation.replaced (a : Allocation) (start stop : Nat) (new : List (Nat × Fragment)) :
    Allocation :=
  { a with
    fragments := (a.fragments.retain fun i => !decide (start ≤ i ∧ i < stop)).extend new
    history := a.history ++
      [.reserve new.length, .retainOutside start stop, .extend (new.map Prod.fst)] }

/-- `initialized[start..stop].fill(flag)`. -/
def Allocation.fillInitialized (a : Allocation) (start stop : Nat) (flag : UInt8) : Allocation :=
  { a with initialized := patch a.initialized start (List.replicate (stop - start) flag) }

/-- `bytes[start..stop].fill(byte)`. -/
def Allocation.fillBytes (a : Allocation) (start stop : Nat) (byte : UInt8) : Allocation :=
  { a with bytes := patch a.bytes start (List.replicate (stop - start) byte) }

/-- The fragments of the range `start..stop`, moved to start at `target`. -/
def Allocation.shifted (a : Allocation) (start stop target : Nat) : List (Nat × Fragment) :=
  (a.fragments.filter fun e => start ≤ e.1 ∧ e.1 < stop).map fun e =>
    (target + (e.1 - start), e.2)

/-- The two `copy_from_slice` of a copy. -/
def Allocation.overwrite (a : Allocation) (start : Nat) (bytes initialized : List UInt8) :
    Allocation :=
  { a with
    bytes := patch a.bytes start bytes, initialized := patch a.initialized start initialized }

/-- Write single bytes, each of which becomes initialized. -/
def Allocation.writeBytes (a : Allocation) (bytes : List (Nat × UInt8)) : Allocation :=
  bytes.foldl
    (fun a e => { a with
      bytes := a.bytes.set e.1 e.2, initialized := a.initialized.set e.1 1 }) a

namespace Memory

/-- Run a look at the memory as an operation. -/
def look {α : Type} (f : Memory → Except Fault α) : MemoryM α := fun m =>
  match f m with
  | .ok a => .ok a m
  | .error e => .error e m

/-- Replace the allocation `id`. -/
def update (m : Memory) (id : Nat) (f : Allocation → Allocation) : Memory :=
  { m with allocations := m.allocations.modify id f }

def charge (work : Nat) : MemoryM Unit := do
  let m ← get
  let n ← orThrow ((checkedAdd m.work work).filter (· ≤ m.limits.maxWork))
    (Fault.limit .work m.limits.maxWork)
  set { m with work := n }

/-! ## Allocation and lifetime -/

/-- The address of the next allocation: `next` rounded up. -/
def placeAddress (next align : Nat) : Option Nat :=
  (checkedAdd next (align - 1)).map fun a => alignDown a align

/-- The first address after an allocation; an allocation without bytes takes one address,
and one address is left free after each. -/
def afterAddress (address size : Nat) : Option Nat := do
  let a ← checkedAdd address (max size 1)
  checkedAdd a 1

/-- The work of an allocation. -/
def allocationWork (size : Nat) : Option Nat := do
  let n ← checkedMul size 2
  checkedAdd n 1

def allocate (size natural align : Nat) : MemoryM Pointer := do
  let m ← get
  require (m.allocations.length < m.limits.maxAllocations)
    (Fault.limit .allocations m.limits.maxAllocations)
  let bytes ← orThrow ((checkedAdd m.bytes size).filter (· ≤ m.limits.maxBytes))
    (Fault.limit .bytes m.limits.maxBytes)
  let alignment := max align natural
  require (alignment ≠ 0) Fault.panic
  let address ← orThrow (placeAddress m.nextAddress alignment) (Fault.trap .addressOverflow)
  let next ← orThrow (afterAddress address size) (Fault.trap .addressOverflow)
  let work ← orThrow (allocationWork size) (Fault.trap .addressOverflow)
  charge work
  -- Physical zero bytes are not semantic initialization.
  let allocation : Allocation :=
    { kind := .stack, address := address, generation := 0, alive := true, read := true,
      write := true, bytes := List.replicate size 0, initialized := List.replicate size 0,
      fragments := [], history := [] }
  let capability : Capability :=
    { arena := m.arena, allocation := m.allocations.length, generation := 0, lower := 0,
      upper := size, offset := 0, read := true, write := true }
  modify fun m => { m with
    allocations := m.allocations ++ [allocation], bytes := bytes, nextAddress := next }
  return { address := UInt64.ofNat address, capability := some capability }

def allocateGlobal (size natural align : Nat) : MemoryM Pointer := do
  let pointer ← allocate size natural align
  let cap ← orThrow pointer.capability Fault.panic
  modify fun m => m.update cap.allocation fun a => { a with kind := .global }
  return pointer

/-- The allocation a pointer has authority over, and its capability. -/
def identity (m : Memory) (pointer : Pointer) : Except Fault (Nat × Capability) :=
  if pointer.address = 0 then .error (.trap .nullPointer)
  else
    match pointer.capability with
    | none => .error (.trap .missingProvenance)
    | some cap =>
        if cap.arena ≠ m.arena then .error (.trap .expiredAllocation)
        else
          match m.allocations[cap.allocation]? with
          | none => .error (.trap .expiredAllocation)
          | some allocation =>
              if allocation.alive = false ∨ allocation.generation ≠ cap.generation then
                .error (.trap .expiredAllocation)
              else if cap.lower > cap.offset ∨ cap.offset > cap.upper ∨
                  cap.upper > allocation.bytes.length ∨
                  checkedAdd allocation.address cap.offset ≠ some pointer.address.toNat then
                .error (.trap .outOfBounds)
              else .ok (cap.allocation, cap)

/-- The allocation with a given number. -/
def allocation (m : Memory) (id : Nat) : Except Fault Allocation :=
  orThrow m.allocations[id]? Fault.panic

def sealGlobal (pointer : Pointer) (readonly : Bool) : MemoryM Pointer := do
  let (id, cap) ← look (identity · pointer)
  let allocation ← look (allocation · id)
  require (allocation.kind = .global) (Fault.trap .invalidLifetimeEnd)
  modify fun m => m.update id fun a => { a with write := !readonly }
  return { pointer with capability := some { cap with write := !readonly } }

def retireAllocation (id : Nat) : MemoryM Unit := do
  let allocation ← look (allocation · id)
  if allocation.alive then
    let m ← get
    let fragments ← orThrow (checkedSub m.fragments allocation.fragments.length) Fault.panic
    set { m.update id Allocation.retire with fragments := fragments }
  else
    pure ()

def retireStack (pointer : Pointer) (ownerStart : Nat) : MemoryM Unit := do
  let (id, capability) ← look (identity · pointer)
  let allocation ← look (allocation · id)
  require (ownerStart ≤ id ∧ allocation.kind = .stack ∧ capability.offset = 0 ∧
      capability.lower = 0 ∧ capability.upper = allocation.bytes.length)
    (Fault.trap .invalidLifetimeEnd)
  charge (1 + allocation.fragments.length)
  retireAllocation id

/-- The loop of `retire_from`. -/
def retireStacks : List Nat → MemoryM Unit
  | [] => pure ()
  | id :: ids => do
      let allocation ← look (allocation · id)
      if allocation.kind = .stack then retireAllocation id else pure ()
      retireStacks ids

def retireFrom (start : Nat) : MemoryM Unit := do
  let m ← get
  let count ← orThrow (checkedSub m.allocations.length start) Fault.panic
  charge count
  retireStacks (List.range' start count)

def allocationCount (m : Memory) : Nat := m.allocations.length

/-! ## Pointers -/

def difference (m : Memory) (lhs rhs : Pointer) : Except Fault Int := do
  let (a, left) ← m.identity lhs
  let (b, right) ← m.identity rhs
  require (a = b ∧ left.generation = right.generation) (Fault.trap .differentAllocation)
  return left.offset - right.offset

def compareOrder (m : Memory) (lhs rhs : Pointer) : Except Fault Ordering := do
  let d ← m.difference lhs rhs
  return compare d 0

def equal (m : Memory) (lhs rhs : Pointer) : Except Fault Bool :=
  if lhs.address = 0 ∧ rhs.address = 0 then .ok true
  else if lhs.address = 0 then do
    let _ ← m.identity rhs
    return false
  else if rhs.address = 0 then do
    let _ ← m.identity lhs
    return false
  else do
    let (_, a) ← m.identity lhs
    let (_, b) ← m.identity rhs
    return decide ((a.allocation, a.generation, a.offset) = (b.allocation, b.generation, b.offset))

/-- The access of `n` bytes at a pointer: the allocation and the byte range. -/
def access (m : Memory) (pointer : Pointer) (n align : Nat) (write : Bool) :
    Except Fault (Nat × Nat × Nat) := do
  let (id, cap) ← m.identity pointer
  let stop ← orThrow (checkedAdd cap.offset n) (Fault.trap .addressOverflow)
  require (stop ≤ cap.upper) (Fault.trap .outOfBounds)
  let allocation ← m.allocation id
  let permitted := if write then cap.write && allocation.write else cap.read && allocation.read
  require (permitted = true) (Fault.trap .permissionDenied)
  require (align ≠ 0) Fault.panic
  require (pointer.address.toNat % align = 0)
    (Fault.trap (.misaligned pointer.address.toNat align))
  return (id, cap.offset, stop)

/-- The integer an index holds. -/
def gepIndex (index : ConstValue) : Except Fault Int :=
  match index with
  | .i v => .ok v.toInt
  | .u v => orThrow (checkedI128 v.toNat) (Fault.trap .addressOverflow)
  | _ => .error .panic

/-- The byte offset one step of a GEP plan adds. -/
def gepDelta (step : GepStep) (index : ConstValue) : Except Fault Int :=
  match step with
  | .field offset => .ok offset
  | .stride stride => do
      let index ← gepIndex index
      orThrow (checkedI128 (index * stride)) (Fault.trap .addressOverflow)

/-- The loop of `gep` over the steps and their indices. -/
def gepOffset (base offset : Int) : List (GepStep × ConstValue) → Except Fault Int
  | [] => .ok offset
  | (step, index) :: rest => do
      let delta ← gepDelta step index
      let offset ← orThrow (checkedI128 (offset + delta)) (Fault.trap .addressOverflow)
      let address ← orThrow (checkedI128 (base + offset)) (Fault.trap .addressOverflow)
      require (0 ≤ address ∧ address < wordBound) (Fault.trap .addressOverflow)
      gepOffset base offset rest

def gep (m : Memory) (pointer : Pointer) (plan : List GepStep) (indices : List ConstValue) :
    Except Fault Pointer :=
  if indices.isEmpty then .ok pointer
  else do
    let (_, cap) ← m.identity pointer
    let base : Int := pointer.address.toNat - cap.offset
    let offset ← gepOffset base cap.offset (plan.zip indices)
    require (0 ≤ offset ∧ offset < wordBound) (Fault.trap .outOfBounds)
    require (cap.lower ≤ offset ∧ offset ≤ cap.upper) (Fault.trap .outOfBounds)
    require (0 ≤ base + offset ∧ base + offset < wordBound) Fault.panic
    return { address := UInt64.ofNat (base + offset).toNat,
             capability := some { cap with offset := offset.toNat } }

/-! ## Fragments and raw bytes -/

def replaceFragments (id start stop : Nat) (new : List (Nat × Fragment)) : MemoryM Unit := do
  let m ← get
  let allocation ← look (allocation · id)
  charge (3 * m.capacity allocation.history + new.length)
  let removed := (allocation.fragments.filter fun e => start ≤ e.1 ∧ e.1 < stop).length
  let rest ← orThrow (checkedSub m.fragments removed) Fault.panic
  let count := rest + new.length
  require (count ≤ m.limits.maxPointerFragments)
    (Fault.limit .pointerFragments m.limits.maxPointerFragments)
  modify fun m => { m.update id (·.replaced start stop new) with fragments := count }

def uninit (pointer : Pointer) (size align : Nat) : MemoryM Unit := do
  let (id, start, stop) ← look (access · pointer size align true)
  charge (stop - start)
  replaceFragments id start stop []
  modify (·.update id (·.fillInitialized start stop 0))

/-- The work of a copy from an allocation whose fragment map has the given capacity. -/
def copyWork (size capacity : Nat) : Option Nat := do
  let n ← checkedMul size 4
  checkedAdd n capacity

def copy (dst src : Pointer) (size align : Nat) : MemoryM Unit :=
  -- No access occurs for an empty operation, even for null and raw pointers.
  if size = 0 then pure ()
  else do
    let (source, ss, se) ← look (access · src size align false)
    let (destination, ds, de) ← look (access · dst size align true)
    require (¬ (source = destination ∧ ss < de ∧ ds < se)) (Fault.trap .overlappingCopy)
    let m ← get
    let origin ← look (allocation · source)
    let work ← orThrow (copyWork size (m.capacity origin.history)) (Fault.trap .addressOverflow)
    charge work
    let data := slice origin.bytes ss (se - ss)
    let initialized := slice origin.initialized ss (se - ss)
    replaceFragments destination ds de (origin.shifted ss se ds)
    modify (·.update destination (·.overwrite ds data initialized))

/-- The source's `set`. -/
def setBytes (dst : Pointer) (byte : UInt8) (size align : Nat) : MemoryM Unit :=
  if size = 0 then pure ()
  else do
    let (id, start, stop) ← look (access · dst size align true)
    let work ← orThrow (checkedMul size 2) (Fault.trap .addressOverflow)
    charge work
    replaceFragments id start stop []
    modify (·.update id (·.fillBytes start stop byte))
    modify (·.update id (·.fillInitialized start stop 1))

/-! ## Typed access -/

/-- Each byte of the range must be initialized. -/
def checkInitialized (initialized : List UInt8) (start : Nat) : Nat → Except Fault Unit
  | 0 => .ok ()
  | n + 1 => do
      let b ← orThrow initialized[start]? Fault.panic
      require (b ≠ 0) (Fault.trap (.uninitialized start))
      checkInitialized initialized (start + 1) n

/-- The pointer whose eight fragments, in order, stand at `start`. -/
def completePointer (fragments : AssocMap Nat Fragment) (start : Nat) (address : UInt64) :
    Option StoredPointer :=
  match fragments.get start with
  | none => none
  | some fragment =>
      if fragment.byte = 0 ∧ fragment.pointer.bits = address ∧
          (List.range 8).all fun i =>
            fragments.get (start + i) = some { pointer := fragment.pointer, byte := i } then
        some fragment.pointer
      else none

/-- A loaded data pointer. -/
def loadedPointer (complete : Option StoredPointer) (address : UInt64) : Pointer :=
  if address = 0 then Pointer.raw 0
  else
    match complete with
    | some (.data pointer) => pointer
    | _ => Pointer.raw address

/-- A loaded function pointer of the given signature. -/
def loadedFunction (complete : Option StoredPointer) (address : UInt64)
    (signature : FunctionSignature) : FunctionPointer :=
  if address = 0 then { signature := signature, target := .null }
  else
    match complete with
    | some (.function pointer) =>
        if pointer.signature = signature then pointer
        else { signature := signature, target := .invalidBits address }
    | _ => { signature := signature, target := .invalidBits address }

/-- The value of type `ty` with the given bytes, read at `start` of an allocation with the
given fragments. -/
def decode (fragments : AssocMap Nat Fragment) (start : Nat) (ty : Ty)
    (callable : Option FunctionSignature) (bytes : List UInt8) : Except Fault Value :=
  match ty with
  | .bool => do
      let byte ← orThrow bytes[0]? Fault.panic
      if byte = 0 then .ok (.scalar (.bool false))
      else if byte = 1 then .ok (.scalar (.bool true))
      else .error (.trap (.invalidBool byte))
  | .ptr _ => do
      require (bytes.length = 8) Fault.panic
      let address := UInt64.ofNat (leValue bytes)
      return .pointer (loadedPointer (completePointer fragments start address) address)
  | .fnPtr signature => do
      require (bytes.length = 8) Fault.panic
      let address := UInt64.ofNat (leValue bytes)
      return .functionPointer (loadedFunction (completePointer fragments start address) address
        (callable.getD signature))
  | ty => do
      require (bytes.length ≤ 16) Fault.panic
      let v ← orThrow (Scalar.pack ty (leValue bytes)) Fault.panic
      return .scalar v

def loadScalar (m : Memory) (id start : Nat) (ty : Ty) (callable : Option FunctionSignature) :
    Except Fault Value := do
  let allocation ← m.allocation id
  let layout ← checkedLayout ty
  checkInitialized allocation.initialized start layout.size
  require (start + layout.size ≤ allocation.bytes.length) Fault.panic
  decode allocation.fragments start ty callable (slice allocation.bytes start layout.size)

/-- The two fields of a checked result and their offsets. -/
def checkedFields (fields : List Ty) (layout : TypeLayout) :
    Except Fault ((Ty × Nat) × (Ty × Nat)) := do
  let first ← orThrow fields[0]? Fault.panic
  let second ← orThrow fields[1]? Fault.panic
  let a ← orThrow layout.fieldOffsets[0]? Fault.panic
  let b ← orThrow layout.fieldOffsets[1]? Fault.panic
  return ((first, a), (second, b))

/-- The part of a load that follows the access. -/
def loadValue (m : Memory) (id start : Nat) (ty : Ty) (layout : TypeLayout)
    (signature : Option FunctionSignature) : Except Fault Value :=
  match ty with
  | .tuple fields => do
      let (first, second) ← checkedFields fields layout
      let a ← m.loadScalar id (start + first.2) first.1 none
      let b ← m.loadScalar id (start + second.2) second.1 none
      let a ← a.scalarPart
      let b ← b.boolPart
      return .checked a b
  | ty => m.loadScalar id start ty signature

def loadWithSignature (pointer : Pointer) (ty : Ty) (align : Nat)
    (signature : Option FunctionSignature) : MemoryM Value := do
  let layout ← look fun _ => checkedLayout ty
  let (id, start, stop) ← look (access · pointer layout.size align false)
  charge (stop - start)
  look (loadValue · id start ty layout signature)

/-- The number whose bytes a value is stored as, and the pointer whose fragments go along. -/
def storedBits (ty : Ty) (value : Value) : Except Fault (Nat × Option StoredPointer) :=
  match value with
  | .pointer p => .ok (p.address.toNat, some (.data p))
  | .functionPointer p => .ok (p.bits.toNat, some (.function p))
  | .scalar v => do
      let bits ← orThrow (Scalar.raw ty v) Fault.panic
      return (bits, none)
  | .checked _ _ => .error .panic

/-- The eight fragments of a pointer stored at `start`. -/
def fragmentsOf (pointer : Option StoredPointer) (start : Nat) : List (Nat × Fragment) :=
  match pointer with
  | none => []
  | some p => (List.range 8).map fun i => (start + i, Fragment.mk p i)

/-- Pair the bytes of a string with their positions. -/
def enumerate (start : Nat) : List UInt8 → List (Nat × UInt8)
  | [] => []
  | b :: bs => (start, b) :: enumerate (start + 1) bs

/-- The bytes and fragments of a value stored at `start`. -/
def encode (ty : Ty) (value : Value) (start : Nat) :
    Except Fault (List (Nat × UInt8) × List (Nat × Fragment)) := do
  let layout ← checkedLayout ty
  let (bits, pointer) ← storedBits ty value
  require (layout.size ≤ 16) Fault.panic
  return (enumerate start (leBytes layout.size bits), fragmentsOf pointer start)

/-- The bytes and fragments of a store, by the form of the value. -/
def encodeValue (ty : Ty) (layout : TypeLayout) (value : Value) (start : Nat) :
    Except Fault (List (Nat × UInt8) × List (Nat × Fragment)) :=
  match ty, value with
  | .tuple fields, .checked v flag => do
      let (first, second) ← checkedFields fields layout
      let (bytes, fragments) ← encode first.1 (.scalar v) (start + first.2)
      let (bytes', fragments') ← encode second.1 (.scalar (.bool flag)) (start + second.2)
      return (bytes ++ bytes', fragments ++ fragments')
  | ty, value => encode ty value start

def store (pointer : Pointer) (ty : Ty) (value : Value) (align : Nat) : MemoryM Unit := do
  let layout ← look fun _ => checkedLayout ty
  let (id, start, stop) ← look (access · pointer layout.size align true)
  let (bytes, fragments) ← look fun _ => encodeValue ty layout value start
  charge (stop - start)
  replaceFragments id start stop fragments
  let allocation ← look (allocation · id)
  require (∀ e ∈ bytes, e.1 < allocation.bytes.length) Fault.panic
  modify (·.update id (·.writeBytes bytes))

end Memory

/-! ## Operations as data -/

/-- The operations on memory a run is made of. -/
inductive MemoryOp where
  | allocate (size natural align : Nat)
  | allocateGlobal (size natural align : Nat)
  | sealGlobal (pointer : Pointer) (readonly : Bool)
  | retireStack (pointer : Pointer) (ownerStart : Nat)
  | retireFrom (start : Nat)
  | gep (pointer : Pointer) (plan : List GepStep) (indices : List ConstValue)
  | load (pointer : Pointer) (ty : Ty) (align : Nat) (signature : Option FunctionSignature)
  | store (pointer : Pointer) (ty : Ty) (value : Value) (align : Nat)
  | copy (dst src : Pointer) (size align : Nat)
  | set (dst : Pointer) (byte : UInt8) (size align : Nat)
  | uninit (pointer : Pointer) (size align : Nat)

/-- What an operation returns. -/
inductive MemoryOutput where
  | unit
  | pointer (pointer : Pointer)
  | value (value : Value)
  deriving DecidableEq

namespace MemoryOp

/-- Run one operation. -/
def run : MemoryOp → MemoryM MemoryOutput
  | allocate size natural align => do return .pointer (← Memory.allocate size natural align)
  | allocateGlobal size natural align => do
      return .pointer (← Memory.allocateGlobal size natural align)
  | sealGlobal pointer readonly => do return .pointer (← Memory.sealGlobal pointer readonly)
  | retireStack pointer ownerStart => do
      Memory.retireStack pointer ownerStart
      return .unit
  | retireFrom start => do
      Memory.retireFrom start
      return .unit
  | gep pointer plan indices => do
      return .pointer (← Memory.look (Memory.gep · pointer plan indices))
  | load pointer ty align signature => do
      return .value (← Memory.loadWithSignature pointer ty align signature)
  | store pointer ty value align => do
      Memory.store pointer ty value align
      return .unit
  | copy dst src size align => do
      Memory.copy dst src size align
      return .unit
  | set dst byte size align => do
      Memory.setBytes dst byte size align
      return .unit
  | uninit pointer size align => do
      Memory.uninit pointer size align
      return .unit

end MemoryOp

end Whale
