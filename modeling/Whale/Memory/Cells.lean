import Whale.Memory.Ops

set_option autoImplicit false

/-! # The abstract memory: cells and authority

What tracked memory is for, without its bookkeeping. A block is a range of addresses, each
with a cell. A cell is uninitialized, or holds a byte, possibly tagged as byte number `i` of
a stored pointer. A pointer has authority over a live block when it carries a capability for
it; an access needs authority, the range inside the capability's bounds, the permission, and
the alignment. Budgets do not exist here.

`CellStore.step` says what each operation does and returns, and `none` when the operation is
refused. -/

namespace Whale

structure Content where
  byte : UInt8
  tag : Option Fragment
  deriving DecidableEq

/-- A cell: `none` is uninitialized. -/
abbrev Cell := Option Content

structure Block where
  kind : AllocationKind
  base : Nat
  size : Nat
  live : Bool
  writable : Bool
  cells : Nat → Cell

structure CellStore where
  arena : Nat
  blocks : List Block
  next : Nat

/-- The empty memory. -/
def CellStore.empty (arena : Nat) : CellStore where
  arena := arena
  blocks := []
  next := 0x1000

namespace Block

/-- Replace the cells of a range; cell `start + j` becomes `f j`. -/
def write (b : Block) (start n : Nat) (f : Nat → Cell) : Block :=
  { b with cells := fun i => if start ≤ i ∧ i < start + n then f (i - start) else b.cells i }

/-- The bytes of a range, when every cell of it is initialized. -/
def bytes? (b : Block) (start : Nat) : Nat → Option (List UInt8)
  | 0 => some []
  | n + 1 =>
      match b.cells start, b.bytes? (start + 1) n with
      | some content, some rest => some (content.byte :: rest)
      | _, _ => none

/-- The tag of a cell. -/
def tag (b : Block) (i : Nat) : Option Fragment := (b.cells i).bind Content.tag

/-- The one pointer whose bytes `0..7` stand, in order, in the eight cells from `start`. -/
def pointerAt (b : Block) (start : Nat) : Option StoredPointer :=
  match b.tag start with
  | none => none
  | some f =>
      if (List.range 8).all fun i => b.tag (start + i) = some ⟨f.pointer, i⟩ then some f.pointer
      else none

end Block

/-! ## Values in cells -/

/-- The size of a type in bytes. -/
def sizeOfTy (ty : Ty) : Nat :=
  match layoutOfWithLimit ty maxIrNesting with
  | .ok layout => layout.size
  | .error _ => 0

/-- The cells of a number, without tags. -/
def numberCells (n : Nat) (j : Nat) : Cell := some ⟨UInt8.ofNat (n / 256 ^ j), none⟩

/-- The cells of a stored pointer: its address, each byte tagged. -/
def pointerCells (p : StoredPointer) (j : Nat) : Cell :=
  some ⟨UInt8.ofNat (p.bits.toNat / 256 ^ j), some ⟨p, j⟩⟩

/-- A cell whose tag was cut. -/
def untag (c : Cell) : Cell := c.map fun content => { content with tag := none }

/-- What storing a value of type `ty` makes of cell `j` of its range, given the old cell. A
checked result has a gap after its flag: the bytes there stay, their tags go. -/
def storedCell (ty : Ty) (value : Value) (old : Nat → Cell) (j : Nat) : Cell :=
  match ty, value with
  | .tuple (t :: _), .checked v flag =>
      if j < sizeOfTy t then numberCells ((Scalar.raw t v).getD 0) j
      else if j = sizeOfTy t then numberCells flag.toNat 0
      else untag (old j)
  | _, .pointer p => pointerCells (.data p) j
  | _, .functionPointer p => pointerCells (.function p) j
  | ty, .scalar v => numberCells ((Scalar.raw ty v).getD 0) j
  | _, .checked _ _ => old j

namespace Block

/-- The value of a type without parts in the cells from `start`. -/
def scalarAt (b : Block) (start : Nat) (ty : Ty) (callable : Option FunctionSignature) :
    Option Value := do
  let bytes ← b.bytes? start (sizeOfTy ty)
  match ty with
  | .bool =>
      if leValue bytes = 0 then some (.scalar (.bool false))
      else if leValue bytes = 1 then some (.scalar (.bool true))
      else none
  | .ptr _ =>
      let address := UInt64.ofNat (leValue bytes)
      some (.pointer (Memory.loadedPointer (b.pointerAt start) address))
  | .fnPtr signature =>
      let address := UInt64.ofNat (leValue bytes)
      some (.functionPointer
        (Memory.loadedFunction (b.pointerAt start) address (callable.getD signature)))
  | ty => (Scalar.pack ty (leValue bytes)).map .scalar

/-- The value of a type in the cells from `start`. -/
def valueAt (b : Block) (start : Nat) (ty : Ty) (callable : Option FunctionSignature) :
    Option Value :=
  match ty with
  | .tuple (t :: _) =>
      match b.scalarAt start t none, b.scalarAt (start + sizeOfTy t) .bool none with
      | some (.scalar v), some (.scalar (.bool flag)) => some (.checked v flag)
      | _, _ => none
  | ty => b.scalarAt start ty callable

end Block

/-! ## Authority -/

namespace CellStore

/-- `p` carries the capability `cap` over the live block `b`. -/
structure Holds (σ : CellStore) (p : Pointer) (cap : Capability) (b : Block) : Prop where
  address : p.address ≠ 0
  capability : p.capability = some cap
  arena : cap.arena = σ.arena
  generation : cap.generation = 0
  block : σ.blocks[cap.allocation]? = some b
  live : b.live = true
  lower : cap.lower ≤ cap.offset
  offset : cap.offset ≤ cap.upper
  upper : cap.upper ≤ b.size
  base : p.address.toNat = b.base + cap.offset

/-- `n` bytes at `p` may be read, or written, under `cap`. -/
structure Grants (σ : CellStore) (p : Pointer) (n align : Nat) (write : Bool)
    (cap : Capability) (b : Block) : Prop extends Holds σ p cap b where
  range : cap.offset + n ≤ cap.upper
  permission : if write then cap.write = true ∧ b.writable = true else cap.read = true
  aligned : p.address.toNat % align = 0

/-- The capability a pointer carries over a live block, and the block. -/
def authority (σ : CellStore) (p : Pointer) : Option (Capability × Block) :=
  match p.capability with
  | none => none
  | some cap =>
      match σ.blocks[cap.allocation]? with
      | none => none
      | some b =>
          if p.address ≠ 0 ∧ cap.arena = σ.arena ∧ cap.generation = 0 ∧ b.live = true ∧
              cap.lower ≤ cap.offset ∧ cap.offset ≤ cap.upper ∧ cap.upper ≤ b.size ∧
              p.address.toNat = b.base + cap.offset then
            some (cap, b)
          else none

/-- The capability and block that permit an access. -/
def grant (σ : CellStore) (p : Pointer) (n align : Nat) (write : Bool) :
    Option (Capability × Block) :=
  match σ.authority p with
  | none => none
  | some (cap, b) =>
      if cap.offset + n ≤ cap.upper ∧
          (if write then cap.write = true ∧ b.writable = true else cap.read = true) ∧
          p.address.toNat % align = 0 then
        some (cap, b)
      else none

theorem authority_eq_some {σ : CellStore} {p : Pointer} {cap : Capability} {b : Block} :
    σ.authority p = some (cap, b) ↔ σ.Holds p cap b := by
  unfold authority
  constructor
  · intro h
    split at h
    · cases h
    · rename_i cap' hcap
      split at h
      · cases h
      · rename_i b' hb
        obtain ⟨⟨h₁, h₂, h₃, h₄, h₅, h₆, h₇, h₈⟩, heq⟩ := Option.ite_none_right_eq_some.mp h
        cases heq
        exact ⟨h₁, hcap, h₂, h₃, hb, h₄, h₅, h₆, h₇, h₈⟩
  · rintro ⟨h₁, hcap, h₂, h₃, hb, h₄, h₅, h₆, h₇, h₈⟩
    simp only [hcap, hb]
    exact if_pos ⟨h₁, h₂, h₃, h₄, h₅, h₆, h₇, h₈⟩

/-- The permission an access succeeds under, spelled out. -/
theorem grant_eq_some {σ : CellStore} {p : Pointer} {n align : Nat} {write : Bool}
    {cap : Capability} {b : Block} :
    σ.grant p n align write = some (cap, b) ↔ σ.Grants p n align write cap b := by
  unfold grant
  constructor
  · intro h
    split at h
    · cases h
    · rename_i cap' b' hauth
      obtain ⟨⟨h₁, h₂, h₃⟩, heq⟩ := Option.ite_none_right_eq_some.mp h
      cases heq
      exact ⟨authority_eq_some.mp hauth, h₁, h₂, h₃⟩
  · rintro ⟨hholds, h₁, h₂, h₃⟩
    rw [authority_eq_some.mpr hholds]
    exact if_pos ⟨h₁, h₂, h₃⟩

/-- Replace the block `id`. -/
def update (σ : CellStore) (id : Nat) (f : Block → Block) : CellStore :=
  { σ with blocks := σ.blocks.modify id f }

end CellStore

/-! ## Operations -/

/-- The mathematical value of an index. -/
def indexValue : ConstValue → Int
  | .i v => v.toInt
  | .u v => v.toNat
  | _ => 0

/-- The bytes one GEP step moves. -/
def stepBytes (step : GepStep) (index : ConstValue) : Int :=
  match step with
  | .field offset => offset
  | .stride stride => indexValue index * stride

/-- Add the steps one by one; every address on the way must be a 64-bit number. -/
def walkAddress (address : Int) : List Int → Option Int
  | [] => some address
  | d :: ds =>
      if 0 ≤ address + d ∧ address + d < wordBound then walkAddress (address + d) ds else none

namespace CellStore

/-- A new block of uninitialized cells at the next free address. -/
def allocate (σ : CellStore) (kind : AllocationKind) (size align : Nat) :
    Option (Pointer × CellStore) :=
  match Memory.placeAddress σ.next align with
  | none => none
  | some base =>
      match Memory.afterAddress base size with
      | none => none
      | some next =>
          some ({ address := UInt64.ofNat base
                  capability := some
                    { arena := σ.arena, allocation := σ.blocks.length, generation := 0,
                      lower := 0, upper := size, offset := 0, read := true, write := true } },
                { σ with
                  blocks := σ.blocks ++
                    [{ kind := kind, base := base, size := size, live := true,
                       writable := true, cells := fun _ => none }]
                  next := next })

/-- The pointer reached from `p`, inside the bounds of its capability. -/
def gep (σ : CellStore) (p : Pointer) (plan : List GepStep) (indices : List ConstValue) :
    Option Pointer :=
  if indices = [] then some p
  else
    match σ.authority p with
    | none => none
    | some (cap, _) =>
        match walkAddress p.address.toNat ((plan.zip indices).map fun e => stepBytes e.1 e.2) with
        | none => none
        | some address =>
            let offset : Int := cap.offset + (address - p.address.toNat)
            if cap.lower ≤ offset ∧ offset ≤ cap.upper then
              some { address := UInt64.ofNat address.toNat,
                     capability := some { cap with offset := offset.toNat } }
            else none

/-- The ranges of a copy inside one block meet. -/
def Overlap (d s : Capability) (size : Nat) : Prop :=
  s.allocation = d.allocation ∧ s.offset < d.offset + size ∧ d.offset < s.offset + size

instance (d s : Capability) (size : Nat) : Decidable (Overlap d s size) :=
  inferInstanceAs (Decidable (_ ∧ _ ∧ _))

/-- What each operation does to the cells, and what it returns. `none` is a refused
operation, which changes nothing. -/
def step (σ : CellStore) : MemoryOp → Option (MemoryOutput × CellStore)
  | .allocate size natural align =>
      (σ.allocate .stack size (max align natural)).map fun (p, σ) => (.pointer p, σ)
  | .allocateGlobal size natural align =>
      (σ.allocate .global size (max align natural)).map fun (p, σ) => (.pointer p, σ)
  | .sealGlobal p readonly =>
      match σ.authority p with
      | none => none
      | some (cap, b) =>
          if b.kind = .global then
            some (.pointer { p with capability := some { cap with write := !readonly } },
              σ.update cap.allocation fun b => { b with writable := !readonly })
          else none
  | .retireStack p ownerStart =>
      match σ.authority p with
      | none => none
      | some (cap, b) =>
          if ownerStart ≤ cap.allocation ∧ b.kind = .stack ∧ cap.offset = 0 ∧ cap.lower = 0 ∧
              cap.upper = b.size then
            some (.unit, σ.update cap.allocation fun b => { b with live := false })
          else none
  | .retireFrom start =>
      some (.unit, { σ with blocks := σ.blocks.mapIdx fun id b =>
        if start ≤ id ∧ b.kind = .stack then { b with live := false } else b })
  | .gep p plan indices => (σ.gep p plan indices).map fun p => (.pointer p, σ)
  | .load p ty align signature =>
      match σ.grant p (sizeOfTy ty) align false with
      | none => none
      | some (cap, b) => (b.valueAt cap.offset ty signature).map fun v => (.value v, σ)
  | .store p ty value align =>
      match σ.grant p (sizeOfTy ty) align true with
      | none => none
      | some (cap, _) =>
          some (.unit, σ.update cap.allocation fun b =>
            b.write cap.offset (sizeOfTy ty)
              (storedCell ty value fun j => b.cells (cap.offset + j)))
  | .copy dst src size align =>
      if size = 0 then some (.unit, σ)
      else
        match σ.grant src size align false, σ.grant dst size align true with
        | some (s, from'), some (d, _) =>
            if Overlap d s size then none
            else
              some (.unit, σ.update d.allocation fun b =>
                b.write d.offset size fun j => from'.cells (s.offset + j))
        | _, _ => none
  | .set dst byte size align =>
      if size = 0 then some (.unit, σ)
      else
        match σ.grant dst size align true with
        | none => none
        | some (cap, _) =>
            some (.unit, σ.update cap.allocation fun b =>
              b.write cap.offset size fun _ => some ⟨byte, none⟩)
  | .uninit p size align =>
      match σ.grant p size align true with
      | none => none
      | some (cap, _) =>
          some (.unit, σ.update cap.allocation fun b => b.write cap.offset size fun _ => none)

end CellStore

/-- The operands a caller of the memory provides: types with values, values of their type,
integer indices and strides that are not `0`, alignments that are not `0`, and a mark between
the first and the last allocation. -/
def MemoryOp.Valid (σ : CellStore) : MemoryOp → Prop
  | .allocate _ natural align | .allocateGlobal _ natural align => 0 < max align natural
  | .sealGlobal _ _ | .retireStack _ _ => True
  | .retireFrom start => start ≤ σ.blocks.length
  | .gep _ plan indices => ∀ e ∈ plan.zip indices, ∀ stride, e.1 = .stride stride →
      0 < stride ∧ ((∃ v, e.2 = .i v) ∨ ∃ v, e.2 = .u v)
  | .load _ ty align _ => valueType ty = true ∧ 0 < align
  | .store _ ty value align => valueType ty = true ∧ 0 < align ∧
      match ty, value with
      | .ptr _, .pointer _ | .fnPtr _, .functionPointer _ | .tuple _, .checked _ _ => True
      | ty, .scalar _ => scalarType ty = true
      | _, _ => False
  | .copy _ _ _ align | .set _ _ _ align | .uninit _ _ align => 0 < align

end Whale
