import Whale.Lib.BitFields

set_option autoImplicit false

/-! # The A64 architecture

Instruction words of A64, their fields, and what they do to the general registers. Register 31
is here the zero register, which reads as zero and ignores what is written. -/

namespace Whale.A64

open BitFields

structure Machine where
  x : BitVec 5 → BitVec 64

namespace Machine

def read (m : Machine) (r : BitVec 5) : BitVec 64 := if r = 31 then 0 else m.x r

/-- The 32-bit view of a register is zero-extended when it is written. -/
def write (m : Machine) (r : BitVec 5) (datasize : Nat) (value : BitVec 64) : Machine where
  x := fun r' => if r' = r then (value.setWidth datasize).setWidth 64 else m.x r'

theorem read_write_same {m : Machine} {r : BitVec 5} {datasize : Nat} {value : BitVec 64}
    (hr : r ≠ 31) : (m.write r datasize value).read r = (value.setWidth datasize).setWidth 64 := by
  unfold read write
  rw [if_neg hr]
  exact if_pos rfl

theorem read_write_other {m : Machine} {r r' : BitVec 5} {datasize : Nat} {value : BitVec 64}
    (hr : r' ≠ r) : (m.write r datasize value).read r' = m.read r' := by
  unfold read write
  simp only [if_neg hr]

end Machine

/-! ## Wide moves -/

inductive WideMove where
  | movn
  | movz
  | movk
  deriving DecidableEq, Repr

/-- Move wide (immediate): a lane of 16 bits, alone, inverted, or put among the others. -/
structure MoveWide where
  op : WideMove
  wide : Bool
  lane : BitVec 2
  imm : BitVec 16
  rd : BitVec 5
  deriving DecidableEq, Repr

namespace MoveWide

def opOf (opc : BitVec 2) : Option WideMove :=
  if opc = 0b00 then some .movn
  else if opc = 0b10 then some .movz
  else if opc = 0b11 then some .movk
  else none

/-- The narrow form has two lanes only. -/
def decode (w : BitVec 32) : Option MoveWide := do
  if field w 23 6 = 0b100101 then
    let op ← opOf (field w 29 2)
    let wide := field w 31 1 = 1
    let lane := field w 21 2
    if wide ∨ lane.toNat < 2 then
      some { op := op, wide := wide, lane := lane, imm := field w 5 16, rd := field w 0 5 }
    else none
  else none

def datasize (i : MoveWide) : Nat := if i.wide then 64 else 32

/-- The value that goes to the register, from the one that is there. -/
def result (i : MoveWide) (old : BitVec 64) : BitVec 64 :=
  let place := 16 * i.lane.toNat
  let lane := i.imm.setWidth 64 <<< place
  match i.op with
  | .movz => lane
  | .movn => ~~~lane
  | .movk => old &&& ~~~((0xffff : BitVec 64) <<< place) ||| lane

def execute (i : MoveWide) (m : Machine) : Machine :=
  m.write i.rd i.datasize (i.result (m.read i.rd))

end MoveWide

end Whale.A64
