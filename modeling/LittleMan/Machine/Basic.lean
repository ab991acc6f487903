import LittleMan.Machine.Inbox
import LittleMan.Machine.Outbox
import LittleMan.Memory.Basic

/-! The state of the machine and the ways to look at it and to load it. -/

namespace LittleMan

structure Machine where
  /-- The address of the next instruction. It may be set to any number from outside. -/
  pc : Nat := 0
  accumulator : Int := 0
  halted : Bool := false
  memory : Memory := .zero
  inbox : List UInt8 := []
  outbox : Outbox := {}

/-- What shows of a machine before a step. -/
structure Snapshot where
  pc : Nat
  accumulator : Int
  instruction : Int
  deriving DecidableEq, Repr

def Snapshot.text (snapshot : Snapshot) : String :=
  let pc := snapshot.pc
  let accumulator := snapshot.accumulator
  let instruction := snapshot.instruction
  s!"PC: {pc} ACC: {accumulator} CODE: {instruction}"

namespace Machine

/-- Puts an image into the memory, at rest, and starts over. The inbox and the outbox stay. -/
def load (machine : Machine) (image : Memory) : Machine :=
  { machine with pc := 0, accumulator := 0, halted := false, memory := image.wrapped }

/-- The next instruction and the registers, unless the next address lies outside the memory. -/
def peek (machine : Machine) : Option Snapshot :=
  (machine.memory.read? machine.pc).map fun word => ⟨machine.pc, machine.accumulator, word⟩

end Machine

end LittleMan
