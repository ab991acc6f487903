import LittleMan.Word

/-! The memory of the machine: one hundred cells, each holding a word. -/

namespace LittleMan

/-- The address of a cell. -/
abbrev Address := Fin 100

/-- Every address, in ascending order. -/
def addresses : List Address := List.finRange 100

structure Memory where
  cells : Vector Int 100
  deriving DecidableEq

namespace Memory

/-- The memory whose cells all hold zero. -/
def zero : Memory := ⟨.replicate 100 0⟩

def ofFn (word : Address → Int) : Memory := ⟨.ofFn word⟩

def get (memory : Memory) (address : Address) : Int := memory.cells[address]

def set (memory : Memory) (address : Address) (word : Int) : Memory :=
  ⟨memory.cells.set address word⟩

/-- The memory with every cell brought to rest. -/
def wrapped (memory : Memory) : Memory := ⟨memory.cells.map wrap⟩

/-- Every cell is at rest. -/
def AtRest (memory : Memory) : Prop := ∀ address, LittleMan.AtRest (memory.get address)

/-- The word at a number that may lie outside the memory. -/
def read? (memory : Memory) (address : Nat) : Option Int := memory.cells[address]?

/-- The memory with one word stored, unless the address lies outside it. -/
def write? (memory : Memory) (address : Nat) (word : Int) : Option Memory :=
  if h : address < 100 then some (memory.set ⟨address, h⟩ word) else none

/-- The memory with a block of words stored from an address on, unless the block reaches past the
last cell. An empty block still has to start within the memory or at its end. -/
def writeBlock? (memory : Memory) (address : Nat) (block : List Int) : Option Memory :=
  if address + block.length ≤ 100 then
    some (ofFn fun a =>
      if a < address then memory.get a else (block[a - address]?).getD (memory.get a))
  else none

/-- Stores integers of any size as a block, each cut down to its low 32 bits. -/
def writeWords? (memory : Memory) (address : Nat) (values : List Int) : Option Memory :=
  memory.writeBlock? address (values.map low32)

@[ext] theorem ext_get {m n : Memory} (h : ∀ a, m.get a = n.get a) : m = n := by
  cases m; cases n
  congr 1
  exact Vector.ext fun i hi => h ⟨i, hi⟩

@[simp] theorem get_zero (a : Address) : zero.get a = 0 := by
  simp [zero, get]

@[simp] theorem get_ofFn (word : Address → Int) (a : Address) : (ofFn word).get a = word a := by
  simp [ofFn, get]

theorem get_set (m : Memory) (a b : Address) (word : Int) :
    (m.set a word).get b = if a = b then word else m.get b := by
  simp [set, get, Vector.getElem_set, Fin.ext_iff]

@[simp] theorem get_set_self (m : Memory) (a : Address) (word : Int) :
    (m.set a word).get a = word := by
  simp [get_set]

@[simp] theorem get_wrapped (m : Memory) (a : Address) : m.wrapped.get a = wrap (m.get a) := by
  simp [wrapped, get]

theorem wrapped_atRest (m : Memory) : m.wrapped.AtRest := fun a => by
  rw [get_wrapped]
  exact wrap_atRest _

end Memory

end LittleMan
