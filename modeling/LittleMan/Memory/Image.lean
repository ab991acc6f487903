import LittleMan.Memory.Basic

/-! The stored form of a memory: its words in address order, each as two bytes in big-endian two's
complement. -/

namespace LittleMan

/-- Why a byte sequence is not an image. -/
inductive ImageError
  | invalidLength (length : Nat)
  | valueOutOfRange (address : Address) (value : Int)
  deriving DecidableEq, Repr

def ImageError.message : ImageError → String
  | .invalidLength length => s!"image must be exactly 200 bytes, found {length}"
  | .valueOutOfRange address value => s!"value {value} at address {address} is out of range"

/-- The two bytes of a word, the high byte first. -/
def wordBytes (word : Int) : List UInt8 :=
  let code := (word % 65536).toNat
  [UInt8.ofNat (code / 256), UInt8.ofNat code]

/-- The word of two bytes in two's complement. -/
def wordOfBytes (high low : UInt8) : Int := Int.bmod (256 * high.toNat + low.toNat) 65536

namespace Memory

/-- The image of a memory. Cells are brought to rest first, so two bytes suffice for each. -/
def toBytes (memory : Memory) : List UInt8 :=
  addresses.flatMap fun a => wordBytes (wrap (memory.get a))

/-- The memory of an image: refuses a wrong length, then the lowest address whose word is not at
rest. -/
def ofBytes (bytes : List UInt8) : Except ImageError Memory :=
  if bytes.length = 200 then
    let memory := ofFn fun a => wordOfBytes (bytes.getD (2 * a) 0) (bytes.getD (2 * a + 1) 0)
    match addresses.find? fun a => !decide (LittleMan.AtRest (memory.get a)) with
    | some a => .error (.valueOutOfRange a (memory.get a))
    | none => .ok memory
  else .error (.invalidLength bytes.length)

end Memory

end LittleMan
