import LittleMan.Log
import LittleMan.Memory.Basic

/-! What assembling a program may report: its errors and the events that it logs. -/

namespace LittleMan.Assembly

/-- Why a program cannot be assembled. -/
inductive Cause
  | invalidOpcode
  | duplicateLabel (label : String)
  | unresolvedLabel (label : String)
  | programTooLong
  deriving DecidableEq, Repr

def Cause.message : Cause → String
  | .invalidOpcode => "invalid opcode"
  | .duplicateLabel label => s!"label `{label}` already used"
  | .unresolvedLabel label => s!"label `{label}` not found"
  | .programTooLong => "program does not fit in 100 words"

/-- A cause and the line it was found on, counted from one. -/
structure Error where
  cause : Cause
  line : Nat
  deriving DecidableEq, Repr

def Error.message (error : Error) : String :=
  let cause := error.cause.message
  let line := error.line
  s!"{cause} on line {line}"

/-- A step of the assembler worth logging. -/
inductive Event
  | wrapping (line : Nat)
  | datumIgnored (line : Nat) (operand : String)
  | datumStored (line : Nat) (value : Int) (address : Address)
  | wordStored (line : Nat) (word : Int) (address : Address)
  | labelDefined (line : Nat) (label : String) (address : Address)
  | labelAdded (address : Address) (label : String) (target : Address)
  | failed (error : Error)
  deriving DecidableEq, Repr

namespace Event

def level : Event → Log.Level
  | .wrapping .. | .datumIgnored .. => .warn
  | .datumStored .. | .wordStored .. | .labelDefined .. => .debug
  | .labelAdded .. => .trace
  | .failed .. => .error

def message : Event → String
  | .wrapping line => s!"[{line}] Program exceeds 100 words, wrapping to address 0"
  | .datumIgnored line operand =>
    s!"[{line}] DAT operand `{operand}` is not an integer, storing 0"
  | .datumStored line value address => s!"[{line}] DAT {value} at {address}"
  | .wordStored line word address => s!"[{line}] {word} at {address}"
  | .labelDefined line label address => s!"[{line}] Label `{label}` = {address}"
  | .labelAdded address label target => s!"Backpatch {address} with `{label}` = {target}"
  | .failed error => error.message

def entry (event : Event) : Log.Entry := ⟨event.level, .assembly, event.message⟩

end Event

end LittleMan.Assembly
