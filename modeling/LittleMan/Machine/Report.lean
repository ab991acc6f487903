import LittleMan.Log
import LittleMan.Machine.Inbox
import LittleMan.Machine.Instruction
import LittleMan.Text.Decimal

/-! What running the machine may report: its faults and the events that it logs. -/

namespace LittleMan.Machine

/-- Why a step cannot be made. -/
inductive Fault
  | machineHalted
  | programCounterOutOfBounds
  | invalidCommand
  | inputOutput
  deriving DecidableEq, Repr

def Fault.message : Fault → String
  | .machineHalted => "machine halted"
  | .programCounterOutOfBounds => "program counter out of bounds"
  | .invalidCommand => "invalid command passed to CPU"
  | .inputOutput => "input/output error"

/-- Something the machine did. Accumulators are shown as the instruction left them, before they are
brought to rest. -/
inductive Event
  | fetched (pc : Nat) (instruction : Instruction) (operand : Address)
  | unknownDigit (digit : Nat) (pc : Nat)
  | added (value accumulator : Int)
  | subtracted (value accumulator : Int)
  | stored (operand : Address) (accumulator : Int)
  | loaded (operand : Address) (accumulator : Int)
  | branched (operand : Address)
  | branchedIfZero (operand : Address) (accumulator : Int)
  | branchedIfPositive (operand : Address) (accumulator : Int)
  | received (accumulator : Int)
  | sent (accumulator : Int)
  | ignored (operand : Address)
  | halted
  | inputFailed (error : InputError)
  | outputFailed (reason : String)
  | terminated (accumulator : Int)
  | stopped (pc : Nat) (fault : Fault)
  deriving DecidableEq, Repr

namespace Event

def level : Event → Log.Level
  | .fetched .. => .trace
  | .unknownDigit .. => .warn
  | .added .. | .subtracted .. | .stored .. | .loaded .. | .branched .. | .branchedIfZero ..
  | .branchedIfPositive .. | .received .. | .sent .. | .ignored .. | .halted => .debug
  | .inputFailed .. | .outputFailed .. | .stopped .. => .error
  | .terminated .. => .info

def message : Event → String
  | .fetched pc instruction operand =>
    let pc := String.ofList (twoDigits pc)
    let name := instruction.name
    let operand := String.ofList (twoDigits operand.val)
    s!"{pc}: {name} {operand}"
  | .unknownDigit digit pc => s!"Invalid opcode {digit} at {pc}"
  | .added value accumulator => s!"ADD {value}: {accumulator}"
  | .subtracted value accumulator => s!"SUB {value}: {accumulator}"
  | .stored operand accumulator => s!"STA {operand}: {accumulator}"
  | .loaded operand accumulator => s!"LDA {operand}: {accumulator}"
  | .branched operand => s!"BRA {operand}"
  | .branchedIfZero operand accumulator => s!"BRZ {operand}: {accumulator}"
  | .branchedIfPositive operand accumulator => s!"BRP {operand}: {accumulator}"
  | .received accumulator => s!"INP: {accumulator}"
  | .sent accumulator => s!"OUT: {accumulator}"
  | .ignored operand => s!"IO {operand}: ignored"
  | .halted => "HLT"
  | .inputFailed error => error.message
  | .outputFailed reason => s!"Failed to write output: {reason}"
  | .terminated accumulator => s!"Program terminated. ACC: {accumulator}"
  | .stopped pc fault =>
    let fault := fault.message
    s!"Program failed at {pc}: {fault}"

def entry (event : Event) : Log.Entry := ⟨event.level, .machine, event.message⟩

end Event

end LittleMan.Machine
