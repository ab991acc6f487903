import LittleMan.Machine.Basic
import LittleMan.Machine.Report

/-! One step of the machine. -/

namespace LittleMan.Machine

/-- The line that prints a word. -/
def outputLine (word : Int) : List UInt8 := encodeUtf8 (String.ofList (numeral word)) ++ [newline]

/-- Moves on to the next address, from the last one to the first. -/
def advance (machine : Machine) : Machine := { machine with pc := (machine.pc + 1) % 100 }

/-- Points one before an address, so that moving on leads to it. -/
def branch (machine : Machine) (operand : Address) : Machine :=
  { machine with pc := (operand.val + 99) % 100 }

/-- Brings the accumulator and the cell of the operand to rest. -/
def settle (machine : Machine) (operand : Address) : Machine :=
  { machine with
    memory := machine.memory.set operand (wrap (machine.memory.get operand))
    accumulator := wrap machine.accumulator }

/-- What an instruction does, before the machine moves on and settles. -/
inductive Effect
  | completed (machine : Machine) (event : Event)
  | failed (machine : Machine) (event : Event)

/-- Reads the next line into the accumulator. The line is used up even where it is refused. -/
def receive (machine : Machine) : Effect :=
  match nextInteger machine.inbox with
  | .ok value =>
    .completed
      { machine with inbox := afterLine machine.inbox, accumulator := wrap value }
      (.received (wrap value))
  | .error error =>
    .failed { machine with inbox := afterLine machine.inbox } (.inputFailed error)

/-- Prints the accumulator on a line of its own. -/
def send (machine : Machine) : Effect :=
  let outbox := machine.outbox.deliver (outputLine machine.accumulator)
  match machine.outbox.refusal? with
  | none => .completed { machine with outbox := outbox } (.sent machine.accumulator)
  | some reason => .failed { machine with outbox := outbox } (.outputFailed reason)

def execute (machine : Machine) (instruction : Instruction) (operand : Address) : Effect :=
  let value := machine.memory.get operand
  let accumulator := machine.accumulator
  match instruction with
  | .hlt => .completed { machine with halted := true } .halted
  | .add =>
    .completed { machine with accumulator := accumulator + value }
      (.added value (accumulator + value))
  | .sub =>
    .completed { machine with accumulator := accumulator - value }
      (.subtracted value (accumulator - value))
  | .sta =>
    .completed { machine with memory := machine.memory.set operand accumulator }
      (.stored operand accumulator)
  | .lda => .completed { machine with accumulator := value } (.loaded operand value)
  | .bra => .completed (machine.branch operand) (.branched operand)
  | .brz =>
    .completed (if accumulator = 0 then machine.branch operand else machine)
      (.branchedIfZero operand accumulator)
  | .brp =>
    .completed (if 0 ≤ accumulator then machine.branch operand else machine)
      (.branchedIfPositive operand accumulator)
  | .io =>
    match operand.val with
    | 1 => machine.receive
    | 2 => machine.send
    | _ => .completed machine (.ignored operand)

/-- How a step went: the machine after it, what it logged, and the fault that prevented it. -/
structure Stepped where
  machine : Machine
  events : List Event
  result : Except Fault Unit

/-- Fetches, decodes and executes one instruction. A step that fails leaves the registers and the
memory alone. -/
def step (machine : Machine) : Stepped :=
  if machine.halted then ⟨machine, [], .error .machineHalted⟩
  else match machine.memory.read? machine.pc with
  | none => ⟨machine, [], .error .programCounterOutOfBounds⟩
  | some word =>
    match decode word with
    | none => ⟨machine, [], .error .invalidCommand⟩
    | some (digit, operand) =>
      match Instruction.ofDigit? digit with
      | none => ⟨machine, [.unknownDigit digit machine.pc], .error .invalidCommand⟩
      | some instruction =>
        let fetched := .fetched machine.pc instruction operand
        match machine.execute instruction operand with
        | .completed after event => ⟨after.advance.settle operand, [fetched, event], .ok ()⟩
        | .failed after event => ⟨after, [fetched, event], .error .inputOutput⟩

end LittleMan.Machine
