import LittleMan.Assembly.Line
import LittleMan.Assembly.Report
import LittleMan.Logged

/-! Assembling a program into a memory. -/

namespace LittleMan

/-- What happens to a program of more than one hundred words. -/
inductive Capacity
  /-- Words past the last cell go on from address 0 over earlier ones. -/
  | wrapping
  /-- The program is refused. -/
  | strict
  deriving DecidableEq, Repr

namespace Assembly

/-- A label whose address has still to be added to a word, and the line that asks for it. -/
structure Reference where
  label : String
  line : Nat
  deriving DecidableEq, Repr

/-- A program of which some lines have been assembled. -/
structure Draft where
  /-- How many lines have been read. -/
  line : Nat
  /-- How many words they gave. -/
  emitted : Nat
  memory : Memory
  /-- The defined labels, the latest first. -/
  labels : List (String × Address)
  /-- The open reference of each cell. -/
  references : Vector (Option Reference) 100
  deriving DecidableEq

abbrev Assembler := Logged Event Error

namespace Draft

def empty : Draft := ⟨0, 0, .zero, [], .replicate 100 none⟩

/-- Where the next word goes. -/
def address (draft : Draft) : Address := Fin.ofNat 100 draft.emitted

def error (draft : Draft) (cause : Cause) : Error := ⟨cause, draft.line⟩

/-- Makes sure of room for one more word. -/
def reserve (capacity : Capacity) (draft : Draft) : Assembler Unit :=
  if capacity = .strict ∧ 100 ≤ draft.emitted then .fail (draft.error .programTooLong)
  else if draft.emitted = 100 then .tell (.wrapping draft.line)
  else pure ()

/-- What is logged of the word of a statement. -/
def stored (draft : Draft) (statement : Statement) : Event :=
  match statement.mnemonic with
  | .op _ => .wordStored draft.line statement.word draft.address
  | .dat => .datumStored draft.line statement.datum draft.address

/-- Logs the word of a statement, after a warning if it is a datum without a numeral. -/
def describe (draft : Draft) (statement : Statement) : Assembler Unit :=
  match statement.unreadable? with
  | some operand => .tellAll #[.datumIgnored draft.line operand, draft.stored statement]
  | none => .tell (draft.stored statement)

/-- Stores the word of a statement. A statement without a reference leaves the open reference of an
earlier word at its address. -/
def store (draft : Draft) (statement : Statement) : Draft :=
  { draft with
    memory := draft.memory.set draft.address statement.word
    references :=
      match statement.reference? with
      | some label => draft.references.set draft.address (some ⟨label, draft.line⟩)
      | none => draft.references }

/-- Defines the label of a statement, if it has one, at the current address. -/
def define (draft : Draft) (statement : Statement) : Assembler Draft :=
  match statement.label with
  | none => pure draft
  | some label =>
    if (draft.labels.lookup label).isSome then .fail (draft.error (.duplicateLabel label))
    else do
      .tell (.labelDefined draft.line label draft.address)
      pure { draft with labels := (label, draft.address) :: draft.labels }

/-- Moves on to the next address. -/
def advance (draft : Draft) : Draft := { draft with emitted := draft.emitted + 1 }

def addStatement (capacity : Capacity) (draft : Draft) (statement : Statement) :
    Assembler Draft := do
  draft.reserve capacity
  draft.describe statement
  let draft ← (draft.store statement).define statement
  pure draft.advance

/-- Assembles one more line. A blank line takes up no address. -/
def addLine (capacity : Capacity) (draft : Draft) (line : List Char) : Assembler Draft :=
  let draft := { draft with line := draft.line + 1 }
  match Line.read line with
  | .blank => pure draft
  | .unrecognized => .fail (draft.error .invalidOpcode)
  | .statement statement => draft.addStatement capacity statement

/-- Adds the address of the label that a cell refers to, if it does, to the word of that cell. -/
def resolveCell (draft : Draft) (memory : Memory) (address : Address) : Assembler Memory :=
  match draft.references.get address with
  | none => pure memory
  | some reference =>
    match draft.labels.lookup reference.label with
    | none => .fail ⟨.unresolvedLabel reference.label, reference.line⟩
    | some target => do
      .tell (.labelAdded address reference.label target)
      pure (memory.set address (memory.get address + target.val))

/-- The finished memory: every open reference is resolved, in the order of addresses. -/
def finish (draft : Draft) : Assembler Memory :=
  Logged.foldl draft.resolveCell draft.memory addresses

end Draft

/-- Assembles some lines from the first on. -/
def draftOf (capacity : Capacity) (source : List (List Char)) : Assembler Draft :=
  Logged.foldl (Draft.addLine capacity) Draft.empty source

end Assembly

/-- Assembles the text of a program. It stops at the first error, which is logged last. -/
def assemble (capacity : Capacity) (source : String) : Assembly.Assembler Memory :=
  (do (← Assembly.draftOf capacity (lines source.toList)).finish).reporting .failed

end LittleMan
