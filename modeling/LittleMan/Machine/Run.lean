import LittleMan.Machine.Step

/-! Runs of the machine: steps until it halts or fails. -/

namespace LittleMan.Machine

/-- What an observer of a run is shown. -/
inductive Sight
  | snapshot (snapshot : Snapshot)
  | event (event : Event)
  deriving DecidableEq, Repr

/-- What a run shows before a step. -/
def preview (machine : Machine) : List Sight := machine.peek.toList.map .snapshot

namespace Stepped

/-- How a step ends a run, if it does: a halted machine ends it well, any other fault does not. -/
def ending (stepped : Stepped) : Option (Except Fault Unit) :=
  match stepped.result with
  | .ok () => none
  | .error .machineHalted => some (.ok ())
  | .error fault => some (.error fault)

/-- What a run shows of a step, and of its own end if this is the last one. -/
def sights (stepped : Stepped) : List Sight :=
  stepped.events.map .event ++
    match stepped.result with
    | .ok () => []
    | .error .machineHalted => [.event (.terminated stepped.machine.accumulator)]
    | .error fault => [.event (.stopped stepped.machine.pc fault)]

end Stepped

/-- Whether the next step asks for a line of input. -/
def asks (machine : Machine) : Bool :=
  !machine.halted &&
    ((machine.memory.read? machine.pc).bind decode).any fun (digit, operand) =>
      Instruction.ofDigit? digit = some .io && operand.val = 1

/-- Runs the machine for at most `fuel` steps in a world that is shown what happens, that supplies a
machine with input before a step and that drains its output after it. There is no result if the run
is to go on. -/
@[specialize]
def runIn {m : Type → Type} [Monad m] (present : List Sight → m Unit)
    (supply drain : Machine → m Machine) :
    Nat → Machine → m (Machine × Option (Except Fault Unit))
  | 0, machine => pure (machine, none)
  | fuel + 1, machine => do
    present machine.preview
    let stepped := (← supply machine).step
    let after ← drain stepped.machine
    present stepped.sights
    match stepped.ending with
    | some result => pure (after, some result)
    | none => runIn present supply drain fuel after

/-- How a finished run went. -/
structure Finished (σ : Type) where
  machine : Machine
  observer : σ
  result : Except Fault Unit

/-- Shows sights to an observer. -/
@[inline]
def observing {σ : Type} (observe : σ → Sight → σ) (sights : List Sight) : StateM σ Unit :=
  modify fun observer => sights.foldl observe observer

/-- Runs the machine on its own streams under the eyes of an observer, for at most `fuel` steps. -/
def runUpTo {σ : Type} (observe : σ → Sight → σ) (fuel : Nat) (observer : σ) (machine : Machine) :
    (Machine × Option (Except Fault Unit)) × σ :=
  (machine.runIn (observing observe) pure pure fuel).run observer

/-- Runs the machine on its own streams under the eyes of an observer, unless it takes more than
`fuel` steps. -/
def runWith {σ : Type} (observe : σ → Sight → σ) (fuel : Nat) (observer : σ) (machine : Machine) :
    Option (Finished σ) :=
  match machine.runUpTo observe fuel observer with
  | ((after, some result), observer) => some ⟨after, observer, result⟩
  | ((_, none), _) => none

/-- Runs the machine unobserved, unless it takes more than `fuel` steps. -/
def run (fuel : Nat) (machine : Machine) : Option (Finished Unit) :=
  machine.runWith (fun _ _ => ()) fuel ()

variable {σ : Type} (observe : σ → Sight → σ) (observer : σ) (machine : Machine) (fuel : Nat)

theorem runUpTo_succ :
    machine.runUpTo observe (fuel + 1) observer =
      match machine.step.ending with
      | none => machine.step.machine.runUpTo observe fuel
          ((machine.preview ++ machine.step.sights).foldl observe observer)
      | some result => ((machine.step.machine, some result),
          (machine.preview ++ machine.step.sights).foldl observe observer) := by
  rw [List.foldl_append]
  simp only [runUpTo, runIn, observing, StateT.run_bind, StateT.run_modify, pure_bind]
  cases machine.step.ending <;> rfl

theorem runWith_succ :
    machine.runWith observe (fuel + 1) observer =
      match machine.step.ending with
      | none => machine.step.machine.runWith observe fuel
          ((machine.preview ++ machine.step.sights).foldl observe observer)
      | some result => some ⟨machine.step.machine,
          (machine.preview ++ machine.step.sights).foldl observe observer, result⟩ := by
  rw [runWith, runUpTo_succ]
  cases machine.step.ending <;> rfl

end LittleMan.Machine
