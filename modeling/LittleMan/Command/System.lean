import LittleMan.Machine.Run
import LittleMan.Storage

/-! The system around the commands: its files, its standard streams, and what it shows of a
command's work. -/

namespace LittleMan

/-- A line of the report that a command writes while it works. -/
inductive Notice
  | snapshot (snapshot : Snapshot)
  | entry (entry : Log.Entry)
  deriving DecidableEq, Repr

/-- The notices of a log as far as a threshold admits them. -/
def noticesOf (threshold : Log.Level) (log : Array Log.Entry) : Array Notice :=
  (log.filter fun entry => threshold.admits entry.level).map .entry

/-- The notice that an observer of a run makes of a sight, if any. -/
def noticeOf? (threshold : Log.Level) (trace : Bool) : Machine.Sight → Option Notice
  | .snapshot snapshot => if trace then some (.snapshot snapshot) else none
  | .event event =>
    if threshold.admits event.level then some (.entry event.entry) else none

/-- What commands ask of the system around them. -/
structure System (m : Type → Type) where
  /-- Takes all that is left of the standard input. -/
  input : m (List UInt8)
  /-- Takes the next line of the standard input, with its newline unless the input ends before. -/
  line : m (List UInt8)
  read : String → m Storage.Contents
  write : String → List UInt8 → m (Except FileError Unit)
  print : List UInt8 → m Unit
  report : Array Notice → m Unit

namespace System

variable {m : Type → Type} [Monad m]

/-- Gives the next line of input to a machine that asks for one. -/
@[specialize]
def supply (system : System m) (machine : Machine) : m Machine :=
  if machine.asks then do
    let line ← system.line
    return { machine with inbox := line }
  else pure machine

/-- Prints what a machine has put into its outbox. -/
@[specialize]
def drain (system : System m) (machine : Machine) : m Machine :=
  if machine.outbox.kept.isEmpty then pure machine
  else do
    system.print machine.outbox.written
    return { machine with outbox := {} }

/-- Runs a machine for at most `fuel` steps on the streams of a system. It asks for a line of input
only when the machine does, and prints its output at once. -/
@[specialize]
def run (system : System m) (threshold : Log.Level) (trace : Bool) (fuel : Nat)
    (machine : Machine) : m (Machine × Option (Except Machine.Fault Unit)) :=
  machine.runIn (fun sights => system.report (sights.filterMap (noticeOf? threshold trace)).toArray)
    system.supply system.drain fuel

end System

/-- A system that is known in full: its files, what is left of its standard input, and what it has
printed and shown so far. -/
structure World where
  files : Directory
  input : List UInt8
  outbox : Outbox := {}
  notices : Array Notice := #[]

/-- A world as the system around the commands. -/
def World.system : System (StateM World) where
  input := modifyGet fun world => (world.input, { world with input := [] })
  line := modifyGet fun world =>
    (takenLine world.input, { world with input := afterLine world.input })
  read path := do return (← get).files.read path
  write path bytes := modifyGet fun world =>
    match world.files.write path bytes with
    | .ok files => (.ok (), { world with files := files })
    | .error error => (.error error, world)
  print bytes := modify fun world => { world with outbox := world.outbox.deliver bytes }
  report notices := modify fun world => { world with notices := world.notices ++ notices }

end LittleMan
