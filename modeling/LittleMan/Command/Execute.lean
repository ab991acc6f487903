import LittleMan.Command.Request
import LittleMan.Command.System
import LittleMan.Memory.Table

/-! Executing a command: what it reads, what it then does, and what a user sees of it. -/

namespace LittleMan

/-- Why a command fails. -/
inductive Failure
  | noFile
  | missing (path : String)
  | inputUnreadable (cause : FileError)
  | notCompiled (cause : Assembly.Error)
  | storage (error : StorageError)
  | stopped (path : String) (fault : Machine.Fault)
  deriving DecidableEq, Repr

/-- The messages of a failure, the outermost first. -/
def Failure.chain : Failure → List String
  | .noFile => ["no argument for file was given"]
  | .missing path => [s!"`{path}` does not exist"]
  | .inputUnreadable cause => ["failed to read program from stdin", cause.message]
  | .notCompiled cause => ["failed to compile program", cause.message]
  | .storage error => error.chain
  | .stopped path fault => [s!"failed to run `{path}`", fault.message]

/-- Where a command gets its program from. -/
inductive Source
  | input
  | file (path : String)
  deriving DecidableEq, Repr

/-- What is left to do for a command once its program is read. -/
inductive Action
  | save (path : String) (memory : Memory)
  /-- A run from a machine on, which may have made some steps already. -/
  | run (path : String) (machine : Machine) (trace : Bool)
  | print (text : String)

namespace Command

open Storage

def source : Command → Except Failure Source
  | .compile _ true _ _ => .ok .input
  | .compile (some file) false _ _ => .ok (.file file)
  | .compile none false _ _ => .error .noFile
  | .run file _ | .dump file => .ok (.file file)

/-- Assembles the program that a command compiles. -/
def compiled (source : Source) (capacity : Capacity) (contents : Contents) :
    Logged Log.Entry Failure Memory :=
  match textOf contents with
  | .error error =>
    match source with
    | .input => .fail (.inputUnreadable error)
    | .file path => .fail (.storage (.programUnreadable path error))
  | .ok text => (assemble capacity text).rephrase Assembly.Event.entry .notCompiled

/-- Loads the program that a command runs or prints: a program where the extension says so, an
image otherwise. -/
def loaded (path : String) (contents : Contents) : Logged Log.Entry Failure Memory :=
  if isAbsent contents then .fail (.missing path)
  else if Path.extension? path = some "lmc" then (programOf path contents).rephrase id .storage
  else (imageOf path contents).rephrase id .storage

/-- What a command does with the contents of its source. -/
def prepare (command : Command) (source : Source) (contents : Contents) :
    Logged Log.Entry Failure Action := do
  match command with
  | .compile _ _ out strict =>
    let capacity := if strict then .strict else .wrapping
    pure (.save out (← compiled source capacity contents))
  | .run file trace => pure (.run file (({} : Machine).load (← loaded file contents)) trace)
  | .dump file => pure (.print ((← loaded file contents).table ++ "\n"))

end Command

/-- The entry for an image that a command has written. -/
def imageWritten (path : String) : Log.Entry := ⟨.info, .command, s!"Wrote image `{path}`"⟩

/-- How far a command has come. -/
inductive Progress
  | done (failure? : Option Failure)
  | more (rest : Action)

section System

variable {m : Type → Type} [Monad m]

/-- Performs an action on a system, a run for at most `fuel` steps. -/
@[specialize]
def Action.performIn (system : System m) (threshold : Log.Level) (fuel : Nat) : Action → m Progress
  | .save path memory => do
    match Storage.saved path (← system.write path memory.toBytes) with
    | .ok () =>
      system.report (noticesOf threshold #[imageWritten path])
      return .done none
    | .error error => return .done (some (.storage error))
  | .print text => do
    system.print (encodeUtf8 text)
    return .done none
  | .run path machine trace => do
    match ← system.run threshold trace fuel machine with
    | (_, some (.ok ())) => return .done none
    | (_, some (.error fault)) => return .done (some (.stopped path fault))
    | (after, none) => return .more (.run path after trace)

/-- What the source of a command holds. -/
def Source.contentsIn (system : System m) : Source → m Storage.Contents
  | .input => .ok <$> system.input
  | .file path => system.read path

/-- How severe the log entries are that a request wants to see. -/
def Request.threshold (request : Request) : Log.Level := .ofVerbosity request.verbosity

/-- Executes a request on a system, a run for at most `fuel` steps. -/
@[specialize]
def Request.executeIn (system : System m) (fuel : Nat) (request : Request) : m Progress := do
  match request.command.source with
  | .error failure => return .done (some failure)
  | .ok source =>
    let prepared := request.command.prepare source (← source.contentsIn system)
    system.report (noticesOf request.threshold prepared.log)
    match prepared.result with
    | .error failure => return .done (some failure)
    | .ok action => action.performIn system request.threshold fuel

end System

/-- What a command leaves behind. -/
structure Outcome where
  files : Directory
  stdout : List UInt8
  notices : Array Notice
  failure? : Option Failure

namespace Outcome

def exitCode (outcome : Outcome) : Nat := if outcome.failure?.isSome then 1 else 0

/-- What a command that is done leaves behind in a world. -/
def of? : Progress × World → Option Outcome
  | (.done failure?, world) => some ⟨world.files, world.outbox.written, world.notices, failure?⟩
  | (.more _, _) => none

end Outcome

/-- Executes a request in a directory with a standard input, unless a run takes more than `fuel`
steps. -/
def Request.execute (request : Request) (fuel : Nat) (files : Directory) (input : List UInt8) :
    Option Outcome :=
  Outcome.of? ((request.executeIn World.system fuel).run { files, input })

end LittleMan
