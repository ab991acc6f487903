import LittleMan.Assembly.Draft

/-! Commands of the program and how they are read from the command line. -/

namespace LittleMan

inductive Command
  /-- Assembles the standard input, or else a file, into an image file. A strict compilation refuses
  a program of more than one hundred words. -/
  | compile (file? : Option String) (terminal : Bool) (out : String) (strict : Bool)
  /-- Runs a program or an image. -/
  | run (file : String) (trace : Bool)
  /-- Prints a program or an image as a table. -/
  | dump (file : String)
  deriving DecidableEq, Repr

/-- A command and how much of the log it is to show. -/
structure Request where
  command : Command
  verbosity : Nat
  deriving DecidableEq, Repr

namespace Request

/-- What the version option prints. -/
def versionText : String := "lmc 0.1.0"

/-- The name of a command on the command line. -/
inductive Verb
  | compile
  | run
  | dump
  | help
  deriving DecidableEq, Repr

def Verb.ofName? : String → Option Verb
  | "compile" | "c" => some .compile
  | "run" | "r" => some .run
  | "dump" => some .dump
  | "help" => some .help
  | _ => none

inductive Flag
  | verbose
  | help
  | version
  | terminal
  | out
  | strict
  | trace
  deriving DecidableEq, Repr

namespace Flag

def ofLetter? : Char → Option Flag
  | 'v' => some .verbose
  | 'h' => some .help
  | 'V' => some .version
  | 't' => some .terminal
  | 'o' => some .out
  | _ => none

def ofName? : String → Option Flag
  | "verbose" => some .verbose
  | "help" => some .help
  | "version" => some .version
  | "terminal" => some .terminal
  | "out" => some .out
  | "strict" => some .strict
  | "trace" => some .trace
  | _ => none

/-- Whether a flag may stand after a verb, or before any. -/
def allowed (flag : Flag) (verb? : Option Verb) : Bool :=
  match flag, verb? with
  | .verbose, _ | .help, _ => true
  | .version, verb? => verb?.isNone
  | .terminal, verb? | .out, verb? | .strict, verb? => verb? == some .compile
  | .trace, verb? => verb? == some .run

end Flag

/-- What is wrong with a command line. -/
inductive UsageError
  | noCommand
  | unknownCommand (name : String)
  | unknownOption (option : String)
  | repeatedOption (flag : Flag)
  | unexpectedValue (flag : Flag)
  | missingValue
  | emptyValue
  | missingFile
  | unexpectedArgument (argument : String)
  deriving DecidableEq, Repr

/-- Why reading a command line ends without a command to execute. -/
inductive Ending
  | version
  | help
  | usage (error : UsageError)
  deriving DecidableEq, Repr

/-- What has been read of a command line. -/
structure Scan where
  verb? : Option Verb := none
  /-- How often more output was asked for before the verb. -/
  outerVerbosity : Nat := 0
  /-- How often it was asked for after the verb. -/
  innerVerbosity : Nat := 0
  terminal : Bool := false
  strict : Bool := false
  trace : Bool := false
  out? : Option String := none
  file? : Option String := none
  /-- The value of an option is to come next. -/
  awaiting : Bool := false
  /-- No options are to come any more. -/
  closed : Bool := false
  deriving DecidableEq, Repr

namespace Scan

def usage (error : UsageError) : Except Ending Scan := .error (.usage error)

/-- Notes the value of the output option. -/
def setOut (scan : Scan) (value : String) : Except Ending Scan :=
  if value.isEmpty then usage .emptyValue
  else if scan.out?.isSome then usage (.repeatedOption .out)
  else .ok { scan with out? := some value, awaiting := false }

/-- Notes a flag that stands without a value. -/
def flag (scan : Scan) : Flag → Except Ending Scan
  | .verbose =>
    .ok (if scan.verb?.isNone then { scan with outerVerbosity := scan.outerVerbosity + 1 }
      else { scan with innerVerbosity := scan.innerVerbosity + 1 })
  | .help => .error .help
  | .version => .error .version
  | .terminal =>
    if scan.terminal then usage (.repeatedOption .terminal)
    else .ok { scan with terminal := true }
  | .strict =>
    if scan.strict then usage (.repeatedOption .strict) else .ok { scan with strict := true }
  | .trace =>
    if scan.trace then usage (.repeatedOption .trace) else .ok { scan with trace := true }
  | .out => .ok { scan with awaiting := true }

/-- Reads a cluster of one-letter options. The output option takes the rest of the cluster as its
value, after an equals sign if there is one. -/
def letters (scan : Scan) : List Char → Except Ending Scan
  | [] => .ok scan
  | letter :: rest =>
    match Flag.ofLetter? letter with
    | none => usage (.unknownOption (String.ofList ['-', letter]))
    | some flag =>
      if !flag.allowed scan.verb? then usage (.unknownOption (String.ofList ['-', letter]))
      else if flag = .out then
        match rest with
        | [] => scan.flag .out
        | '=' :: value => scan.setOut (String.ofList value)
        | value => scan.setOut (String.ofList value)
      else do (← scan.flag flag).letters rest

/-- Reads an option that is written out, with a value after an equals sign if there is one. -/
def long (scan : Scan) (text : List Char) : Except Ending Scan :=
  let name := String.ofList (text.takeWhile (· != '='))
  let value := text.dropWhile (· != '=')
  match Flag.ofName? name with
  | none => usage (.unknownOption name)
  | some flag =>
    if !flag.allowed scan.verb? then usage (.unknownOption name)
    else if value.isEmpty then scan.flag flag
    else if flag = .out then scan.setOut (String.ofList value.tail)
    else usage (.unexpectedValue flag)

/-- Reads an argument that is no option: a verb, then the file it works on. -/
def word (scan : Scan) (argument : String) : Except Ending Scan :=
  match scan.verb? with
  | none =>
    if scan.closed then usage (.unexpectedArgument argument)
    else match Verb.ofName? argument with
    | some verb => .ok { scan with verb? := some verb }
    | none => usage (.unknownCommand argument)
  | some verb =>
    if argument.isEmpty then usage .emptyValue
    else if scan.file?.isSome then usage (.unexpectedArgument argument)
    else if verb = .help ∧ (Verb.ofName? argument).isNone then usage (.unknownCommand argument)
    else .ok { scan with file? := some argument }

/-- Reads one more argument. Help takes the name of a command and no option. -/
def argument (scan : Scan) (argument : String) : Except Ending Scan :=
  if scan.closed || scan.verb? == some .help then scan.word argument
  else match argument.toList with
  | '-' :: '-' :: rest =>
    if scan.awaiting then usage .missingValue
    else if rest.isEmpty then .ok { scan with closed := true }
    else scan.long rest
  | '-' :: letter :: rest =>
    if scan.awaiting then usage .missingValue else scan.letters (letter :: rest)
  | _ => if scan.awaiting then scan.setOut argument else scan.word argument

/-- The request of a command line that has been read to its end. More output asked for after the
verb counts in place of what was asked for before it. -/
def finish (scan : Scan) : Except Ending Request :=
  let verbosity := if scan.innerVerbosity = 0 then scan.outerVerbosity else scan.innerVerbosity
  if scan.awaiting then .error (.usage .missingValue)
  else match scan.verb?, scan.file? with
  | none, _ => .error (.usage .noCommand)
  | some .help, _ => .error .help
  | some .compile, file? =>
    .ok ⟨.compile file? scan.terminal (scan.out?.getD "a.out") scan.strict, verbosity⟩
  | some .run, some file => .ok ⟨.run file scan.trace, verbosity⟩
  | some .dump, some file => .ok ⟨.dump file, verbosity⟩
  | some .run, none | some .dump, none => .error (.usage .missingFile)

end Scan

/-- Reads the arguments of a command line. -/
def ofArguments (arguments : List String) : Except Ending Request := do
  (← arguments.foldlM Scan.argument {}).finish

end Request

end LittleMan
