import LittleMan.Command.Execute

/-! The command line: the files and streams of the system around the commands. -/

namespace LittleMan.Terminal

def helpText : String :=
  "Compile and execute Little Man Computer programs

Usage: lmc [-v]... <COMMAND>

Commands:
  compile [FILE] [-t] [-o OUT] [--strict]  Write the image of a program
  run FILE [--trace]                       Run an image or a program
  dump FILE                                Print an image or a program as a table

Options:
  -v, --verbose  Show more of the log, may be repeated
  -h, --help     Print help
  -V, --version  Print the version"

def usageText : Request.UsageError → String
  | .noCommand => "a command is required"
  | .unknownCommand name => s!"unknown command {name}"
  | .unknownOption option => s!"unexpected option {option}"
  | .repeatedOption _ => "an option may not be repeated"
  | .unexpectedValue _ => "an option takes no value"
  | .missingValue => "an option lacks its value"
  | .emptyValue => "a value may not be empty"
  | .missingFile => "a file is required"
  | .unexpectedArgument argument => s!"unexpected argument {argument}"

def noticeText : Notice → String
  | .snapshot snapshot => snapshot.text
  | .entry entry =>
    let level := entry.level.name
    let path := entry.area.path
    let message := entry.message
    s!"{level} [{path}] {message}"

/-- The cause of an error of the system, whose code may come with either sign. -/
def fileError (error : IO.Error) : FileError :=
  match error with
  | .noFileOrDirectory .. => .notFound
  | .inappropriateType _ code _ => if code = 21 ∨ code = -21 then .isDirectory else .notDirectory
  | .invalidArgument _ code _ =>
    if code = 36 ∨ code = -36 then .nameTooLong else .other (toString error)
  | _ => .other (toString error)

def readFile (path : String) : IO Storage.Contents := do
  match ← (IO.FS.readBinFile path).toBaseIO with
  | .ok bytes => return .ok bytes.data.toList
  | .error error => return .error (fileError error)

def writeFile (path : String) (bytes : List UInt8) : IO (Except FileError Unit) := do
  match ← (IO.FS.writeBinFile path ⟨bytes.toArray⟩).toBaseIO with
  | .ok () => return .ok ()
  | .error error => return .error (fileError error)

/-- Reads a stream to its end. -/
partial def readAll (stream : IO.FS.Stream) (bytes : ByteArray) : IO (List UInt8) := do
  let more ← stream.read 4096
  if more.isEmpty then return bytes.data.toList
  readAll stream (bytes ++ more)

/-- Reads a stream through the next newline, or to its end. -/
partial def readLine (stream : IO.FS.Stream) (line : ByteArray) : IO (List UInt8) := do
  let more ← stream.read 1
  if more.isEmpty then return line.data.toList
  if more.data.contains newline then return (line ++ more).data.toList
  readLine stream (line ++ more)

def putNotices (notices : Array Notice) : IO Unit :=
  notices.forM fun notice => IO.eprintln (noticeText notice)

/-- The files and the standard streams of the process. -/
def system : System IO where
  input := do readAll (← IO.getStdin) .empty
  line := do readLine (← IO.getStdin) .empty
  read := readFile
  write := writeFile
  print bytes := do
    let output ← IO.getStdout
    output.write ⟨bytes.toArray⟩
    output.flush
  report := putNotices

/-- How many steps of a run are made before the run is taken up again. -/
def burst : Nat := 1000000

/-- Goes on with a command until it is done. -/
partial def finish (threshold : Log.Level) : Progress → IO (Option Failure)
  | .done failure? => return failure?
  | .more rest => do finish threshold (← rest.performIn system threshold burst)

/-- Executes a request on the files and streams of the process. -/
def execute (request : Request) : IO (Option Failure) := do
  finish request.threshold (← request.executeIn system burst)

end LittleMan.Terminal

def main (arguments : List String) : IO UInt32 := do
  match LittleMan.Request.ofArguments arguments with
  | .error .version =>
    IO.println LittleMan.Request.versionText
    return 0
  | .error .help =>
    IO.println LittleMan.Terminal.helpText
    return 0
  | .error (.usage error) =>
    let text := LittleMan.Terminal.usageText error
    IO.eprintln s!"error: {text}"
    return 2
  | .ok request =>
    match ← LittleMan.Terminal.execute request with
    | none => return 0
    | some failure =>
      failure.chain.forM fun message => IO.eprintln s!"Error: {message}"
      return 1
