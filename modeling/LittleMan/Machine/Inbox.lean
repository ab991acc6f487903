import LittleMan.Text.Decimal
import LittleMan.Text.Utf8

/-! The inbox of the machine: bytes that are read one line at a time. -/

namespace LittleMan

def newline : UInt8 := 10

/-- Why the next line of an inbox gives no integer. -/
inductive InputError
  | notText
  | exhausted
  | unterminated (line : String)
  | notInteger (text : String) (cause : NumeralError)
  deriving DecidableEq, Repr

def InputError.message : InputError → String
  | .notText => "Failed to read input: stream did not contain valid UTF-8"
  | .exhausted => "Input is exhausted"
  | .unterminated line => s!"Input line `{line}` is not terminated"
  | .notInteger text cause =>
    let cause := cause.message
    s!"Input `{text}` is not an integer: {cause}"

/-- The next line of an inbox, without its newline. -/
def nextLine (inbox : List UInt8) : List UInt8 := inbox.takeWhile (· != newline)

/-- What is left of an inbox once its next line is read, its newline included. -/
def afterLine (inbox : List UInt8) : List UInt8 := (inbox.dropWhile (· != newline)).tail

/-- The next line of an inbox with its newline, or all that is left of it without one. -/
def takenLine (inbox : List UInt8) : List UInt8 :=
  nextLine inbox ++ if newline ∈ inbox then [newline] else []

/-- The integer on the next line of an inbox. -/
def nextInteger (inbox : List UInt8) : Except InputError Int :=
  match decodeUtf8? (nextLine inbox) with
  | none => .error .notText
  | some text =>
    if inbox.isEmpty then .error .exhausted
    else if !inbox.contains newline then .error (.unterminated text)
    else match readNumeral text.toList with
      | .ok value => .ok value
      | .error cause => .error (.notInteger text cause)

end LittleMan
