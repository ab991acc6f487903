/-! Log entries: how severe they are, which part of the program writes them, and their text. -/

namespace LittleMan.Log

/-- How severe an entry is, the most severe first. -/
inductive Level
  | error
  | warn
  | info
  | debug
  | trace
  deriving DecidableEq, Repr

namespace Level

/-- The place of a level in the order of severity. -/
def rank : Level → Nat
  | .error => 0
  | .warn => 1
  | .info => 2
  | .debug => 3
  | .trace => 4

def name : Level → String
  | .error => "ERROR"
  | .warn => "WARN"
  | .info => "INFO"
  | .debug => "DEBUG"
  | .trace => "TRACE"

/-- A threshold lets through its own level and every more severe one. -/
def admits (threshold level : Level) : Bool := level.rank ≤ threshold.rank

/-- The threshold that a number of requests for more output chooses. -/
def ofVerbosity : Nat → Level
  | 0 => .warn
  | 1 => .info
  | 2 => .debug
  | _ => .trace

end Level

/-- The part of the program that writes an entry. -/
inductive Area
  | command
  | storage
  | assembly
  | machine
  deriving DecidableEq, Repr

/-- The name under which the entries of an area appear. -/
def Area.path : Area → String
  | .command => "lmc"
  | .storage => "lmc::memory"
  | .assembly => "lmc::memory::parse"
  | .machine => "lmc::processor"

structure Entry where
  level : Level
  area : Area
  message : String
  deriving DecidableEq, Repr

end LittleMan.Log
