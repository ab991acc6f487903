import LittleMan.Assembly.Mnemonic
import LittleMan.Text.Split
import LittleMan.Text.Decimal
import LittleMan.Memory.Basic

/-! The lines of a program and what a statement puts into its cell. -/

namespace LittleMan

/-- The part of a line before its comment, which two slashes begin. -/
def stripComment : List Char → List Char
  | [] => []
  | '/' :: '/' :: _ => []
  | c :: line => c :: stripComment line

/-- The first three words of a line. Later ones mean nothing. -/
def tokens (line : List Char) : List String := ((words line).take 3).map String.ofList

/-- The numeric value of a token, if it is a numeral of 64 bits. -/
def tokenValue? (token : String) : Option Int :=
  match readNumeral token.toList with
  | .ok value => some value
  | .error _ => none

/-- The address that a token names by its number. -/
def tokenAddress? (token : String) : Option Address :=
  match tokenValue? token with
  | some value => if h : 0 ≤ value ∧ value < 100 then some ⟨value.toNat, by omega⟩ else none
  | none => none

/-- A line that takes up a cell. -/
structure Statement where
  label : Option String
  mnemonic : Mnemonic
  operand : Option String
  deriving DecidableEq, Repr

namespace Statement

/-- The number that a datum asks to store: zero where no numeral is given. -/
def datum (statement : Statement) : Int := (statement.operand.bind tokenValue?).getD 0

/-- The operand of a datum that gives something else than a numeral. -/
def unreadable? (statement : Statement) : Option String :=
  match statement.mnemonic with
  | .dat => statement.operand.filter fun token => (tokenValue? token).isNone
  | .op _ => none

/-- The word of a statement before any label is added to it. -/
def word (statement : Statement) : Int :=
  match statement.mnemonic with
  | .dat => wrap statement.datum
  | .op operation =>
    match statement.operand.bind tokenAddress? with
    | some address => operation.code + address.val
    | none => operation.code

/-- The label whose address is to be added to the word: an operand of an operation that names no
address by its number. -/
def reference? (statement : Statement) : Option String :=
  match statement.mnemonic with
  | .dat => none
  | .op _ => statement.operand.filter fun token => (tokenAddress? token).isNone

end Statement

/-- What a line of a program is. -/
inductive Line
  | blank
  | unrecognized
  | statement (statement : Statement)
  deriving DecidableEq, Repr

namespace Line

/-- Classifies a line by its tokens: the mnemonic stands first or, after a label, second. -/
def ofTokens : List String → Line
  | [] => .blank
  | first :: rest =>
    match Mnemonic.ofName? first with
    | some mnemonic => .statement ⟨none, mnemonic, rest.head?⟩
    | none =>
      match rest with
      | [] => .unrecognized
      | second :: rest =>
        match Mnemonic.ofName? second with
        | some mnemonic => .statement ⟨some first, mnemonic, rest.head?⟩
        | none => .unrecognized

/-- Classifies a line of source text. -/
def read (line : List Char) : Line := ofTokens (tokens (stripComment line))

end Line

end LittleMan
