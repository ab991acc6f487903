/-! Decimal numerals of 64-bit integers. -/

namespace LittleMan

/-- Why a text is not the numeral of a 64-bit integer. -/
inductive NumeralError
  | empty
  | invalidDigit
  | tooLarge
  | tooSmall
  deriving DecidableEq, Repr

def NumeralError.message : NumeralError → String
  | .empty => "cannot parse integer from empty string"
  | .invalidDigit => "invalid digit found in string"
  | .tooLarge => "number too large to fit in target type"
  | .tooSmall => "number too small to fit in target type"

/-- Reads what follows the sign of a numeral. The digits before the first character that is no
digit are judged first, so a value that leaves the range there hides the bad character. -/
def readMagnitude (sign : Int) (text : List Char) : Except NumeralError Int :=
  let value := sign * Nat.ofDigitChars 10 (text.takeWhile Char.isDigit) 0
  if 9223372036854775808 ≤ value then .error .tooLarge
  else if value < -9223372036854775808 then .error .tooSmall
  else if text.isEmpty || text.any (!·.isDigit) then .error .invalidDigit
  else .ok value

/-- Reads a numeral: one optional sign, then at least one ASCII digit. -/
def readNumeral : List Char → Except NumeralError Int
  | [] => .error .empty
  | '+' :: text => readMagnitude 1 text
  | '-' :: text => readMagnitude (-1) text
  | text => readMagnitude 1 text

/-- The shortest numeral of an integer. -/
def numeral (value : Int) : List Char :=
  if value < 0 then '-' :: Nat.toDigits 10 value.natAbs else Nat.toDigits 10 value.natAbs

/-- A natural number of at least two digits. -/
def twoDigits (n : Nat) : List Char := (Nat.toDigits 10 n).leftpad 2 '0'

end LittleMan
