import LittleMan.Text.Blank

/-! Lines of a text and words of a line. -/

namespace LittleMan

/-- The pieces of a text between line feeds. -/
def pieces (text : List Char) : List (List Char) := text.splitOnP (· == '\n')

/-- Some pieces without the last one if that is empty. -/
def trimLast (parts : List (List Char)) : List (List Char) :=
  if parts.getLast? = some [] then parts.dropLast else parts

/-- The lines of a text. Each ends with a line feed, which only the last one may lack. A carriage
return before a line feed stays in its line, where it is blank. -/
def lines (text : List Char) : List (List Char) := trimLast (pieces text)

/-- The maximal runs of characters that are not blank. -/
def words (line : List Char) : List (List Char) :=
  (line.splitOnP isBlank).filter fun word => !word.isEmpty

end LittleMan
