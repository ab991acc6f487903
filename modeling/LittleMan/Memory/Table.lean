import LittleMan.Memory.Basic
import LittleMan.Text.Decimal

/-! The printed table of a memory: ten rows of ten words under a row of column numbers. -/

namespace LittleMan

/-- One column of the table: a space, then a numeral aligned to the right in four places. -/
def column (value : Int) : List Char := ' ' :: (numeral value).leftpad 4 ' '

namespace Memory

/-- The cell of a row and a column. -/
def cellAt (row col : Fin 10) : Address := ⟨10 * row.val + col.val, by omega⟩

def tableHeader : List Char :=
  [' ', ' ', ' '] ++ (List.finRange 10).flatMap fun col => column col.val

/-- One row of the table, labelled with its first address. -/
def tableRow (memory : Memory) (row : Fin 10) : List Char :=
  twoDigits (10 * row.val) ++ ':' ::
    (List.finRange 10).flatMap fun col => column (memory.get (cellAt row col))

def tableLines (memory : Memory) : List (List Char) :=
  tableHeader :: (List.finRange 10).map memory.tableRow

/-- The table as one text without a final newline. -/
def table (memory : Memory) : String :=
  String.ofList (List.intercalate ['\n'] memory.tableLines)

end Memory

end LittleMan
