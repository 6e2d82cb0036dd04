/-
# Program text

A program is written as its cells in decimal, separated by commas. Blanks
around a field do not count. `parse` checks the fields from left to right:
each must be there, be an integer, and fit a cell.

Key definitions: `ProgramText.fields`, `ProgramText.field`, `ProgramText.parse`,
`ProgramText.format`.
-/
import Intcode.Fault
import Intcode.Text.Blank
import Intcode.Text.Numeral

namespace Intcode.ProgramText

/-- The fields of a text, without the blanks around them. There is always at
least one. -/
def fields (text : List Char) : List (List Char) := (text.splitOn ',').map Text.strip

/-- The cell written in a field, the field of the given index. -/
def field (index : Nat) (s : List Char) : Except Fault Int :=
  if s = [] then .error (.emptyField index)
  else match Text.integer? s with
    | none => .error (.notInteger index (String.ofList s))
    | some n => if InCell n then .ok n else .error (.fieldRange index n)

/-- The cells written in fields, the first of which has the given index. -/
def cells (index : Nat) : List (List Char) → Except Fault (List Int)
  | [] => .ok []
  | s :: rest => do return (← field index s) :: (← cells (index + 1) rest)

/-- The program written in a text. -/
def parse (text : String) : Except Fault (List Int) := cells 0 (fields text.toList)

/-- The text of a program. -/
def format (program : List Int) : String := String.intercalate "," (program.map toString)

theorem fields_ne_nil (text : List Char) : fields text ≠ [] := by
  simp [fields, List.splitOn]

theorem field_nil (index : Nat) : field index [] = .error (.emptyField index) := rfl

end Intcode.ProgramText
