/-
# Listings

A listing shows a program from its first cell on, one line for each
instruction. It does not run the program: cells that look like an
instruction are listed as one, and a word that is no instruction, or whose
operands would run past the end, takes a data line of one cell.

Key definitions: `Listing.Line`, `Listing.lines`, `Listing.Line.text`,
`Listing.ofProgram`.
Key theorem: `Listing.cells_lines`.
-/
import Intcode.Text.Align
import Intcode.Word

namespace Intcode.Listing

/-- What a line of a listing shows. -/
inductive Content where
  /-- An instruction: the word as it stands in the program, what it says, and
  the literals of its operands. -/
  | instruction (word : Int) (op : Opcode) (modes : List Mode) (literals : List Int)
  /-- A cell that is no instruction. -/
  | data (word : Int)
  deriving DecidableEq, Repr

/-- A line of a listing, with the address of its first cell. -/
structure Line where
  offset : Nat
  content : Content
  deriving DecidableEq, Repr

/-- The cells that a line shows. -/
def Content.cells : Content → List Int
  | instruction word _ _ literals => word :: literals
  | data word => [word]

/-- What a program shows at its start, and the cells after that. -/
def first (word : Int) (rest : List Int) : Content × List Int :=
  match Word.split word with
  | .error _ => (.data word, rest)
  | .ok (op, modes) =>
    let literals := rest.take op.operands.length
    if literals.length = op.operands.length then
      (.instruction word op modes literals, rest.drop op.operands.length)
    else (.data word, rest)

theorem cells_first (word : Int) (rest : List Int) :
    (first word rest).1.cells ++ (first word rest).2 = word :: rest := by
  unfold first
  split
  · rfl
  · dsimp only
    split <;> simp [Content.cells]

theorem length_first_le (word : Int) (rest : List Int) :
    (first word rest).2.length ≤ rest.length := by
  have h := congrArg List.length (cells_first word rest)
  have h' : 1 ≤ (first word rest).1.cells.length := by
    cases (first word rest).1 <;> simp [Content.cells]
  simp only [List.length_append, List.length_cons] at h
  omega

/-- The lines of the cells from an address on. -/
def lines (offset : Nat) : List Int → List Line
  | [] => []
  | word :: rest =>
    ⟨offset, (first word rest).1⟩ ::
      lines (offset + (first word rest).1.cells.length) (first word rest).2
termination_by cells => cells.length
decreasing_by
  have := length_first_le word rest
  simp only [List.length_cons]
  omega

/-- Every cell is shown, once and in order. -/
theorem cells_lines (offset : Nat) (cells : List Int) :
    (lines offset cells).flatMap (·.content.cells) = cells := by
  fun_induction lines offset cells with
  | case1 => rfl
  | case2 offset word rest ih =>
    rw [List.flatMap_cons, ih, cells_first]

/-- An integer with its sign, also if it is positive. -/
def signed (n : Int) : String := if n < 0 then toString n else s!"+{n}"

/-- An operand as a listing shows it. -/
def operandText (mode : Mode) (literal : Int) : String :=
  match mode with
  | .position => s!"[{literal}]"
  | .immediate => toString literal
  | .relative => s!"[rb{signed literal}]"

/-- The operands of an instruction as a listing shows them, the first of the
literals having the given index. -/
def operandTexts (modes : List Mode) (index : Nat) : List Int → List String
  | [] => []
  | literal :: rest =>
    operandText (Word.modeAt modes index) literal :: operandTexts modes (index + 1) rest

/-- The text of a line's content. -/
def Content.text : Content → String
  | data word => s!"DATA {word}"
  | instruction _ op _ [] => op.mnemonic
  | instruction _ op modes literals =>
    op.mnemonic ++ " " ++ String.intercalate ", " (operandTexts modes 0 literals)

/-- The text of a line. -/
def Line.text (l : Line) : String :=
  s!"{Text.alignRight 5 (toString l.offset)}: {l.content.text}"

/-- The listing of a program. -/
def ofProgram (program : List Int) : List String := (lines 0 program).map Line.text

end Intcode.Listing
