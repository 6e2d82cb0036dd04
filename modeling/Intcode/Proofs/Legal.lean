/-
# Rows of legal instructions

An instruction is legal if its word is split into an operation and modes, a literal stands
behind it for each operand, and no operand that is written to is immediate
(`Listing.Content.Legal`). Cells that are a row of legal instructions are listed as this
row, whatever cells stand behind them (`Listing.lines_legal`): a literal that looks like
an instruction is never taken for one. So where the instructions begin can be told from
the row alone (`Listing.mem_placed`).

Key definitions: `Listing.Content.Legal`, `Listing.Content.operation?`,
`Listing.cellsOf`, `Listing.placed`.
Key theorems: `Listing.lines_legal`, `Listing.mem_placed`.
-/
import Intcode.Listing

namespace Intcode.Listing

/-- What a line shows is a legal instruction, with all its operands. -/
inductive Content.Legal : Content → Prop where
  | instruction {word : Int} {op : Opcode} {modes : List Mode} {literals : List Int}
      (split : Word.split word = .ok (op, modes))
      (whole : literals.length = op.operands.length)
      (writes : ∀ i < op.operands.length, op.operands[i]? = some .write →
        Word.modeAt modes i ≠ .immediate) :
      Legal (.instruction word op modes literals)

/-- The operation of an instruction that a line shows. -/
def Content.operation? : Content → Option Opcode
  | .instruction _ op _ _ => some op
  | .data _ => none

/-- The cells that a row shows. -/
def cellsOf (row : List Content) : List Int := row.flatMap Content.cells

/-- The lines of a row, the first of which is at an address. -/
def placed (offset : Nat) : List Content → List Line
  | [] => []
  | c :: row => ⟨offset, c⟩ :: placed (offset + c.cells.length) row

variable {row row' : List Content} {c : Content} {l : Line} {offset : Nat} {rest : List Int}

theorem cellsOf_cons : cellsOf (c :: row) = c.cells ++ cellsOf row := rfl

theorem cellsOf_append : cellsOf (row ++ row') = cellsOf row ++ cellsOf row' :=
  List.flatMap_append

/-- A legal instruction is what the cells that begin with it show first. -/
theorem lines_legal_cons (h : c.Legal) (offset : Nat) (rest : List Int) :
    lines offset (c.cells ++ rest) = ⟨offset, c⟩ :: lines (offset + c.cells.length) rest := by
  cases h with
  | @instruction word op modes literals split whole writes =>
    have hfirst : first word (literals ++ rest) = (.instruction word op modes literals, rest) := by
      unfold first
      rw [split]
      simp only [List.take_left' whole, List.drop_left' whole, whole, if_true]
    rw [Content.cells, List.cons_append, lines, hfirst]
    rfl

/-- A row of legal instructions is listed as it is, whatever stands behind it. -/
theorem lines_legal (h : ∀ c ∈ row, c.Legal) (offset : Nat) (rest : List Int) :
    lines offset (cellsOf row ++ rest) =
      placed offset row ++ lines (offset + (cellsOf row).length) rest := by
  induction row generalizing offset with
  | nil => rfl
  | cons c row ih =>
    obtain ⟨hc, hrow⟩ := List.forall_mem_cons.1 h
    rw [cellsOf_cons, List.append_assoc, lines_legal_cons hc, ih hrow, placed, List.cons_append,
      List.length_append, Nat.add_assoc]

theorem lines_cellsOf (h : ∀ c ∈ row, c.Legal) (offset : Nat) :
    lines offset (cellsOf row) = placed offset row := by
  have := lines_legal h offset []
  rwa [List.append_nil, lines, List.append_nil] at this

theorem placed_append : placed offset (row ++ row') =
    placed offset row ++ placed (offset + (cellsOf row).length) row' := by
  induction row generalizing offset with
  | nil => rfl
  | cons c row ih =>
    rw [List.cons_append, placed, ih, placed, List.cons_append, cellsOf_cons, List.length_append,
      Nat.add_assoc]

/-- The lines of a row: each is at the address behind the cells of those before it. -/
theorem mem_placed : l ∈ placed offset row ↔ ∃ before after,
    row = before ++ l.content :: after ∧ l.offset = offset + (cellsOf before).length := by
  induction row generalizing offset with
  | nil => simp [placed]
  | cons c row ih =>
    rw [placed, List.mem_cons, ih]
    constructor
    · rintro (rfl | ⟨before, after, rfl, hoffset⟩)
      · exact ⟨[], row, rfl, rfl⟩
      · refine ⟨c :: before, after, rfl, ?_⟩
        rw [hoffset, cellsOf_cons, List.length_append, Nat.add_assoc]
    · rintro ⟨before, after, hrow, hoffset⟩
      cases before with
      | nil =>
        obtain ⟨rfl, rfl⟩ := List.cons.inj hrow
        exact .inl (congrArg (Line.mk · l.content) hoffset)
      | cons c' before =>
        obtain ⟨rfl, rfl⟩ := List.cons.inj hrow
        refine .inr ⟨before, after, rfl, ?_⟩
        rw [hoffset, cellsOf_cons, List.length_append, Nat.add_assoc]

end Intcode.Listing
