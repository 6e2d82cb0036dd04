/-
# Code that can be moved

The code of an expression is written from left to right, and a jump is written before it
is known where it goes: its target is left open and filled in when what it jumps over is
there (`Expr.emit`). No place stays open (`Expr.emit_eq`).

The code is a row of legal instructions (`Expr.row`), whatever its constants look like,
and the only addresses in it are the targets of its jumps. Each is the address of a
boundary, where an instruction begins or the code ends (`Expr.row_targets`). So the code
can be moved: at another address it is the same but for the targets, which move with it
(`Expr.row_moved`). And the listing of a program has no data in it, and no halt but the
one that ends it.

Key definitions: `Listing.Boundary`, `Listing.TargetAt`, `Listing.WellFormed`,
`Listing.Relocated`, `Expr.emit`, `Expr.row`, `Expr.programRow`.
Key theorems: `Listing.wellFormed_row`, `Listing.relocated_row`, `Expr.emit_eq`,
`Expr.legal_row`, `Expr.row_targets`, `Expr.row_moved`, `Expr.ofProgram_program`,
`Expr.code_relocates`.
-/
import Intcode.Proofs.Coverage
import Intcode.Proofs.Decompile
import Intcode.Proofs.Legal

namespace Intcode

/-! ### Jumps in a row of instructions -/

namespace Listing

/-- The content is an instruction that goes to what its second operand comes to. -/
def Content.IsJump (c : Content) : Prop :=
  c.operation? = some .jumpIfTrue ∨ c.operation? = some .jumpIfFalse

instance (c : Content) : Decidable c.IsJump := inferInstanceAs (Decidable (_ ∨ _))

/-- An instruction of the cells begins at this place, or the last one ends there. -/
def Boundary (cells : List Int) (k : Nat) : Prop :=
  k = cells.length ∨ ∃ l ∈ lines 0 cells, l.offset = k

/-- The cell at this place is the second operand of a jump, the target. -/
def TargetAt (cells : List Int) (i : Nat) : Prop :=
  ∃ l ∈ lines 0 cells, l.content.IsJump ∧ i = l.offset + 2

/-- Cells that are a row of legal instructions, for the address of the first cell. -/
structure WellFormed (base : Int) (cells : List Int) : Prop where
  /-- From left to right the cells are whole instructions, and legal. -/
  legal : ∀ l ∈ lines 0 cells, l.content.Legal
  /-- The target of a jump is the address that is gone to. -/
  absolute : ∀ l ∈ lines 0 cells, l.content.IsJump →
    ∀ word op modes literals, l.content = .instruction word op modes literals →
      Word.modeAt modes 1 = .immediate
  /-- It is the address of a boundary. -/
  targets : ∀ i, TargetAt cells i → ∃ k, Boundary cells k ∧ cells[i]? = some (base + k)

/-- The second cells are the first with the targets of the jumps moved by a distance. -/
structure Relocated (distance : Int) (cells cells' : List Int) : Prop where
  length : cells'.length = cells.length
  moved : ∀ i, TargetAt cells i → cells'[i]? = cells[i]?.map (· + distance)
  kept : ∀ i, ¬ TargetAt cells i → cells'[i]? = cells[i]?

/-- A jump with its target moved; anything else as it is. -/
def Content.moved (distance : Int) : Content → Content
  | .instruction word .jumpIfTrue modes [condition, target] =>
    .instruction word .jumpIfTrue modes [condition, target + distance]
  | .instruction word .jumpIfFalse modes [condition, target] =>
    .instruction word .jumpIfFalse modes [condition, target + distance]
  | c => c

variable {row before after : List Content} {c : Content} {base : Int} {i : Nat}

theorem Content.Legal.jump (h : c.Legal) (hjump : c.IsJump) :
    ∃ word op modes condition target, c = .instruction word op modes [condition, target] ∧
      (op = .jumpIfTrue ∨ op = .jumpIfFalse) := by
  cases h with
  | @instruction word op modes literals split whole writes =>
    have hop : op = .jumpIfTrue ∨ op = .jumpIfFalse := hjump.imp Option.some.inj Option.some.inj
    have htwo : op.operands.length = 2 := by rcases hop with rfl | rfl <;> rfl
    obtain ⟨condition, target, rfl⟩ := List.length_eq_two.1 (whole.trans htwo)
    exact ⟨word, op, modes, condition, target, rfl, hop⟩

theorem length_cells_moved (c : Content) (distance : Int) :
    (c.moved distance).cells.length = c.cells.length := by
  unfold Content.moved
  split <;> rfl

theorem length_cellsOf_moved (row : List Content) (distance : Int) :
    (cellsOf (row.map (Content.moved distance))).length = (cellsOf row).length := by
  induction row with
  | nil => rfl
  | cons c row ih =>
    rw [List.map_cons, cellsOf_cons, cellsOf_cons, List.length_append, List.length_append, ih,
      length_cells_moved]

/-- A jump is moved in the second cell behind its word. -/
theorem getElem?_moved_target (h : c.Legal) (hjump : c.IsJump) (distance : Int) :
    (c.moved distance).cells[2]? = c.cells[2]?.map (· + distance) := by
  obtain ⟨word, op, modes, condition, target, rfl, rfl | rfl⟩ := h.jump hjump <;> rfl

theorem getElem?_moved_kept (distance : Int) (hi : ¬ (c.IsJump ∧ i = 2)) :
    (c.moved distance).cells[i]? = c.cells[i]? := by
  have other {word : Int} {op : Opcode} {modes : List Mode} {condition target target' : Int}
      (hne : i ≠ 2) : (Content.instruction word op modes [condition, target']).cells[i]? =
        (Content.instruction word op modes [condition, target]).cells[i]? := by
    match i with
    | 0 | 1 | _ + 3 => rfl
    | 2 => exact absurd rfl hne
  unfold Content.moved
  split
  · exact other fun h2 => hi ⟨.inl rfl, h2⟩
  · exact other fun h2 => hi ⟨.inr rfl, h2⟩
  · rfl

/-- A cell of a row is a cell of one of its instructions. -/
theorem exists_cell (h : i < (cellsOf row).length) : ∃ before c after j,
    row = before ++ c :: after ∧ i = (cellsOf before).length + j ∧ j < c.cells.length := by
  induction row generalizing i with
  | nil => cases h
  | cons c row ih =>
    rw [cellsOf_cons, List.length_append] at h
    by_cases hi : i < c.cells.length
    · exact ⟨[], c, row, i, rfl, (Nat.zero_add i).symm, hi⟩
    · obtain ⟨before, d, after, j, rfl, hj, hlt⟩ := @ih (i - c.cells.length) (by omega)
      refine ⟨c :: before, d, after, j, rfl, ?_, hlt⟩
      rw [cellsOf_cons, List.length_append]
      omega

theorem getElem?_cellsOf {j : Nat} (hj : j < c.cells.length) :
    (cellsOf (before ++ c :: after))[(cellsOf before).length + j]? = c.cells[j]? := by
  rw [cellsOf_append, List.getElem?_append_right (Nat.le_add_right _ _), Nat.add_sub_cancel_left,
    cellsOf_cons, List.getElem?_append_left hj]

theorem targetAt_cellsOf (h : ∀ c ∈ row, c.Legal) : TargetAt (cellsOf row) i ↔
    ∃ before c after, row = before ++ c :: after ∧ c.IsJump ∧ i = (cellsOf before).length + 2 := by
  unfold TargetAt
  rw [lines_cellsOf h]
  constructor
  · rintro ⟨l, hl, hjump, rfl⟩
    obtain ⟨before, after, hrow, hoffset⟩ := mem_placed.1 hl
    exact ⟨before, l.content, after, hrow, hjump, by rw [hoffset, Nat.zero_add]⟩
  · rintro ⟨before, c, after, hrow, hjump, rfl⟩
    have hl : ⟨(cellsOf before).length, c⟩ ∈ placed 0 row :=
      mem_placed.2 ⟨before, after, hrow, (Nat.zero_add _).symm⟩
    exact ⟨_, hl, hjump, rfl⟩

/-- Between two instructions of a row there is a boundary, and so before the first and behind
the last. -/
theorem boundary_cellsOf (h : ∀ c ∈ row, c.Legal) (hrow : row = before ++ after) :
    Boundary (cellsOf row) (cellsOf before).length := by
  cases after with
  | nil =>
    left
    rw [hrow, List.append_nil]
  | cons c after =>
    right
    rw [lines_cellsOf h]
    exact ⟨⟨_, c⟩, mem_placed.2 ⟨before, after, hrow, (Nat.zero_add _).symm⟩, rfl⟩

/-- A row of legal instructions is well formed if its jumps go to its boundaries. -/
theorem wellFormed_row (legal : ∀ c ∈ row, c.Legal)
    (absolute : ∀ c ∈ row, c.IsJump → ∀ word op modes literals,
      c = .instruction word op modes literals → Word.modeAt modes 1 = .immediate)
    (targets : ∀ c ∈ row, c.IsJump → ∃ before after,
      row = before ++ after ∧ c.cells[2]? = some (base + (cellsOf before).length)) :
    WellFormed base (cellsOf row) := by
  have shown {l : Line} (hl : l ∈ lines 0 (cellsOf row)) : l.content ∈ row := by
    rw [lines_cellsOf legal] at hl
    obtain ⟨before, after, rfl, -⟩ := mem_placed.1 hl
    exact List.mem_append_right _ List.mem_cons_self
  refine ⟨fun l hl => legal _ (shown hl), fun l hl => absolute _ (shown hl), fun i hi => ?_⟩
  obtain ⟨before, c, after, rfl, hjump, rfl⟩ := (targetAt_cellsOf legal).1 hi
  have hmem : c ∈ before ++ c :: after := List.mem_append_right _ List.mem_cons_self
  obtain ⟨before', after', hrow, htarget⟩ := targets c hmem hjump
  refine ⟨_, boundary_cellsOf legal hrow, ?_⟩
  rw [getElem?_cellsOf (List.getElem?_eq_some_iff.1 htarget).1, htarget]

/-- A row of legal instructions with its jumps moved has the cells of the row but for the targets
of the jumps. -/
theorem relocated_row (legal : ∀ c ∈ row, c.Legal) (distance : Int) :
    Relocated distance (cellsOf row) (cellsOf (row.map (Content.moved distance))) := by
  have at_cell {before after : List Content} {c : Content} {j : Nat} (hj : j < c.cells.length) :
      (cellsOf ((before ++ c :: after).map (Content.moved distance)))[
        (cellsOf before).length + j]? = (c.moved distance).cells[j]? := by
    rw [← length_cellsOf_moved before distance, List.map_append, List.map_cons]
    exact getElem?_cellsOf (by rwa [length_cells_moved])
  refine ⟨length_cellsOf_moved row distance, fun i hi => ?_, fun i hi => ?_⟩
  · obtain ⟨before, c, after, rfl, hjump, rfl⟩ := (targetAt_cellsOf legal).1 hi
    have hc := legal c (List.mem_append_right _ List.mem_cons_self)
    have htwo : 2 < c.cells.length := by
      obtain ⟨_, _, _, _, _, rfl, -⟩ := hc.jump hjump
      exact Nat.lt_succ_self 2
    rw [at_cell htwo, getElem?_cellsOf htwo, getElem?_moved_target hc hjump]
  · by_cases hlt : i < (cellsOf row).length
    · obtain ⟨before, c, after, j, rfl, rfl, hj⟩ := exists_cell hlt
      rw [at_cell hj, getElem?_cellsOf hj]
      apply getElem?_moved_kept
      rintro ⟨hjump, rfl⟩
      exact hi ((targetAt_cellsOf legal).2 ⟨before, c, after, rfl, hjump, rfl⟩)
    · have hle : (cellsOf row).length ≤ i := Nat.le_of_not_lt hlt
      rw [List.getElem?_eq_none hle, List.getElem?_eq_none]
      rwa [length_cellsOf_moved]

end Listing

namespace Expr

open Listing

/-! ### Targets that are filled in -/

/-- The code of an expression as it is written from left to right, with the places that are
open. The targets of the jumps of a choice are open until it is known where its second branch
begins and where that ends. -/
def emit : Expr → Int → List (Option Int)
  | const c, _ => [pushConstant, c.val, 0, 0, moveStack, 1].map some
  | input, _ => [pushInput, 0, moveStack, 1].map some
  | binary op left right, base =>
    let code := left.emit base
    let code := code ++ right.emit (base + code.length)
    code ++ [binaryTop op, -2, -1, -2, moveStack, -1].map some
  | select condition first second, base =>
    let code := condition.emit base ++ [moveStack, -1].map some
    let toSecond := code.length + 2
    let code := code ++ [some jumpIfZero, some 0, none]
    let code := code ++ first.emit (base + code.length)
    let toEnd := code.length + 2
    let code := code ++ [some jumpAlways, some 1, none]
    let code := code.set toSecond (some (base + code.length))
    let code := code ++ second.emit (base + code.length)
    code.set toEnd (some (base + code.length))

/-- Every place is filled in, with the cell that the code has there. -/
theorem emit_eq (e : Expr) (base : Int) : e.emit base = (e.code base).map some := by
  induction e generalizing base with
  | const c => rfl
  | input => rfl
  | binary op left right hl hr =>
    simp only [emit, code, hl, hr, List.length_map, List.map_append]
  | select condition first second hc hf hs =>
    -- the cells written so far reach up to where the branches begin and end
    have hfirst : base + (condition.codeLength + 5) = base + condition.codeLength + 5 := by omega
    have hsecond : base + (condition.codeLength + (first.codeLength + 8)) =
        base + condition.codeLength + 5 + first.codeLength + 3 := by omega
    have hend : base + (condition.codeLength + (first.codeLength + (second.codeLength + 8))) =
        base + condition.codeLength + 5 + first.codeLength + 3 + second.codeLength := by omega
    simp [emit, code, hc, hf, hs, length_code, Nat.add_assoc, hfirst, hsecond, hend]

/-! ### Code as a row of instructions -/

/-- The instruction that moves the stack pointer. -/
def moves (distance : Int) : Content :=
  .instruction moveStack .adjustRelativeBase [.immediate] [distance]

/-- The instructions of a piece of code. -/
def Piece.row : Piece → List Content
  | constant c =>
    [.instruction pushConstant .add [.immediate, .immediate, .relative] [c.val, 0, 0], moves 1]
  | input => [.instruction pushInput .input [.relative] [0], moves 1]
  | binary op =>
    [.instruction (binaryTop op) op.opcode [.relative, .relative, .relative] [-2, -1, -2],
      moves (-1)]
  | test secondAt =>
    [moves (-1), .instruction jumpIfZero .jumpIfFalse [.relative, .immediate] [0, secondAt]]
  | leave endAt => [.instruction jumpAlways .jumpIfTrue [.immediate, .immediate] [1, endAt]]

/-- The address that a piece goes to. -/
def Piece.target? : Piece → Option Int
  | test secondAt => some secondAt
  | leave endAt => some endAt
  | _ => none

/-- A piece with its target moved. -/
def Piece.moved (distance : Int) : Piece → Piece
  | test secondAt => test (secondAt + distance)
  | leave endAt => leave (endAt + distance)
  | p => p

/-- The instructions of the code of an expression, for the address of its first cell. -/
def row (e : Expr) (base : Int) : List Content := (e.pieces base).flatMap Piece.row

theorem Piece.cellsOf_row (p : Piece) : cellsOf p.row = p.cells := by cases p <;> rfl

theorem Piece.row_moved (distance : Int) (p : Piece) :
    (p.moved distance).row = p.row.map (Content.moved distance) := by
  cases p with
  | binary op => cases op <;> rfl
  | constant | input | test | leave => rfl

theorem legal_moves (distance : Int) : (moves distance).Legal :=
  .instruction (Word.split_of_eq moveStack_eq (by decide) rfl) rfl (by decide)

theorem Piece.legal (p : Piece) : ∀ c ∈ p.row, c.Legal := by
  cases p with
  | constant c =>
    refine List.forall_mem_cons.2 ⟨.instruction ?_ rfl (by decide), by simp [legal_moves]⟩
    exact Word.split_of_eq pushConstant_eq (by decide) rfl
  | input =>
    refine List.forall_mem_cons.2 ⟨.instruction ?_ rfl (by decide), by simp [legal_moves]⟩
    exact Word.split_of_eq pushInput_eq (by decide) rfl
  | binary op =>
    have hop : op.opcode ≠ .halt := by cases op <;> decide
    have hthree : 3 = op.opcode.operands.length := by cases op <;> rfl
    have hwrites : ∀ i < op.opcode.operands.length, op.opcode.operands[i]? = some .write →
        Word.modeAt [.relative, .relative, .relative] i ≠ .immediate := by cases op <;> decide
    refine List.forall_mem_cons.2 ⟨.instruction ?_ hthree hwrites, by simp [legal_moves]⟩
    exact Word.split_of_eq (binaryTop_eq op) hop rfl
  | test secondAt =>
    refine List.forall_mem_cons.2 ⟨legal_moves _, List.forall_mem_singleton.2 ?_⟩
    exact .instruction (Word.split_of_eq jumpIfZero_eq (by decide) rfl) rfl (by decide)
  | leave endAt =>
    refine List.forall_mem_singleton.2 ?_
    exact .instruction (Word.split_of_eq jumpAlways_eq (by decide) rfl) rfl (by decide)

theorem Piece.no_halt (p : Piece) : ∀ c ∈ p.row, c.operation? ≠ some .halt := by
  cases p with
  | constant | input | test =>
    exact List.forall_mem_cons.2 ⟨nofun, List.forall_mem_singleton.2 nofun⟩
  | binary op =>
    have hop : op.opcode ≠ .halt := by cases op <;> decide
    exact List.forall_mem_cons.2
      ⟨fun h => hop (Option.some.inj h), List.forall_mem_singleton.2 nofun⟩
  | leave => exact List.forall_mem_singleton.2 nofun

theorem not_isJump {c : Content} {op : Opcode} (h : c.operation? = some op)
    (hop : op ≠ .jumpIfTrue ∧ op ≠ .jumpIfFalse) : ¬ c.IsJump := by
  rw [Content.IsJump, h]
  rintro (hjump | hjump)
  · exact hop.1 (Option.some.inj hjump)
  · exact hop.2 (Option.some.inj hjump)

/-- A piece has a jump in it if it goes somewhere. It goes to just the address that the piece
names. -/
theorem Piece.jump (p : Piece) : ∀ c ∈ p.row, c.IsJump → ∃ target, p.target? = some target ∧
    c.cells[2]? = some target ∧ ∀ word op modes literals,
      c = .instruction word op modes literals → Word.modeAt modes 1 = .immediate := by
  have quiet (distance : Int) : ¬ (moves distance).IsJump := not_isJump rfl (by decide)
  cases p with
  | constant | input =>
    refine List.forall_mem_cons.2 ⟨fun h => absurd h (not_isJump rfl (by decide)), ?_⟩
    exact List.forall_mem_singleton.2 fun h => absurd h (quiet 1)
  | binary op =>
    have hop : op.opcode ≠ .jumpIfTrue ∧ op.opcode ≠ .jumpIfFalse := by cases op <;> decide
    refine List.forall_mem_cons.2 ⟨fun h => absurd h (not_isJump rfl hop), ?_⟩
    exact List.forall_mem_singleton.2 fun h => absurd h (quiet (-1))
  | test secondAt =>
    intro c hc hjump
    rcases List.mem_pair.1 hc with rfl | rfl
    · exact absurd hjump (quiet (-1))
    · refine ⟨secondAt, rfl, rfl, ?_⟩
      rintro _ _ _ _ ⟨⟩
      rfl
  | leave endAt =>
    intro c hc hjump
    cases List.mem_singleton.1 hc
    refine ⟨endAt, rfl, rfl, ?_⟩
    rintro _ _ _ _ ⟨⟩
    rfl

theorem cellsOf_pieces (ps : List Piece) :
    cellsOf (ps.flatMap Piece.row) = ps.flatMap Piece.cells := by
  rw [cellsOf, List.flatMap_assoc]
  congr 1
  funext p
  exact p.cellsOf_row

theorem cellsOf_row (e : Expr) (base : Int) : cellsOf (e.row base) = e.code base := by
  rw [row, cellsOf_pieces, code_pieces]

theorem mem_row {e : Expr} {base : Int} {c : Content} (h : c ∈ e.row base) :
    ∃ p ∈ e.pieces base, c ∈ p.row :=
  List.mem_flatMap.1 h

/-- All instructions of the code of an expression are legal. -/
theorem legal_row (e : Expr) (base : Int) : ∀ c ∈ e.row base, c.Legal := by
  intro c hc
  obtain ⟨p, -, hp⟩ := mem_row hc
  exact p.legal c hp

/-! ### Where the jumps go -/

/-- The pieces, the first of which is at an address, end at another. -/
def Spans (base : Int) (ps : List Piece) (stop : Int) : Prop :=
  stop = base + (ps.flatMap Piece.cells).length

/-- The address is that of a boundary between two pieces, where the first piece is at the
base. -/
def Lands (base : Int) (ps : List Piece) (target : Int) : Prop :=
  ∃ before after, ps = before ++ after ∧ Spans base before target

section Lands

variable {base middle target : Int} {ps qs : List Piece}

theorem spans_pieces (e : Expr) (base : Int) :
    Spans base (e.pieces base) (base + e.codeLength) := by
  rw [Spans, ← code_pieces, length_code]

theorem spans_test (base secondAt : Int) : Spans base [.test secondAt] (base + 5) := rfl

theorem spans_leave (base endAt : Int) : Spans base [.leave endAt] (base + 3) := rfl

theorem Spans.append {stop : Int} (h : Spans base ps middle) (h' : Spans middle qs stop) :
    Spans base (ps ++ qs) stop := by
  unfold Spans at h h' ⊢
  rw [h', h, List.flatMap_append, List.length_append]
  push_cast
  omega

theorem Lands.append_left (h : Lands base ps target) (qs : List Piece) :
    Lands base (ps ++ qs) target := by
  obtain ⟨before, after, rfl, hbefore⟩ := h
  exact ⟨before, after ++ qs, List.append_assoc .., hbefore⟩

theorem Lands.append_right (h : Lands middle qs target) (hp : Spans base ps middle) :
    Lands base (ps ++ qs) target := by
  obtain ⟨before, after, rfl, hbefore⟩ := h
  exact ⟨ps ++ before, after, (List.append_assoc ..).symm, hp.append hbefore⟩

/-- Where the first pieces end, the others begin. -/
theorem Spans.lands (h : Spans base ps target) (qs : List Piece) : Lands base (ps ++ qs) target :=
  ⟨ps, qs, rfl, h⟩

end Lands

/-- A piece of an expression's code goes to a boundary of that code. -/
theorem pieces_land (e : Expr) (base : Int) : ∀ p ∈ e.pieces base, ∀ target,
    p.target? = some target → Lands base (e.pieces base) target := by
  induction e generalizing base with
  | const c => simp [pieces, Piece.target?]
  | input => simp [pieces, Piece.target?]
  | binary op left right hl hr =>
    intro p hp target htarget
    rw [pieces] at hp ⊢
    rcases List.mem_append.1 hp with hp | hp
    · exact (hl base p hp target htarget).append_left _
    rcases List.mem_append.1 hp with hp | hp
    · exact ((hr _ p hp target htarget).append_left _).append_right (left.spans_pieces base)
    · cases List.mem_singleton.1 hp
      cases htarget
  | select condition first second hc hf hs =>
    let firstAt : Int := base + condition.codeLength + 5
    let secondAt : Int := firstAt + first.codeLength + 3
    let endAt : Int := secondAt + second.codeLength
    let toFirst := condition.pieces base ++ [.test secondAt]
    let toSecond := toFirst ++ (first.pieces firstAt ++ [.leave endAt])
    have hpieces : (select condition first second).pieces base =
        toSecond ++ second.pieces secondAt := by
      simp only [pieces, toSecond, toFirst, endAt, secondAt, firstAt, List.append_assoc,
        List.cons_append, List.nil_append]
    have enters : Spans base toFirst firstAt :=
      (condition.spans_pieces base).append (spans_test _ secondAt)
    have passes : Spans base toSecond secondAt :=
      enters.append ((first.spans_pieces firstAt).append (spans_leave _ endAt))
    have ends : Spans base (toSecond ++ second.pieces secondAt) endAt :=
      passes.append (second.spans_pieces secondAt)
    intro p hp target htarget
    rw [hpieces] at hp ⊢
    simp only [toSecond, toFirst, List.mem_append, List.mem_singleton, or_assoc] at hp
    rcases hp with hp | rfl | hp | rfl | hp
    · exact (((hc base p hp target htarget).append_left _).append_left _).append_left _
    · cases htarget
      exact passes.lands _
    · exact (((hf firstAt p hp target htarget).append_left _).append_right enters).append_left _
    · cases htarget
      have := ends.lands []
      rwa [List.append_nil] at this
    · exact (hs secondAt p hp target htarget).append_right passes

/-- A jump of an expression's code goes to a boundary of that code. -/
theorem row_targets (e : Expr) (base : Int) : ∀ c ∈ e.row base, c.IsJump → ∃ before after,
    e.row base = before ++ after ∧ c.cells[2]? = some (base + (cellsOf before).length) := by
  intro c hc hjump
  obtain ⟨p, hp, hmem⟩ := mem_row hc
  obtain ⟨target, htarget, hcell, -⟩ := p.jump c hmem hjump
  obtain ⟨before, after, hpieces, hbefore⟩ := e.pieces_land base p hp target htarget
  refine ⟨before.flatMap Piece.row, after.flatMap Piece.row, ?_, ?_⟩
  · rw [row, hpieces, List.flatMap_append]
  · rw [hcell, hbefore, cellsOf_pieces]

/-- The code of an expression is well formed, wherever it stands. -/
theorem wellFormed_code (e : Expr) (base : Int) : WellFormed base (e.code base) := by
  rw [← cellsOf_row]
  refine wellFormed_row (e.legal_row base) (fun c hc hjump => ?_) (e.row_targets base)
  obtain ⟨p, -, hp⟩ := mem_row hc
  obtain ⟨-, -, -, absolute⟩ := p.jump c hp hjump
  exact absolute

/-! ### Code at another address -/

theorem pieces_moved (e : Expr) (base distance : Int) :
    e.pieces (base + distance) = (e.pieces base).map (Piece.moved distance) := by
  have later (base : Int) (k : Int) : base + distance + k = base + k + distance := by omega
  induction e generalizing base with
  | const c => rfl
  | input => rfl
  | binary op left right hl hr =>
    simp only [pieces, later, hl, hr, List.map_append, List.map_cons, List.map_nil, Piece.moved]
  | select condition first second hc hf hs =>
    simp only [pieces, later, hc, hf, hs, List.map_append, List.map_cons, Piece.moved]

/-- At another address the code has the same instructions, with the targets moved. -/
theorem row_moved (e : Expr) (base distance : Int) :
    e.row (base + distance) = (e.row base).map (Content.moved distance) := by
  rw [row, row, pieces_moved, List.flatMap_map, List.map_flatMap]
  congr 1
  funext p
  exact p.row_moved distance

theorem relocated_code (e : Expr) (base base' : Int) :
    Relocated (base' - base) (e.code base) (e.code base') := by
  have hbase : base' = base + (base' - base) := by omega
  have hmoved : e.code base' = cellsOf ((e.row base).map (Content.moved (base' - base))) := by
    rw [← row_moved, ← hbase, cellsOf_row]
  rw [hmoved, ← cellsOf_row]
  exact relocated_row (e.legal_row base) _

/-! ### The listing of a program -/

/-- The halt that ends a program. -/
def halts : Content := .instruction Opcode.halt.code .halt [] []

/-- The instructions of a program before its halt. -/
def programRow (e : Expr) : List Content :=
  moves (2 + (e.code 2).length + 3) :: e.row 2 ++ [.instruction outputTop .output [.relative] [-1]]

theorem cellsOf_programRow (e : Expr) : cellsOf (e.programRow ++ [halts]) = e.program := by
  rw [programRow, List.append_assoc, List.cons_append, cellsOf_cons, cellsOf_append, cellsOf_row]
  rfl

theorem legal_programRow (e : Expr) : ∀ c ∈ e.programRow ++ [halts], c.Legal := by
  have hhalts : halts.Legal := .instruction rfl rfl nofun
  have houtput : (Content.instruction outputTop .output [.relative] [-1]).Legal :=
    .instruction (Word.split_of_eq outputTop_eq (by decide) rfl) rfl (by decide)
  have hrow : ∀ c ∈ e.programRow, c.Legal := by
    rw [programRow, List.forall_mem_append, List.forall_mem_cons]
    exact ⟨⟨legal_moves _, e.legal_row 2⟩, List.forall_mem_singleton.2 houtput⟩
  exact List.forall_mem_append.2 ⟨hrow, List.forall_mem_singleton.2 hhalts⟩

theorem programRow_no_halt (e : Expr) : ∀ c ∈ e.programRow, c.operation? ≠ some .halt := by
  have hrow : ∀ c ∈ e.row 2, c.operation? ≠ some .halt := by
    intro c hc
    obtain ⟨p, -, hp⟩ := mem_row hc
    exact p.no_halt c hp
  rw [programRow, List.forall_mem_append, List.forall_mem_cons]
  exact ⟨⟨nofun, hrow⟩, List.forall_mem_singleton.2 nofun⟩

theorem text_halts (offset : Nat) :
    (⟨offset, halts⟩ : Line).text = s!"{Text.alignRight 5 (toString offset)}: HALT" := by
  show Text.alignRight 5 (toString offset) ++ ": " ++ "HALT" = _ ++ ": HALT"
  rw [String.append_assoc]
  rfl

theorem text_data (offset : Nat) (word : Int) : (⟨offset, .data word⟩ : Line).text =
    s!"{Text.alignRight 5 (toString offset)}: DATA {word}" := by
  have hname : ": " ++ ("DATA " ++ toString word) = ": DATA " ++ toString word := by
    rw [← String.append_assoc]
    rfl
  show Text.alignRight 5 (toString offset) ++ ": " ++ ("DATA " ++ toString word) =
    _ ++ ": DATA " ++ toString word
  rw [String.append_assoc, hname, String.append_assoc]
  rfl

/-- What comes to the same as a halt is a halt. -/
theorem operation?_halt {c : Content} (h : c.meaning = halts.meaning) :
    c.operation? = some .halt := by
  cases c with
  | data => cases h
  | instruction word op modes literals =>
    have hop := congrArg Prod.fst (Sum.inr.inj h)
    exact congrArg some hop

theorem operation?_data {c : Content} {word : Int}
    (h : c.meaning = (Content.data word).meaning) : c.operation? = none := by
  cases c with
  | data => rfl
  | instruction => cases h

/-- The listing of a program shows its instructions, none of which is listed as a datum or as a
halt, and then the halt. -/
theorem ofProgram_program (e : Expr) : ∃ texts, ofProgram e.program =
      texts ++ [s!"{Text.alignRight 5 (toString (e.program.length - 1))}: HALT"] ∧
    (∀ offset : Nat, s!"{Text.alignRight 5 (toString offset)}: HALT" ∉ texts) ∧
    ∀ (offset : Nat) (word : Int),
      s!"{Text.alignRight 5 (toString offset)}: DATA {word}" ∉ ofProgram e.program := by
  have hlines : lines 0 e.program = placed 0 (e.programRow ++ [halts]) := by
    rw [← cellsOf_programRow, lines_cellsOf e.legal_programRow]
  have hlast : placed 0 (e.programRow ++ [halts]) =
      placed 0 e.programRow ++ [⟨e.program.length - 1, halts⟩] := by
    have hoffset : 0 + (cellsOf e.programRow).length = e.program.length - 1 := by
      rw [← cellsOf_programRow, cellsOf_append, List.length_append, Nat.zero_add]
      rfl
    rw [placed_append, hoffset]
    rfl
  refine ⟨(placed 0 e.programRow).map Line.text, ?_, fun offset h => ?_, fun offset word h => ?_⟩
  · rw [ofProgram, hlines, hlast, List.map_append, List.map_singleton, text_halts]
  · obtain ⟨l, hl, htext⟩ := List.mem_map.1 h
    obtain ⟨before, after, hrow, -⟩ := mem_placed.1 hl
    have hno := e.programRow_no_halt l.content (hrow ▸ List.mem_append_right _ List.mem_cons_self)
    rw [← text_halts, Line.text_inj] at htext
    exact hno (operation?_halt htext.2)
  · rw [ofProgram, hlines] at h
    obtain ⟨l, hl, htext⟩ := List.mem_map.1 h
    obtain ⟨before, after, hrow, -⟩ := mem_placed.1 hl
    have hlegal := e.legal_programRow l.content
      (hrow ▸ List.mem_append_right _ List.mem_cons_self)
    rw [← text_data, Line.text_inj] at htext
    have hnone := operation?_data htext.2
    generalize l.content = c at hlegal hnone
    cases hlegal
    cases hnone

/-- The code of an expression is written with no place left open. Wherever it stands, it is whole
and legal instructions whose jumps go to their boundaries, and at another address it is the same
but for the targets of the jumps. So no line of a program's listing is data, and only the last
is a halt. -/
theorem code_relocates (e : Expr) (base base' : Int) :
    e.emit base = (e.code base).map some ∧
      WellFormed base (e.code base) ∧
      Relocated (base' - base) (e.code base) (e.code base') ∧
      (∃ texts, ofProgram e.program =
          texts ++ [s!"{Text.alignRight 5 (toString (e.program.length - 1))}: HALT"] ∧
        ∀ offset : Nat, s!"{Text.alignRight 5 (toString offset)}: HALT" ∉ texts) ∧
      ∀ (offset : Nat) (word : Int),
        s!"{Text.alignRight 5 (toString offset)}: DATA {word}" ∉ ofProgram e.program := by
  obtain ⟨texts, hlisting, hhalt, hdata⟩ := e.ofProgram_program
  exact ⟨e.emit_eq base, e.wellFormed_code base, e.relocated_code base base',
    ⟨texts, hlisting, hhalt⟩, hdata⟩

/-- A choice between two constants that are words of instructions, at address zero and a hundred
cells further on. The jump to its second branch is moved, and the constants are not. -/
theorem code_relocates_select :
    let e := select input (const ⟨1105, by decide⟩) (const ⟨99, by decide⟩)
    TargetAt (e.code 0) 8 ∧ (e.code 0)[8]? = some 18 ∧ (e.code 100)[8]? = some 118 ∧
      ¬ TargetAt (e.code 0) 19 ∧ (e.code 0)[19]? = some 99 ∧ (e.code 100)[19]? = some 99 := by
  intro e
  obtain ⟨-, -, relocated, -, -⟩ := code_relocates e 0 100
  have htarget : TargetAt (e.code 0) 8 :=
    ⟨⟨6, .instruction 1206 .jumpIfFalse [.relative, .immediate] [0, 18]⟩, by decide +kernel,
      .inr rfl, rfl⟩
  have hconstant : ¬ TargetAt (e.code 0) 19 := by
    rintro ⟨l, hl, hjump, hoffset⟩
    have hnone : ∀ l ∈ lines 0 (e.code 0), l.content.IsJump → 19 ≠ l.offset + 2 := by decide +kernel
    exact hnone l hl hjump hoffset
  exact ⟨htarget, rfl, relocated.moved 8 htarget, hconstant, rfl, relocated.kept 19 hconstant⟩

end Expr
end Intcode
