/-
# Expressions read back from their code

The code of an expression is a row of pieces, each of which begins with a word of its
own, so the cells tell the pieces (`Expr.Piece.cells_inj`). The pieces alone do not tell
the expression: an operation behind the second branch of a choice could belong to the
branch or take the choice as its operand. What decides is where the branch ends, which
the jump over it says.

So the pieces are read with a stack of what is pending, values and choices whose
branches are not read yet, and a choice is closed at the address that its jump goes to
(`Expr.push`). The invariant of the reading is that no choice that is open ends within
the code being read (`Expr.EndsFrom`). Read so, the pieces of an expression give the
expression back (`Expr.read_pieces`), and no two expressions have the same code.

Key definitions: `Expr.Piece`, `Expr.pieces`, `Expr.Pending`, `Expr.push`, `Expr.read`,
`Expr.ofPieces?`.
Key theorems: `Expr.code_pieces`, `Expr.read_pieces`, `Expr.ofPieces?_pieces`,
`Expr.code_inj`, `Expr.program_inj`.
-/
import Intcode.Expr.Code

namespace Intcode.Expr

/-! ### Pieces -/

/-- A piece of code. -/
inductive Piece where
  /-- A constant is pushed. -/
  | constant (c : Constant)
  /-- The next input is pushed. -/
  | input
  /-- The two top cells are replaced by the value of an operation on them. -/
  | binary (op : BinaryOp)
  /-- The top is taken off, and if it is zero the second branch of a choice is gone to. -/
  | test (secondAt : Int)
  /-- The end of the choice is gone to from its first branch. -/
  | leave (endAt : Int)

/-- The cells of a piece. -/
def Piece.cells : Piece → List Int
  | constant c => [pushConstant, c.val, 0, 0, moveStack, 1]
  | input => [pushInput, 0, moveStack, 1]
  | binary op => [binaryTop op, -2, -1, -2, moveStack, -1]
  | test secondAt => [moveStack, -1, jumpIfZero, 0, secondAt]
  | leave endAt => [jumpAlways, 1, endAt]

/-- The pieces of the code of an expression, for the address of its first cell. -/
def pieces : Expr → Int → List Piece
  | const c, _ => [.constant c]
  | input, _ => [.input]
  | binary op left right, base =>
    left.pieces base ++ (right.pieces (base + left.codeLength) ++ [.binary op])
  | select condition first second, base =>
    let firstAt := base + condition.codeLength + 5
    let secondAt := firstAt + first.codeLength + 3
    condition.pieces base ++ .test secondAt :: (first.pieces firstAt ++
      .leave (secondAt + second.codeLength) :: second.pieces secondAt)

theorem code_pieces (e : Expr) (base : Int) : e.code base = (e.pieces base).flatMap Piece.cells := by
  induction e generalizing base with
  | const c => rfl
  | input => rfl
  | binary op left right hl hr =>
    simp only [code, pieces, length_code, List.flatMap_append, ← hl, ← hr, List.append_assoc,
      List.flatMap_singleton, Piece.cells]
  | select condition first second hc hf hs =>
    simp only [code, pieces, length_code, List.flatMap_append, List.flatMap_cons, ← hc, ← hf, ← hs,
      List.append_assoc, Piece.cells]

theorem binaryTop_inj {op op' : BinaryOp} : binaryTop op = binaryTop op' ↔ op = op' := by
  cases op <;> cases op' <;> decide

/-- The word of an operation begins no other piece. -/
theorem binaryTop_ne (op : BinaryOp) : binaryTop op ≠ pushConstant ∧ binaryTop op ≠ pushInput ∧
    binaryTop op ≠ moveStack ∧ binaryTop op ≠ jumpAlways := by
  cases op <;> decide

/-- The first piece of a row of cells is told by the cells, and so is what follows it. -/
theorem Piece.cells_inj {p q : Piece} {xs ys : List Int} (h : p.cells ++ xs = q.cells ++ ys) :
    p = q ∧ xs = ys := by
  cases p with
  | constant c => cases q with
    | constant c' =>
      simp only [cells, List.cons_append, List.nil_append, List.cons.injEq, true_and] at h
      exact ⟨congrArg _ (Subtype.ext h.1), h.2⟩
    | binary op => exact absurd (List.head_eq_of_cons_eq h).symm (binaryTop_ne op).1
    | input | test | leave => cases List.head_eq_of_cons_eq h
  | input => cases q with
    | input => simpa [cells] using h
    | binary op => exact absurd (List.head_eq_of_cons_eq h).symm (binaryTop_ne op).2.1
    | constant | test | leave => cases List.head_eq_of_cons_eq h
  | binary op => cases q with
    | binary op' => simpa [cells, binaryTop_inj] using h
    | constant => exact absurd (List.head_eq_of_cons_eq h) (binaryTop_ne op).1
    | input => exact absurd (List.head_eq_of_cons_eq h) (binaryTop_ne op).2.1
    | test => exact absurd (List.head_eq_of_cons_eq h) (binaryTop_ne op).2.2.1
    | leave => exact absurd (List.head_eq_of_cons_eq h) (binaryTop_ne op).2.2.2
  | test secondAt => cases q with
    | test secondAt' => simpa [cells] using h
    | binary op => exact absurd (List.head_eq_of_cons_eq h).symm (binaryTop_ne op).2.2.1
    | constant | input | leave => cases List.head_eq_of_cons_eq h
  | leave endAt => cases q with
    | leave endAt' => simpa [cells] using h
    | binary op => exact absurd (List.head_eq_of_cons_eq h).symm (binaryTop_ne op).2.2.2
    | constant | input | test => cases List.head_eq_of_cons_eq h

theorem Piece.cells_ne_nil (p : Piece) : p.cells ≠ [] := by cases p <;> exact List.cons_ne_nil _ _

/-- Pieces are told by their cells. -/
theorem flatMap_cells_inj {ps qs : List Piece} (h : ps.flatMap Piece.cells = qs.flatMap Piece.cells) :
    ps = qs := by
  induction ps generalizing qs with
  | nil =>
    cases qs with
    | nil => rfl
    | cons q qs => exact absurd (List.append_eq_nil_iff.1 h.symm).1 q.cells_ne_nil
  | cons p ps ih =>
    cases qs with
    | nil => exact absurd (List.append_eq_nil_iff.1 h).1 p.cells_ne_nil
    | cons q qs =>
      rw [List.flatMap_cons, List.flatMap_cons] at h
      obtain ⟨rfl, hrest⟩ := Piece.cells_inj h
      rw [ih hrest]

/-! ### Reading -/

/-- What is pending while pieces are read. -/
inductive Pending where
  /-- An expression whose value is on the stack. -/
  | value (e : Expr)
  /-- A choice whose first branch is being read. -/
  | first (condition : Expr)
  /-- A choice whose second branch is being read, with the address that it ends at. -/
  | second (condition first : Expr) (endAt : Int)

/-- An expression whose code ends at an address is put on what is pending. If a choice
ends there too, the expression is its second branch, and the choice is put there in its
place. -/
def push (here : Int) (e : Expr) : List Pending → List Pending
  | .second condition first endAt :: pending =>
    if here = endAt then push here (select condition first e) pending
    else .value e :: .second condition first endAt :: pending
  | pending => .value e :: pending

/-- What is pending after a piece that ends at an address. -/
def readPiece (here : Int) : Piece → List Pending → Option (List Pending)
  | .constant c, pending => some (push here (const c) pending)
  | .input, pending => some (push here input pending)
  | .binary op, .value right :: .value left :: pending =>
    some (push here (binary op left right) pending)
  | .test _, .value condition :: pending => some (.first condition :: pending)
  | .leave endAt, .value first :: .first condition :: pending =>
    some (.second condition first endAt :: pending)
  | _, _ => none

/-- What is pending after pieces, the first of which begins at an address. -/
def read (here : Int) (pending : List Pending) : List Piece → Option (List Pending)
  | [] => some pending
  | p :: ps => do
    let pending ← readPiece (here + p.cells.length) p pending
    read (here + p.cells.length) pending ps

/-- The expression whose code consists of pieces, if it is one. -/
def ofPieces? (base : Int) (ps : List Piece) : Option Expr :=
  match read base [] ps with
  | some [.value e] => some e
  | _ => none

/-- No choice that is open ends before an address. Only the innermost can end where code
does that is being read. -/
def EndsFrom (stop : Int) : List Pending → Prop
  | .second _ _ endAt :: _ => stop ≤ endAt
  | _ => True

section Read

variable {here stop : Int} {pending : List Pending} {e : Expr}

theorem EndsFrom.mono {stop' : Int} (h : EndsFrom stop pending) (hle : stop' ≤ stop) :
    EndsFrom stop' pending := by
  unfold EndsFrom at h ⊢
  split
  · exact Int.le_trans hle h
  · trivial

/-- Before any open choice ends, an expression is only put on top. -/
theorem push_before (h : EndsFrom stop pending) (hlt : here < stop) :
    push here e pending = .value e :: pending := by
  unfold push
  split
  · rw [if_neg]
    intro hend
    exact absurd (hend ▸ hlt) (Int.not_lt.2 h)
  · rfl

/-- The pieces of an expression put it on what is pending. -/
theorem read_pieces (e : Expr) (base : Int) (rest : List Piece)
    (h : EndsFrom (base + e.codeLength) pending) :
    read base pending (e.pieces base ++ rest) =
      read (base + e.codeLength) (push (base + e.codeLength) e pending) rest := by
  -- the induction is over any pending stack, as the parts of an expression are read on
  -- top of the parts before them
  induction e generalizing base pending rest with
  | const c => rfl
  | input => rfl
  | binary op left right hl hr =>
    let rightAt : Int := base + left.codeLength
    let opAt : Int := rightAt + right.codeLength
    have hend : base + (binary op left right).codeLength = opAt + 6 := by
      simp only [codeLength, opAt, rightAt]
      omega
    rw [hend] at h ⊢
    have hleft : push rightAt left pending = .value left :: pending := push_before h (by omega)
    calc read base pending ((binary op left right).pieces base ++ rest)
        = read base pending (left.pieces base ++ (right.pieces rightAt ++ .binary op :: rest)) := by
          simp only [pieces, rightAt, List.append_assoc, List.singleton_append]
      _ = read rightAt (.value left :: pending) (right.pieces rightAt ++ .binary op :: rest) := by
          rw [hl base _ (h.mono (by omega)), hleft]
      _ = read opAt (.value right :: .value left :: pending) (.binary op :: rest) :=
          hr rightAt _ (show EndsFrom opAt (.value left :: pending) from trivial)
      _ = read (opAt + 6) (push (opAt + 6) (binary op left right) pending) rest := rfl
  | select condition first second hc hf hs =>
    let testAt : Int := base + condition.codeLength
    let firstAt : Int := testAt + 5
    let leaveAt : Int := firstAt + first.codeLength
    let secondAt : Int := leaveAt + 3
    let endAt : Int := secondAt + second.codeLength
    have hend : base + (select condition first second).codeLength = endAt := by
      simp only [codeLength, endAt, secondAt, leaveAt, firstAt, testAt]
      omega
    rw [hend] at h ⊢
    have hcondition : push testAt condition pending = .value condition :: pending :=
      push_before h (by omega)
    calc read base pending ((select condition first second).pieces base ++ rest)
        = read base pending (condition.pieces base ++ .test secondAt ::
            (first.pieces firstAt ++ .leave endAt :: (second.pieces secondAt ++ rest))) := by
          simp only [pieces, endAt, secondAt, leaveAt, firstAt, testAt, List.append_assoc,
            List.cons_append]
      _ = read testAt (.value condition :: pending) (.test secondAt ::
            (first.pieces firstAt ++ .leave endAt :: (second.pieces secondAt ++ rest))) := by
          rw [hc base _ (h.mono (by omega)), hcondition]
      _ = read firstAt (.first condition :: pending)
            (first.pieces firstAt ++ .leave endAt :: (second.pieces secondAt ++ rest)) := rfl
      _ = read leaveAt (.value first :: .first condition :: pending)
            (.leave endAt :: (second.pieces secondAt ++ rest)) :=
          hf firstAt _ (show EndsFrom leaveAt (.first condition :: pending) from trivial)
      _ = read secondAt (.second condition first endAt :: pending)
            (second.pieces secondAt ++ rest) := rfl
      _ = read endAt (push endAt second (.second condition first endAt :: pending)) rest :=
          hs secondAt rest (Int.le_refl endAt)
      _ = read endAt (push endAt (select condition first second) pending) rest := by
          rw [push, if_pos rfl]

/-- The pieces of an expression are read as the expression. -/
theorem ofPieces?_pieces (e : Expr) (base : Int) : ofPieces? base (e.pieces base) = some e := by
  have h := @read_pieces [] e base [] trivial
  rw [List.append_nil] at h
  rw [ofPieces?, h]
  rfl

end Read

/-! ### Expressions told by their code -/

variable {e e' : Expr}

theorem code_inj {base : Int} : e.code base = e'.code base ↔ e = e' := by
  constructor
  · intro h
    rw [code_pieces, code_pieces] at h
    have hpieces : e.pieces base = e'.pieces base := flatMap_cells_inj h
    have hread := e.ofPieces?_pieces base
    rw [hpieces, ofPieces?_pieces] at hread
    exact (Option.some.inj hread).symm
  · rintro rfl
    rfl

theorem program_inj : e.program = e'.program ↔ e = e' := by
  constructor
  · intro h
    have hbody : e.code 2 = e'.code 2 :=
      List.append_cancel_right (List.tail_eq_of_cons_eq (List.tail_eq_of_cons_eq h))
    exact code_inj.1 hbody
  · rintro rfl
    rfl

end Intcode.Expr
