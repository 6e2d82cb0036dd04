/-
# Systematic cases

Cases that cover a bounded space: the programs of all small expressions, one
program for each opcode with each legal choice of modes, programs whose first
word is malformed, and programs that reach a negative address. The suite puts
them together without a repetition.

Key definitions: `Case.ofExpressions`, `Case.ofModes`, `Case.malformed`,
`Case.negative`, `Case.distinct`, `Case.suite`.
-/
import Std.Data.HashSet
import Intcode.Enumerate.Expressions
import Intcode.Fuzz.Case

namespace Intcode.Case

/-! ### Expressions -/

/-- The inputs 1, 2, 3, … up to a number of them. -/
def counting (n : Nat) : List Int := (List.range n).map fun i : Nat => (i + 1 : Int)

/-- The case of an expression with as many inputs as it can read. -/
def counted (e : Expr) : Except Fault Case := ofExpr e (counting e.maxInputs)

/-- The cases of all expressions of height zero, then of all of height at
most one, and so on, up to the greatest height. -/
def ofExpressions (values : List Datum) (maxHeight : Int) : LazyList (Except Fault Case) :=
  LazyList.flatMap (fun height => (Expr.enumerateOffered values height).map (· >>= counted))
    (List.range (maxHeight + 1).toNat)

/-- A few constants for small suites. -/
def fewConstants : List Datum := [0, 1, -1, 8].map .int

/-- Constants at the bounds of what matters: truth values, a negative one, a
small one, one that looks like a halt, and the extremes. -/
def boundaryConstants : List Datum := [0, 1, -1, 8, 99, constantMax, constantMin].map .int

/-! ### Modes -/

/-- The modes that an operand may have. -/
def legalModes : OperandKind → List Mode
  | .read => [.position, .immediate, .relative]
  | .write => [.position, .relative]

/-- Every legal choice of modes for the operands of an operation; those of
the last operand change first. -/
def modeChoices : List OperandKind → List (List Mode)
  | [] => [[]]
  | kind :: kinds => (legalModes kind).flatMap fun m => (modeChoices kinds).map (m :: ·)

/-- The value that the operand of this index reads. -/
def sampleValue (index : Nat) : Int := [7, -3, 0].getD index 0

/-- The data cell for an operand: nothing for one that is written to, the
address past the instruction for a jump's target, and else its value. -/
def dataCell (op : Opcode) (past : Nat) (index : Nat) (kind : OperandKind) : Int :=
  if (op = .jumpIfTrue ∨ op = .jumpIfFalse) ∧ index = 1 then past
  else if kind = .write then 0
  else sampleValue index

/-- The literal of an operand whose data cell has the given value. -/
def literal (dataAt index : Nat) (cell : Int) : Mode → Int
  | .immediate => cell
  | .relative => index
  | .position => dataAt + index

/-- The program that carries out one instruction and then gives out its data
cells. The relative base is the address of the first of them. Both position
and relative operands name the data cell of their index. -/
def ofModes (op : Opcode) (modes : List Mode) : Case :=
  let arity := op.operands.length
  let past := 3 + arity
  let dataAt := past + 2 * arity + 1
  let cells := op.operands.zipIdx.map fun (kind, i) => dataCell op past i kind
  let literals := (cells.zip modes).zipIdx.map fun ((cell, mode), i) => literal dataAt i cell mode
  let outputs := (List.range arity).flatMap fun i : Nat => [(Opcode.output.code : Int), (dataAt + i : Int)]
  { program :=
      [109, (dataAt : Int), Word.ofModes op modes] ++ literals ++ outputs ++
        [(Opcode.halt.code : Int)] ++ cells
    inputs := if op = .input then [42] else [] }

/-- Every operation with every legal choice of modes. -/
def allModes : List Case :=
  Opcode.operations.flatMap fun op => (modeChoices op.operands).map (ofModes op)

/-! ### Malformed programs -/

/-- The program of one word and cells for operands. -/
def padded (word : Int) (inputs : List Int) : Case :=
  { program := [word, 0, 0, 0, 99], inputs }

/-- The words of an operation with immediate mode for an operand that is
written to, and position mode for those before it. -/
def immediateTargets (op : Opcode) : List Int :=
  op.operands.zipIdx.filterMap fun (kind, i) =>
    if kind = .write then some (Word.ofModes op (List.replicate i .position ++ [.immediate]))
    else none

/-- Programs whose first word is malformed: zero and negative words, unknown
opcodes, digits that are no modes, and operands that are written to in
immediate mode. -/
def malformed : List Case :=
  [0, -1, -99].map (fun word => { program := [word, 99] }) ++
  (List.range 89).map (fun i : Nat => padded (i + 10) []) ++
  (List.range 3).flatMap (fun place =>
    (List.range 7).map fun i : Nat =>
      padded (Word.encode 1 (List.replicate place 0 ++ [(i : Int) + 3])) []) ++
  Opcode.operations.flatMap fun op => (immediateTargets op).map fun word => padded word [1]

/-- Programs that reach a negative address. -/
def negative : List Case := [
  { program := [4, -1, 99] },
  { program := [204, -5, 99] },
  { program := [1101, 1, 1, -1, 99] },
  { program := [21101, 1, 1, -3, 99] },
  { program := [203, -1, 99], inputs := [5] },
  { program := [1105, 1, -7] }]

/-! ### The suite -/

/-- What makes two cases the same test. -/
def key (c : Case) : List Int × List Int := (c.program, c.inputs)

/-- The first case of each key, among those whose key has not been seen. -/
def distinct (seen : Std.HashSet (List Int × List Int)) :
    LazyList (Except Fault Case) → LazyList (Except Fault Case)
  | .nil => .nil
  | .cons (.error f) rest => .cons (.error f) fun _ => distinct seen (rest ())
  | .cons (.ok c) rest =>
    if seen.contains c.key then distinct seen (rest ())
    else .cons (.ok c) fun _ => distinct (seen.insert c.key) (rest ())

/-- All systematic cases in order. -/
def sources (maxHeight : Int) : LazyList (Except Fault Case) :=
  (ofExpressions boundaryConstants maxHeight).append fun _ =>
    LazyList.ofList ((allModes ++ malformed ++ negative).map .ok)

/-- The systematic cases without repetitions. -/
def suite (maxHeight : Int) : LazyList (Except Fault Case) := distinct {} (sources maxHeight)

end Intcode.Case
