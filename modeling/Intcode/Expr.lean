/-
# Expressions

Arithmetic and comparison over 32-bit constants and the inputs of a program,
with a choice that evaluates only one of its branches. Evaluation reads the
inputs from left to right and refuses a sum or product that does not fit a
cell.

Key definitions: `Constant`, `BinaryOp`, `Expr`, `Expr.eval`, `Expr.evaluate`,
`Expr.knownOutputs`, `Expr.maxInputs`, `Expr.height`.
-/
import Intcode.Word
import Intcode.Instruction

namespace Intcode

/-- The least constant of an expression. -/
def constantMin : Int := -2147483648

/-- The greatest constant of an expression. -/
def constantMax : Int := 2147483647

/-- A constant is a signed 32-bit integer. -/
abbrev Constant := { n : Int // constantMin ≤ n ∧ n ≤ constantMax }

namespace Constant

/-- An integer as a constant. -/
def ofInt (n : Int) : Except Fault Constant :=
  if h : constantMin ≤ n ∧ n ≤ constantMax then .ok ⟨n, h⟩ else .error (.constantRange n)

/-- A value offered for a constant. -/
def ofDatum : Datum → Except Fault Constant
  | .int n => ofInt n
  | .truth b => ofInt (if b then 1 else 0)
  | d => .error (.constantType d)

theorem inCell (c : Constant) : InCell c.val := by
  have h := c.property
  unfold constantMin constantMax at h
  rw [inCell_iff]
  omega

theorem ofInt_val (c : Constant) : ofInt c.val = .ok c := by
  simp [ofInt, c.property]

end Constant

/-- The operations on two values. -/
inductive BinaryOp where
  | add
  | multiply
  | lessThan
  | equals
  deriving DecidableEq, Repr

namespace BinaryOp

/-- The operations in order. -/
def all : List BinaryOp := [add, multiply, lessThan, equals]

/-- The machine's operation for an operation on two values. -/
def opcode : BinaryOp → Opcode
  | add => .add
  | multiply => .multiply
  | lessThan => .lessThan
  | equals => .equals

/-- A sum or product, if it fits a cell. -/
def checked (n : Int) : Except Fault Int :=
  if InCell n then .ok n else .error (.intermediateOverflow n)

/-- The value of an operation. -/
def apply (op : BinaryOp) (a b : Int) : Except Fault Int :=
  match op with
  | add => checked (a + b)
  | multiply => checked (a * b)
  | lessThan => .ok (truthCell (a < b))
  | equals => .ok (truthCell (a = b))

theorem mem_all (op : BinaryOp) : op ∈ all := by cases op <;> decide

end BinaryOp

/-- An expression. -/
inductive Expr where
  | const (c : Constant)
  /-- The next input. -/
  | input
  | binary (op : BinaryOp) (left right : Expr)
  /-- The first branch if the condition is not zero, else the second. -/
  | select (condition first second : Expr)
  deriving DecidableEq, Repr

namespace Expr

/-- The value of an expression and the inputs it leaves unread. -/
def eval : Expr → List Int → Except Fault (Int × List Int)
  | const c, xs => .ok (c.val, xs)
  | input, [] => .error .readPastInputs
  | input, x :: xs => .ok (x, xs)
  | binary op left right, xs => do
    let (a, xs) ← left.eval xs
    let (b, xs) ← right.eval xs
    return (← op.apply a b, xs)
  | select condition first second, xs => do
    let (v, xs) ← condition.eval xs
    if v ≠ 0 then first.eval xs else second.eval xs

/-- The value of an expression. -/
def evaluate (e : Expr) (inputs : List Int) : Except Fault Int := (e.eval inputs).map (·.1)

/-- The outputs that a program is known to give for a value: that value, or
nothing known if it is too large. -/
def outputsOf (value : Except Fault Int) : Except Fault (Option (List Int)) :=
  match value with
  | .ok v => .ok (some [v])
  | .error f => if f.kind = .cellOverflow then .ok none else .error f

/-- The outputs of an expression's program, if they are known. -/
def knownOutputs (e : Expr) (inputs : List Int) : Except Fault (Option (List Int)) :=
  outputsOf (e.evaluate inputs)

/-- The most inputs that an expression can read. -/
def maxInputs : Expr → Nat
  | const _ => 0
  | input => 1
  | binary _ left right => left.maxInputs + right.maxInputs
  | select condition first second =>
    condition.maxInputs + max first.maxInputs second.maxInputs

/-- The height of an expression; constants and inputs have height zero. -/
def height : Expr → Nat
  | const _ | input => 0
  | binary _ left right => max left.height right.height + 1
  | select condition first second => max condition.height (max first.height second.height) + 1

end Expr
end Intcode
