/-
# The code of an expression

An expression is compiled to code that pushes its value on a stack. The
relative base is the stack pointer: the cell just below it is the top. The
code of an operation is the code of its operands followed by one instruction
that works on the two top cells; a choice jumps over the branch that it does
not take.

The program of an expression sets the stack up in the cells just past its own
end, gives out the value and halts.

Key definitions: `Expr.code`, `Expr.program`.
Key theorem: `Expr.length_code`.
-/
import Intcode.Expr

namespace Intcode.Expr

/-- The word that writes the sum of two literals above the top. -/
def pushConstant : Int := 21101

/-- The word that writes the next input above the top. -/
def pushInput : Int := 203

/-- The word that moves the stack pointer. -/
def moveStack : Int := 109

/-- The word that gives out a cell of the stack. -/
def outputTop : Int := 204

/-- The word that jumps to a literal if the cell above the top is zero. -/
def jumpIfZero : Int := 1206

/-- The word that jumps to a literal if a literal is not zero. -/
def jumpAlways : Int := 1105

/-- The word that replaces the two top cells by the value of an operation on
them. -/
def binaryTop (op : BinaryOp) : Int := 22200 + op.opcode.code

theorem pushConstant_eq : pushConstant = Word.ofModes .add [.immediate, .immediate, .relative] := by
  decide

theorem pushInput_eq : pushInput = Word.ofModes .input [.relative] := by decide

theorem moveStack_eq : moveStack = Word.ofModes .adjustRelativeBase [.immediate] := by decide

theorem outputTop_eq : outputTop = Word.ofModes .output [.relative] := by decide

theorem jumpIfZero_eq : jumpIfZero = Word.ofModes .jumpIfFalse [.relative, .immediate] := by decide

theorem jumpAlways_eq : jumpAlways = Word.ofModes .jumpIfTrue [.immediate, .immediate] := by decide

theorem binaryTop_eq (op : BinaryOp) :
    binaryTop op = Word.ofModes op.opcode [.relative, .relative, .relative] := by
  cases op <;> decide

/-- The code that pushes the value of an expression, for the address its
first cell will have. -/
def code : Expr → Int → List Int
  | const c, _ => [pushConstant, c.val, 0, 0, moveStack, 1]
  | input, _ => [pushInput, 0, moveStack, 1]
  | binary op left right, base =>
    let l := left.code base
    let r := right.code (base + l.length)
    l ++ r ++ [binaryTop op, -2, -1, -2, moveStack, -1]
  | select condition first second, base =>
    let c := condition.code base
    let firstAt := base + c.length + 5
    let f := first.code firstAt
    let secondAt := firstAt + f.length + 3
    let s := second.code secondAt
    c ++ [moveStack, -1, jumpIfZero, 0, secondAt] ++ f ++ [jumpAlways, 1, secondAt + s.length] ++ s

/-- The number of cells of an expression's code. -/
def codeLength : Expr → Nat
  | const _ => 6
  | input => 4
  | binary _ left right => left.codeLength + right.codeLength + 6
  | select condition first second =>
    condition.codeLength + 5 + first.codeLength + 3 + second.codeLength

/-- The length of the code does not depend on where it stands. -/
theorem length_code (e : Expr) (base : Int) : (e.code base).length = e.codeLength := by
  induction e generalizing base with
  | const c => rfl
  | input => rfl
  | binary op left right hl hr =>
    simp only [code, codeLength, List.length_append, hl, hr, List.length_cons, List.length_nil]
  | select condition first second hc hf hs =>
    simp only [code, codeLength, List.length_append, hc, hf, hs, List.length_cons, List.length_nil]

/-- The program that gives out the value of an expression and halts. -/
def program (e : Expr) : List Int :=
  let body := e.code 2
  moveStack :: (2 + body.length + 3 : Int) :: body ++ [outputTop, -1, Opcode.halt.code]

theorem length_program (e : Expr) : e.program.length = e.codeLength + 5 := by
  simp [program, length_code]

end Intcode.Expr
