/-
# Decoded instructions

`decode` reads the instruction at a pointer: the word, and then operand by
operand the literal and, for an operand that is read through an address, the
cell at that address. An operand that is written to stays an address.
Decoding needs nothing of a memory but a way to read it, which it is given.

`Instruction.effect` says what an instruction does, by one of six effects.

Key definitions: `Instruction`, `decode`, `Effect`, `Instruction.effect`.
-/
import Intcode.Access
import Intcode.Word

namespace Intcode

/-- An instruction with its operands resolved: values where it reads, an
address where it writes. -/
inductive Instruction where
  | add (a b dst : Int)
  | multiply (a b dst : Int)
  | input (dst : Int)
  | output (value : Int)
  | jumpIfTrue (condition target : Int)
  | jumpIfFalse (condition target : Int)
  | lessThan (a b dst : Int)
  | equals (a b dst : Int)
  | adjustRelativeBase (offset : Int)
  | halt
  deriving DecidableEq, Repr

namespace Instruction

/-- The operation of an instruction. -/
def opcode : Instruction → Opcode
  | add .. => .add
  | multiply .. => .multiply
  | input _ => .input
  | output _ => .output
  | jumpIfTrue .. => .jumpIfTrue
  | jumpIfFalse .. => .jumpIfFalse
  | lessThan .. => .lessThan
  | equals .. => .equals
  | adjustRelativeBase _ => .adjustRelativeBase
  | halt => .halt

/-- The name of an instruction. -/
def name : Instruction → String
  | add .. => "Add"
  | multiply .. => "Multiply"
  | input _ => "Input"
  | output _ => "Output"
  | jumpIfTrue .. => "JumpIfTrue"
  | jumpIfFalse .. => "JumpIfFalse"
  | lessThan .. => "LessThan"
  | equals .. => "Equals"
  | adjustRelativeBase _ => "AdjustRelativeBase"
  | halt => "Halt"

/-- The operands of an instruction, each with its name. -/
def fields : Instruction → List (String × Int)
  | add a b dst | multiply a b dst | lessThan a b dst | equals a b dst =>
    [("a", a), ("b", b), ("dst", dst)]
  | input dst => [("dst", dst)]
  | output value => [("value", value)]
  | jumpIfTrue condition target | jumpIfFalse condition target =>
    [("condition", condition), ("target", target)]
  | adjustRelativeBase offset => [("offset", offset)]
  | halt => []

/-- An instruction written with its operands. -/
def describe (i : Instruction) : String :=
  let operands := String.intercalate ", " (i.fields.map fun f => s!"{f.1}={f.2}")
  s!"{i.name}({operands})"

theorem length_fields (i : Instruction) : i.fields.length = i.opcode.operands.length := by
  cases i <;> rfl

end Instruction

section Decode

variable {σ : Type} (read : Int → Access σ Int) (base : Int)

/-- The value of an operand that is read, from its mode and the address of
its literal. -/
@[specialize]
def operandValue (mode : Mode) (literalAt : Int) : Access σ Int := do
  let literal ← read literalAt
  match mode with
  | .position => read literal
  | .immediate => pure literal
  | .relative => read (base + literal)

/-- The address named by an operand that is written to, the operand of the
given index of the word at the pointer. -/
@[specialize]
def operandTarget (word pointer : Int) (index : Nat) (mode : Mode) : Access σ Int := do
  let literal ← read (pointer + 1 + index)
  let checked (address : Int) : Access σ Int :=
    if address < 0 then Access.fail (.negativeTarget address word pointer) else pure address
  match mode with
  | .position => checked literal
  | .immediate => Access.fail (.immediateTarget (index + 1) word pointer)
  | .relative => checked (base + literal)

/-- The instruction of an operation, its operands resolved from left to
right. -/
@[specialize]
def resolve (value target : Nat → Access σ Int) : Opcode → Access σ Instruction
  | .add => do return .add (← value 0) (← value 1) (← target 2)
  | .multiply => do return .multiply (← value 0) (← value 1) (← target 2)
  | .input => do return .input (← target 0)
  | .output => do return .output (← value 0)
  | .jumpIfTrue => do return .jumpIfTrue (← value 0) (← value 1)
  | .jumpIfFalse => do return .jumpIfFalse (← value 0) (← value 1)
  | .lessThan => do return .lessThan (← value 0) (← value 1) (← target 2)
  | .equals => do return .equals (← value 0) (← value 1) (← target 2)
  | .adjustRelativeBase => do return .adjustRelativeBase (← value 0)
  | .halt => pure .halt

/-- The instruction at the pointer and the address just past it. -/
@[specialize]
def decode (pointer : Int) : Access σ (Instruction × Int) := do
  let word ← read pointer
  let (op, modes) ← Access.lift (Word.split word)
  let instruction ← resolve
    (fun i => operandValue read base (Word.modeAt modes i) (pointer + 1 + i))
    (fun i => operandTarget read base word pointer i (Word.modeAt modes i)) op
  return (instruction, pointer + 1 + op.operands.length)

end Decode

/-- What an instruction does. -/
inductive Effect where
  /-- Puts a value at an address. -/
  | store (dst value : Int)
  /-- Puts the next input at an address. -/
  | take (dst : Int)
  /-- Gives out a value. -/
  | emit (value : Int)
  /-- Goes to an address. -/
  | goto (target : Int)
  /-- Moves the relative base. -/
  | rebase (offset : Int)
  /-- Ends the program. -/
  | halt
  deriving DecidableEq, Repr

/-- One for a true comparison and zero for a false one. -/
def truthCell (p : Prop) [Decidable p] : Int := if p then 1 else 0

/-- The effect of an instruction; `next` is the address just past it. -/
def Instruction.effect (next : Int) : Instruction → Effect
  | add a b dst => .store dst (a + b)
  | multiply a b dst => .store dst (a * b)
  | input dst => .take dst
  | output value => .emit value
  | jumpIfTrue condition target => .goto (if condition ≠ 0 then target else next)
  | jumpIfFalse condition target => .goto (if condition = 0 then target else next)
  | lessThan a b dst => .store dst (truthCell (a < b))
  | equals a b dst => .store dst (truthCell (a = b))
  | adjustRelativeBase offset => .rebase offset
  | halt => .halt

end Intcode
