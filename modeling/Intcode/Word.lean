/-
# Instruction words

The two low decimal digits of a word are its opcode. The digits above them
are the addressing modes of its operands, the one nearest the opcode
belonging to the first operand; an operand past the last digit is in
position mode. `Word.split` reads a word and `Word.encode` writes one.

Key definitions: `Mode`, `Opcode`, `Opcode.operands`, `Word.split`,
`Word.encode`.
-/
import Intcode.Fault

namespace Intcode

/-- How an operand's literal names its value. -/
inductive Mode where
  /-- The literal is an address. -/
  | position
  /-- The literal is the value. -/
  | immediate
  /-- The literal is an offset from the relative base. -/
  | relative
  deriving DecidableEq, Repr

namespace Mode

/-- The digit of a mode. -/
def digit : Mode → Nat
  | position => 0
  | immediate => 1
  | relative => 2

/-- The mode of a digit. -/
def ofDigit? : Nat → Option Mode
  | 0 => some position
  | 1 => some immediate
  | 2 => some relative
  | _ => none

theorem ofDigit?_digit (m : Mode) : ofDigit? m.digit = some m := by cases m <;> rfl

theorem digit_of_ofDigit? {d : Nat} {m : Mode} (h : ofDigit? d = some m) : m.digit = d := by
  unfold ofDigit? at h
  split at h <;> simp_all [digit]
  all_goals subst h; rfl

theorem ofDigit?_eq_none_iff {d : Nat} : ofDigit? d = none ↔ 3 ≤ d := by
  match d with
  | 0 | 1 | 2 => decide
  | n + 3 => simp [ofDigit?]

end Mode

/-- What an instruction does with an operand. -/
inductive OperandKind where
  /-- It is read through its mode. -/
  | read
  /-- It names the address that the result goes to. -/
  | write
  deriving DecidableEq, Repr

/-- The ten operations. -/
inductive Opcode where
  | add
  | multiply
  | input
  | output
  | jumpIfTrue
  | jumpIfFalse
  | lessThan
  | equals
  | adjustRelativeBase
  | halt
  deriving DecidableEq, Repr

namespace Opcode

/-- The number of an operation. -/
def code : Opcode → Nat
  | add => 1
  | multiply => 2
  | input => 3
  | output => 4
  | jumpIfTrue => 5
  | jumpIfFalse => 6
  | lessThan => 7
  | equals => 8
  | adjustRelativeBase => 9
  | halt => 99

/-- The operation of a number. -/
def ofCode? : Nat → Option Opcode
  | 1 => some add
  | 2 => some multiply
  | 3 => some input
  | 4 => some output
  | 5 => some jumpIfTrue
  | 6 => some jumpIfFalse
  | 7 => some lessThan
  | 8 => some equals
  | 9 => some adjustRelativeBase
  | 99 => some halt
  | _ => none

/-- The operations that take operands, by their numbers. -/
def operations : List Opcode :=
  [add, multiply, input, output, jumpIfTrue, jumpIfFalse, lessThan, equals, adjustRelativeBase]

/-- The operands of an operation, in order. -/
def operands : Opcode → List OperandKind
  | add | multiply | lessThan | equals => [.read, .read, .write]
  | input => [.write]
  | output | adjustRelativeBase => [.read]
  | jumpIfTrue | jumpIfFalse => [.read, .read]
  | halt => []

/-- The name of an operation in a listing. -/
def mnemonic : Opcode → String
  | add => "ADD"
  | multiply => "MUL"
  | input => "IN"
  | output => "OUT"
  | jumpIfTrue => "JNZ"
  | jumpIfFalse => "JZ"
  | lessThan => "LT"
  | equals => "EQ"
  | adjustRelativeBase => "ARB"
  | halt => "HALT"

theorem ofCode?_code (op : Opcode) : ofCode? op.code = some op := by cases op <;> rfl

theorem code_of_ofCode? {c : Nat} {op : Opcode} (h : ofCode? c = some op) : op.code = c := by
  unfold ofCode? at h
  split at h <;> simp_all
  all_goals subst h; rfl

theorem mem_operations_iff {op : Opcode} : op ∈ operations ↔ op ≠ halt := by
  cases op <;> decide

end Opcode

namespace Word

/-- The modes written by the digits of a number, least significant first, or
the first digit that is no mode. -/
def modes (n : Nat) : Except Nat (List Mode) :=
  if n = 0 then .ok []
  else match Mode.ofDigit? (n % 10) with
    | none => .error (n % 10)
    | some m => match modes (n / 10) with
      | .error d => .error d
      | .ok ms => .ok (m :: ms)
termination_by n

/-- The opcode and the modes of a word. The list of modes is as long as the
word has digits for it; a halt has none whatever its digits are. -/
def split (word : Int) : Except Fault (Opcode × List Mode) :=
  if word = 0 then .error .zeroWord
  else if word < 0 then .error (.negativeWord word)
  else
    let n := word.toNat
    match Opcode.ofCode? (n % 100) with
    | none => .error (.unknownOpcode (n % 100) word)
    | some .halt => .ok (.halt, [])
    | some op => match modes (n / 100) with
      | .error d => .error (.unknownMode d word)
      | .ok ms => .ok (op, ms)

/-- The number whose decimal digits, least significant first, are given. -/
def ofDigits : List Int → Int
  | [] => 0
  | d :: ds => d + 10 * ofDigits ds

/-- The word of an opcode and the digits above it. -/
def encode (code : Int) (digits : List Int) : Int := code + 100 * ofDigits digits

/-- The word of an operation and the modes of its operands. -/
def ofModes (op : Opcode) (ms : List Mode) : Int :=
  encode op.code (ms.map fun m => (m.digit : Int))

/-- The mode of the operand of this index, position where the word gives
none. -/
def modeAt (ms : List Mode) (index : Nat) : Mode := ms.getD index .position

theorem modes_zero : modes 0 = .ok [] := by unfold modes; rfl

theorem split_zero : split 0 = .error .zeroWord := rfl

theorem split_negative {word : Int} (h : word < 0) : split word = .error (.negativeWord word) := by
  have : word ≠ 0 := by omega
  simp [split, h, this]

end Word
end Intcode
