/-
# Faults

Everything that can go wrong, by cause. A fault's `kind` is the class it is
reported under and `message` is its wording. Faults of a wrong type or a bad
value are mistakes of the caller; all other kinds are the machine's own.

Key definitions: `Status`, `Fault`, `Fault.Kind`, `Fault.kind`,
`Fault.message`, `Fault.written`.
-/
import Intcode.Cell
import Intcode.Text.Quoted

namespace Intcode

/-- What a machine is doing. -/
inductive Status where
  | running
  | awaitingInput
  | halted
  deriving DecidableEq, Repr

/-- The word for a status. -/
def Status.name : Status → String
  | running => "running"
  | awaitingInput => "awaiting_input"
  | halted => "halted"

/-- The cause of a failure. -/
inductive Fault where
  /-- The instruction word is zero. -/
  | zeroWord
  /-- The instruction word is negative. -/
  | negativeWord (word : Int)
  /-- The two low digits of a word are no opcode. -/
  | unknownOpcode (code : Nat) (word : Int)
  /-- A higher digit of a word is no mode. -/
  | unknownMode (digit : Nat) (word : Int)
  /-- An operand that is written to (counted from 1) is immediate. -/
  | immediateTarget (operand : Nat) (word pointer : Int)
  /-- An operand that is written to resolves to a negative address. -/
  | negativeTarget (address word pointer : Int)
  /-- A negative address is accessed. -/
  | negativeAddress (address : Int)
  /-- A value is too large for a cell. -/
  | overflow (value : Int) (place : Place)
  /-- An address at or past the memory limit needs growth. -/
  | pastLimit (address limit : Int)
  /-- A value that is no integer is offered for a cell. -/
  | wrongType (place : Place) (value : Datum)
  /-- Input is queued for a machine that has halted. -/
  | feedHalted
  /-- An input request is answered that was not made. -/
  | notAwaiting (value : Datum) (status : Status)
  /-- A machine of a series halts without output. -/
  | silentMachine (index : Nat) (phase : Datum)
  /-- A run to halt finds its queue empty. -/
  | runStarved (address pointer : Int)
  /-- A run to the next output finds its queue empty. -/
  | outputStarved (address pointer : Int)
  /-- A machine of a ring asks for more than one signal in its turn. -/
  | ringStalled (index : Nat) (address : Int) (round : Nat)
  /-- An interactive session has no answer left. -/
  | unanswered (address : Int)
  /-- An expression reads more inputs than it is given. -/
  | readPastInputs
  /-- A step budget runs out. -/
  | stepLimit (budget pointer : Int)
  /-- A field of a program text is empty. -/
  | emptyField (index : Nat)
  /-- A field of a program text is no integer. -/
  | notInteger (index : Nat) (field : String)
  /-- A field of a program text is too large for a cell. -/
  | fieldRange (index : Nat) (value : Int)
  /-- A sum or product in an expression is too large for a cell. -/
  | intermediateOverflow (value : Int)
  /-- A constant of an expression is no integer. -/
  | constantType (value : Datum)
  /-- A constant of an expression does not fit in 32 bits. -/
  | constantRange (value : Int)
  /-- A bare integer stands where an expression belongs. -/
  | notExpression (value : Int)
  /-- An integer is drawn from an empty range. -/
  | emptyRange
  deriving DecidableEq, Repr

namespace Fault

/-- The class a fault is reported under. -/
inductive Kind where
  | invalidInstruction
  | invalidMode
  | addressError
  | cellOverflow
  | memoryLimitExceeded
  | protocolError
  | inputExhausted
  | stepLimitExceeded
  | programFormatError
  | typeError
  | valueError
  deriving DecidableEq, Repr

/-- The name of a class of faults. -/
def Kind.name : Kind → String
  | invalidInstruction => "InvalidInstruction"
  | invalidMode => "InvalidMode"
  | addressError => "AddressError"
  | cellOverflow => "CellOverflow"
  | memoryLimitExceeded => "MemoryLimitExceeded"
  | protocolError => "ProtocolError"
  | inputExhausted => "InputExhausted"
  | stepLimitExceeded => "StepLimitExceeded"
  | programFormatError => "ProgramFormatError"
  | typeError => "TypeError"
  | valueError => "ValueError"

/-- Whether a class belongs to the machine. The others are mistakes of its
caller. -/
def Kind.ofMachine : Kind → Bool
  | typeError | valueError => false
  | _ => true

/-- The class of a fault. -/
def kind : Fault → Kind
  | zeroWord | negativeWord _ | unknownOpcode .. => .invalidInstruction
  | unknownMode .. | immediateTarget .. => .invalidMode
  | negativeTarget .. | negativeAddress _ => .addressError
  | overflow .. | intermediateOverflow _ => .cellOverflow
  | pastLimit .. => .memoryLimitExceeded
  | feedHalted | notAwaiting .. | silentMachine .. => .protocolError
  | runStarved .. | outputStarved .. | ringStalled .. | unanswered _ | readPastInputs => .inputExhausted
  | stepLimit .. => .stepLimitExceeded
  | emptyField _ | notInteger .. | fieldRange .. => .programFormatError
  | wrongType .. | constantType _ => .typeError
  | constantRange _ | notExpression _ | emptyRange => .valueError

/-- The wording of a fault. -/
def message : Fault → String
  | zeroWord => "Instruction word is zero (uninitialized code reached)"
  | negativeWord word => s!"Negative instruction word {word}"
  | unknownOpcode code word => s!"Unknown opcode {code} in word {word}"
  | unknownMode digit word => s!"Unknown parameter mode {digit} in word {word}"
  | immediateTarget operand word pointer =>
    s!"Immediate mode for write operand {operand} of word {word} at {pointer}"
  | negativeTarget address word pointer =>
    s!"Negative write address {address} in word {word} at {pointer}"
  | negativeAddress address => s!"Negative address {address}"
  | overflow value place => s!"Value {value} for {place.describe} does not fit in 64 bits"
  | pastLimit address limit => s!"Address {address} is past the memory limit of {limit} cells"
  | wrongType place value =>
    s!"Cell value for {place.describe} must be an int, got {value.typeName}"
  | feedHalted => "Cannot feed input to a halted machine"
  | notAwaiting value status => s!"Input {value.shown} supplied while machine is {status.name}"
  | silentMachine index phase => s!"Machine {index} (phase {phase.shown}) halted without output"
  | runStarved address pointer =>
    s!"Program requested input for address {address} at {pointer} but no inputs remain"
  | outputStarved address pointer => s!"Program requested input for address {address} at {pointer}"
  | ringStalled index address round =>
    s!"Machine {index} stalled waiting for input at address {address} in round {round}"
  | unanswered address => s!"No input left for address {address}"
  | readPastInputs => "Expression reads more inputs than supplied"
  | stepLimit budget pointer =>
    s!"No output, input wait or halt within {budget} steps (pointer {pointer})"
  | emptyField index => s!"Empty field at position {index}"
  | notInteger index field => s!"Field {index} is not an integer: {Text.quoted field}"
  | fieldRange index value => s!"Field {index} out of 64-bit range: {value}"
  | intermediateOverflow value => s!"Intermediate value {value} does not fit in 64 bits"
  | constantType value => s!"Const value must be int, got <class '{value.typeName}'>"
  | constantRange value => s!"Const value must be in [-2147483648, 2147483647], got {value}"
  | notExpression value => s!"Unknown expression type: {value}"
  | emptyRange => "Empty range for a random integer"

/-- A fault as one text, its class and its quoted wording. -/
def written (f : Fault) : String := s!"{f.kind.name}({Text.quoted f.message})"

end Fault

/-- The integer a value offered for a cell is, if it may be put there. -/
def Datum.toCell (d : Datum) (place : Place) : Except Fault Int :=
  match d with
  | int n => if InCell n then .ok n else .error (.overflow n place)
  | d => .error (.wrongType place d)

theorem Datum.toCell_int {n : Int} (h : InCell n) (place : Place) :
    (Datum.int n).toCell place = .ok n := by
  simp [toCell, h]

theorem Datum.toCell_ok {d : Datum} {place : Place} {n : Int} :
    d.toCell place = .ok n ↔ d = .int n ∧ InCell n := by
  cases d <;> simp only [toCell, reduceCtorEq, false_and]
  split <;> simp_all
  · intro h; simp_all
  · rintro rfl; assumption

/-- Checks values in order, the first of which has the given index. -/
def Datum.toCells (place : Nat → Place) (index : Nat) : List Datum → Except Fault (List Int)
  | [] => .ok []
  | d :: ds => do return (← d.toCell (place index)) :: (← toCells place (index + 1) ds)

theorem Datum.toCells_ints {place : Nat → Place} {index : Nat} {xs : List Int}
    (h : ∀ x ∈ xs, InCell x) : toCells place index (xs.map .int) = .ok xs := by
  induction xs generalizing index with
  | nil => rfl
  | cons x xs ih =>
    simp only [List.map_cons, toCells, toCell_int (h x (by simp)), ih fun y hy => h y (by simp [hy])]
    rfl

/-- Values that pass the check are integers that fit. -/
theorem Datum.toCells_ok {place : Nat → Place} {index : Nat} {ds : List Datum} {xs : List Int}
    (h : toCells place index ds = .ok xs) : ds = xs.map .int ∧ ∀ x ∈ xs, InCell x := by
  induction ds generalizing index xs with
  | nil => cases h; simp
  | cons d ds ih =>
    cases hd : d.toCell (place index) with
    | error f => simp [toCells, hd, bind, Except.bind] at h
    | ok x =>
      cases hs : toCells place (index + 1) ds with
      | error f => simp [toCells, hd, hs, bind, Except.bind] at h
      | ok ys =>
        simp only [toCells, hd, hs, bind, Except.bind, pure, Except.pure, Except.ok.injEq] at h
        subst h
        obtain ⟨rfl, hx⟩ := toCell_ok.1 hd
        obtain ⟨rfl, hy⟩ := ih hs
        exact ⟨rfl, by simpa [hx] using hy⟩

end Intcode
