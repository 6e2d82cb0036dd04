/-
# The journal of an execution

What an observer of a machine would write down: every growth of its memory,
every instruction fetched, every wait for input and the halt. The machine
itself keeps no journal. The entries of a step follow from the machine
before it, those of a drive from the steps that it makes.

Key definitions: `Entry`, `Entry.describe`, `Machine.stepEntries`,
`Machine.entriesWithin`, `Machine.callEntries`.
-/
import Intcode.Machine.Call
import Intcode.Text.Align

namespace Intcode

/-- One line of a journal. -/
inductive Entry where
  /-- A memory grew from one length to another. -/
  | grew (before after : Nat)
  /-- The instruction at a pointer was decoded. -/
  | fetched (pointer base : Int) (instruction : Instruction)
  /-- The input instruction at a pointer found no input. -/
  | awaiting (address pointer : Int)
  /-- The program halted. -/
  | halted (pointer : Int) (steps : Nat)
  /-- All machines of a ring have halted. -/
  | ringHalted (machines rounds : Nat)
  /-- A test was run on a program, with this outcome. -/
  | tested (number : Nat) (program outcome : String)
  deriving DecidableEq, Repr

/-- The part of the library that an entry comes from. -/
inductive Entry.Source where
  | machine
  | ring
  | campaign
  deriving DecidableEq, Repr

namespace Entry

/-- Where an entry comes from. -/
def source : Entry → Source
  | grew .. | fetched .. | awaiting .. | halted .. => .machine
  | ringHalted .. => .ring
  | tested .. => .campaign

/-- The text of an entry. -/
def describe : Entry → String
  | grew before after => s!"Growing memory from {before} to {after} cells"
  | fetched pointer base instruction =>
    s!"{Text.alignRight 5 (toString pointer)} (rb={base}): {instruction.describe}"
  | awaiting address pointer => s!"Awaiting input for address {address} at {pointer}"
  | halted pointer steps => s!"Halted at {pointer} after {steps} steps"
  | ringHalted machines rounds =>
    s!"Feedback loop of {machines} machines halted after {rounds} rounds"
  | tested number program outcome => s!"Test {number}: {program} -> {outcome}"

end Entry

namespace Memory

/-- The entry for a growth from one memory to the next, if it grew. -/
def growth (before after : Memory) : List Entry :=
  if before.size = after.size then [] else [.grew before.size after.size]

/-- A memory and the growths seen so far, newest first. -/
structure Watched where
  memory : Memory
  growths : List Entry

/-- Reads a watched memory. -/
def Watched.read (a : Int) (w : Watched) : Except Fault Int × Watched :=
  match w.memory.read a with
  | (answer, memory) => (answer, ⟨memory, w.memory.growth memory ++ w.growths⟩)

/-- The growths made by reads of a memory, and the memory afterwards. -/
def readEntries {α : Type} (x : Access Watched α) (m : Memory) : Except Fault α × List Entry × Memory :=
  match x.on ⟨m, []⟩ with
  | (answer, w) => (answer, w.growths.reverse, w.memory)

/-- The entries of a decoding. -/
def decodeEntries (base pointer : Int) (m : Memory) :
    Except Fault (Instruction × Int) × List Entry × Memory :=
  m.readEntries (decode (fun a => Access.of (Watched.read a)) base pointer)

end Memory

namespace Machine

/-- The entries of a step. -/
def stepEntries (m : Machine) : List Entry :=
  if m.status = .halted then []
  else match m.memory.decodeEntries m.base m.pointer with
  | (.error _, growths, _) => growths
  | (.ok (instruction, _), growths, decoded) =>
    let (answer, after) := m.step
    growths ++ [.fetched m.pointer m.base instruction] ++ decoded.growth after.memory ++
      match answer with
      | .ok (some (.awaiting address)) => [.awaiting address m.pointer]
      | .ok (some .halted) => [.halted m.pointer after.steps]
      | _ => []

/-- The entries of the steps up to the next event, or up to the next that is
no output, if there is one within `n` instructions. -/
def entriesWithin (pastOutputs : Bool) : Nat → Machine → List Entry
  | 0, _ => []
  | n + 1, m => m.stepEntries ++ match m.step with
    | (.ok none, m) => entriesWithin pastOutputs n m
    | (.ok (some (.output _)), m) => if pastOutputs then entriesWithin pastOutputs n m else []
    | _ => []

/-- The entries of a drive that queues inputs first. -/
def drivenEntries (pastOutputs : Bool) (inputs : List Datum) (n : Nat) (m : Machine) : List Entry :=
  match m.feed inputs with
  | (.error _, _) => []
  | (.ok _, m) => m.entriesWithin pastOutputs n

/-- The entries of a call. -/
def callEntries (fuel : Nat) (c : Call) (m : Machine) : List Entry :=
  match c with
  | .run inputs budget => m.drivenEntries true inputs (allowance budget fuel)
  | .runToOutput inputs budget => m.drivenEntries false inputs (allowance budget fuel)
  | .tick budget => m.drivenEntries false [] (allowance budget fuel)
  | .step => m.stepEntries
  | .feed _ => []
  | c@(.provide _) | c@(.peek _) | c@(.poke ..) => m.memory.growth (m.call fuel c).2.memory

end Machine
end Intcode
