/-
# The machine and its single step

A machine owns its memory, a pointer, a relative base and a queue of inputs.
`Machine.step` decodes and carries out the instruction at the pointer. It
tells an output, a wait for input and the halt by an event, and a step that
fails leaves everything but the length of the memory as it was.

A machine waits when an input instruction finds the queue empty. The pointer
then stays on that instruction, and the wait is no completed step. It ends
when values are queued (`Machine.feed`), or when a value is put straight at
the awaited address (`Machine.provide`), which completes the instruction.

Key definitions: `Event`, `Registers`, `Machine`, `Machine.boot`, `Machine.feed`,
`Machine.provide`, `Machine.step`, `Machine.peek`, `Machine.poke`.
-/
import Intcode.Memory
import Intcode.Instruction

namespace Intcode

/-- What a step may tell. -/
inductive Event where
  /-- The program gave out a value. -/
  | output (value : Int)
  /-- The program waits for a value for this address. -/
  | awaiting (address : Int)
  /-- The program has ended. -/
  | halted
  deriving DecidableEq, Repr

/-- Everything a machine owns beside its memory. -/
structure Registers where
  /-- The address of the instruction to be carried out. -/
  pointer : Int := 0
  /-- The base that relative operands count from. -/
  base : Int := 0
  status : Status := .running
  /-- The queued inputs, oldest first. -/
  inputs : List Int := []
  /-- The address that a value is awaited for. -/
  awaited : Option Int := none
  lastOutput : Option Int := none
  /-- The number of instructions completed. -/
  steps : Nat := 0
  deriving DecidableEq, Repr

/-- A machine: registers and a memory. -/
structure Machine extends Registers where
  memory : Memory
  deriving DecidableEq, Repr

namespace Machine

/-- The fresh machine of a program. -/
def boot (program : List Datum) (limit : Option Int) : Except Fault Machine := do
  return { memory := ← Memory.ofCells program limit }

/-- Whether a machine has halted. -/
def finished (m : Machine) : Bool := m.status == .halted

/-- Queues values. Feeding nothing does nothing; a machine that waited runs
again, its pointer still on the input instruction. -/
def feed (values : List Datum) (m : Machine) : Except Fault Unit × Machine :=
  if values = [] then (.ok (), m)
  else if m.status = .halted then (.error .feedHalted, m)
  else match Datum.toCells (fun _ => .input) 0 values with
    | .error f => (.error f, m)
    | .ok ns =>
      let m := { m with inputs := m.inputs ++ ns }
      if m.status = .awaitingInput then (.ok (), { m with status := .running, awaited := none })
      else (.ok (), m)

/-- Answers a pending wait for input: the value goes to the awaited address
at once, and the input instruction, two cells long, is completed. -/
def provide (value : Datum) (m : Machine) : Except Fault Unit × Machine :=
  match m with
  | ⟨r, memory⟩ =>
    match r.status, r.awaited with
    | .awaitingInput, some address =>
      match memory.write address value with
      | (.error f, memory) => (.error f, ⟨r, memory⟩)
      | (.ok _, memory) => (.ok (),
        ⟨{ r with
            pointer := r.pointer + 2
            steps := r.steps + 1
            status := .running
            awaited := none }, memory⟩)
    | status, _ => (.error (.notAwaiting value status), ⟨r, memory⟩)

/-- Reads a cell. -/
def peek (a : Int) (m : Machine) : Except Fault Int × Machine :=
  match m with
  | ⟨r, memory⟩ =>
    match memory.read a with
    | (answer, memory) => (answer, ⟨r, memory⟩)

/-- Writes a cell. -/
def poke (a : Int) (value : Datum) (m : Machine) : Except Fault Unit × Machine :=
  match m with
  | ⟨r, memory⟩ =>
    match memory.write a value with
    | (answer, memory) => (answer, ⟨r, memory⟩)

/-- Carries out an effect; `next` is the address just past the instruction.
The registers change only if the effect succeeds. -/
def carryOut (next : Int) (effect : Effect) (r : Registers) (memory : Memory) :
    Except Fault (Option Event) × Machine :=
  match effect with
  | .store dst value =>
    match memory.write dst (.int value) with
    | (.error f, memory) => (.error f, ⟨r, memory⟩)
    | (.ok _, memory) => (.ok none, ⟨{ r with pointer := next, steps := r.steps + 1 }, memory⟩)
  | .take dst =>
    match r.inputs with
    | [] => (.ok (some (.awaiting dst)),
      ⟨{ r with status := .awaitingInput, awaited := some dst }, memory⟩)
    | value :: rest =>
      match memory.write dst (.int value) with
      | (.error f, memory) => (.error f, ⟨r, memory⟩)
      | (.ok _, memory) => (.ok none,
        ⟨{ r with
            pointer := next
            steps := r.steps + 1
            status := .running
            inputs := rest
            awaited := none }, memory⟩)
  | .emit value => (.ok (some (.output value)),
      ⟨{ r with pointer := next, steps := r.steps + 1, lastOutput := some value }, memory⟩)
  | .goto target => (.ok none, ⟨{ r with pointer := target, steps := r.steps + 1 }, memory⟩)
  | .rebase offset =>
    match (Datum.int (r.base + offset)).toCell .relativeBase with
    | .error f => (.error f, ⟨r, memory⟩)
    | .ok base =>
      (.ok none, ⟨{ r with pointer := next, steps := r.steps + 1, base := base }, memory⟩)
  | .halt => (.ok (some .halted), ⟨{ r with status := .halted, steps := r.steps + 1 }, memory⟩)

/-- Carries out the instruction at the pointer. The answer is the event it
told, if any. A halted machine tells that it has halted and does nothing. -/
def step (m : Machine) : Except Fault (Option Event) × Machine :=
  if m.status = .halted then (.ok (some .halted), m)
  else match m with
  | ⟨r, memory⟩ =>
    match (decode (fun a => Access.of (Memory.read a)) r.base r.pointer).on memory with
    | (.error f, memory) => (.error f, ⟨r, memory⟩)
    | (.ok (instruction, next), memory) => carryOut next (instruction.effect next) r memory

theorem step_halted {m : Machine} (h : m.status = .halted) : m.step = (.ok (some .halted), m) := by
  simp [step, h]

theorem feed_nil (m : Machine) : m.feed [] = (.ok (), m) := rfl

end Machine
end Intcode
