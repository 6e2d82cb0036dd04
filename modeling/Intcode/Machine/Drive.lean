/-
# Driving a machine

A machine is driven to its next event (`tick`), to its next output
(`runToOutput`) or to its halt (`run`). Each drive may have a budget of
instructions; it then ends within it, by a fault if by nothing else. A drive
without a budget may go on for ever, so it is given a fuel, and an answer
`none` says that the fuel was used up before the drive came to an end. A drive
with a budget never answers `none`, and its answer does not depend on the
fuel.

Key definitions: `Attempt`, `allowance`, `Machine.advance`, `Machine.tick`,
`Machine.collect`, `Machine.run`, `Machine.runToOutput`.
-/
import Intcode.Machine

namespace Intcode

/-- The answer of something that may not end: `none` if it was given up. -/
abbrev Attempt (α : Type) := Option (Except Fault α)

/-- How many instructions a drive may complete. A negative budget allows
none. -/
def allowance (budget : Option Int) (fuel : Nat) : Nat :=
  match budget with
  | some k => k.toNat
  | none => fuel

namespace Machine

/-- Steps up to the first event or fault, if there is one within `n`
instructions. -/
def advance : Nat → Machine → Attempt Event × Machine
  | 0, m => (none, m)
  | n + 1, m => match m.step with
    | (.ok none, m) => advance n m
    | (.ok (some event), m) => (some (.ok event), m)
    | (.error f, m) => (some (.error f), m)

/-- Runs to the next output, wait or halt. A machine that has halted stays
halted, even without a budget left. -/
def tick (budget : Option Int) (fuel : Nat) (m : Machine) : Attempt Event × Machine :=
  if m.status = .halted then (some (.ok .halted), m)
  else match m.advance (allowance budget fuel) with
    | (none, m) => (budget.map fun k => .error (.stepLimit k m.pointer), m)
    | answered => answered

/-- How a stretch of execution came to its end. -/
inductive Ending where
  /-- The program halted. -/
  | halted
  /-- The program asked for a value for this address. -/
  | awaiting (address : Int)
  /-- A step failed. -/
  | failed (f : Fault)
  /-- The allowance was used up; the allowance left at the last output (or
  the start) is kept. -/
  | spent (window : Nat)
  deriving DecidableEq, Repr

/-- What a stretch of execution gave out, how it ended, and the machine it
left. -/
structure Stretch where
  outputs : List Int
  ending : Ending
  machine : Machine
  deriving DecidableEq, Repr

/-- Steps past outputs up to a wait, the halt or a fault, if there is one
within `n` instructions. `outputs` are those given out before, newest first,
and `window` is the allowance at the newest of them. -/
def collect (window : Nat) (outputs : List Int) : Nat → Machine → Stretch
  | 0, m => ⟨outputs.reverse, .spent window, m⟩
  | n + 1, m => match m.step with
    | (.ok none, m) => collect window outputs n m
    | (.ok (some (.output value)), m) => collect n (value :: outputs) n m
    | (.ok (some (.awaiting address)), m) => ⟨outputs.reverse, .awaiting address, m⟩
    | (.ok (some .halted), m) => ⟨outputs.reverse, .halted, m⟩
    | (.error f, m) => ⟨outputs.reverse, .failed f, m⟩

/-- Queues inputs, runs to the halt and gives all outputs, oldest first. A
machine that has halted before gives none and takes no inputs. -/
def run (inputs : List Datum) (budget : Option Int) (fuel : Nat) (m : Machine) :
    Attempt (List Int) × Machine :=
  if m.status = .halted then (some (.ok []), m)
  else match m.feed inputs with
    | (.error f, m) => (some (.error f), m)
    | (.ok _, m) =>
      let n := allowance budget fuel
      let stretch := m.collect n [] n
      let answer : Attempt (List Int) := match stretch.ending with
        | .halted => some (.ok stretch.outputs)
        | .awaiting address => some (.error (.runStarved address stretch.machine.pointer))
        | .failed f => some (.error f)
        | .spent window => budget.map fun _ => .error (.stepLimit window stretch.machine.pointer)
      (answer, stretch.machine)

/-- Queues inputs and runs to the next output; no value if the machine
halts first. -/
def runToOutput (inputs : List Datum) (budget : Option Int) (fuel : Nat) (m : Machine) :
    Attempt (Option Int) × Machine :=
  if m.status = .halted then (some (.ok none), m)
  else match m.feed inputs with
    | (.error f, m) => (some (.error f), m)
    | (.ok _, m) => match m.tick budget fuel with
      | (none, m) => (none, m)
      | (some (.error f), m) => (some (.error f), m)
      | (some (.ok (.output value)), m) => (some (.ok (some value)), m)
      | (some (.ok (.awaiting address)), m) =>
        (some (.error (.outputStarved address m.pointer)), m)
      | (some (.ok .halted), m) => (some (.ok none), m)

theorem tick_halted {m : Machine} (h : m.status = .halted) (budget : Option Int) (fuel : Nat) :
    m.tick budget fuel = (some (.ok .halted), m) := by
  simp [tick, h]

theorem run_halted {m : Machine} (h : m.status = .halted) (inputs : List Datum)
    (budget : Option Int) (fuel : Nat) : m.run inputs budget fuel = (some (.ok []), m) := by
  simp [run, h]

/-- A drive with a budget comes to an end. -/
theorem tick_budget_isSome (k : Int) (fuel : Nat) (m : Machine) :
    (m.tick (some k) fuel).1.isSome := by
  unfold tick
  split
  · rfl
  · split
    · rfl
    · rename_i h
      rcases hm : m.advance (allowance (some k) fuel) with ⟨_ | r, m'⟩
      · exact absurd hm (by simpa using h m')
      · rfl

end Machine
end Intcode
