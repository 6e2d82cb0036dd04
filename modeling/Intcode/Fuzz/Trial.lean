/-
# Trials

A trial runs a program twice, each time on a fresh machine. The batch run has
all inputs queued beforehand. The interactive run gives an input only when
the machine waits for one. The two must have the same outcome, and where the
outputs are known, they must be those.

A fault of the machine is an outcome of its class. Any other fault is a crash,
and all crashes are alike.

Key definitions: `Trial`, `Outcome`, `Machine.converse`, `Trial.batch`,
`Trial.interactive`, `Outcome.agrees`, `Outcome.meets`, `Trial.run`.
-/
import Intcode.Fuzz.Case
import Intcode.Machine.Drive

namespace Intcode

/-- What is to be run: a program and inputs as a caller offers them, and the
outputs that are expected if they are known. -/
structure Trial where
  program : List Datum
  inputs : List Datum := []
  expected : Option (List Int) := none
  deriving DecidableEq, Repr

/-- The trial of a case. -/
def Case.trial (c : Case) : Trial :=
  { program := c.program.map .int, inputs := c.inputs.map .int, expected := c.expected }

/-- What came of a run. -/
inductive Outcome where
  /-- The program halted: its outputs, and the cells it left. -/
  | success (outputs memory : List Int)
  /-- The machine failed, by a fault of this class. -/
  | exception (reason : String)
  /-- Something else failed. -/
  | crash (reason : String)
  deriving DecidableEq, Repr

namespace Outcome

/-- The outcome of a run that is named so. -/
def ofAnswer (run : String) (answer : Except Fault (List Int)) (m : Machine) : Outcome :=
  match answer with
  | .ok outputs => success outputs m.memory.cells.toList
  | .error f =>
    if f.kind.ofMachine then exception f.kind.name
    else crash s!"{run} run raised exception: {f.written}"

/-- Whether two outcomes are the same. Crashes are, whatever their
reasons. -/
def agrees : Outcome → Outcome → Bool
  | crash _, crash _ => true
  | a, b => a == b

/-- Whether an outcome is as expected, if anything is. -/
def meets (expected : Option (List Int)) (o : Outcome) : Bool :=
  match expected, o with
  | none, _ => true
  | some outputs, success given _ => given == outputs
  | some _, _ => false

/-- The class of a step limit, as outcomes give it. -/
def stepLimited : String := Fault.Kind.stepLimitExceeded.name

end Outcome

/-- Ticks to the halt, each time within what is left of the budget, and
answers each wait for input with the next of the pending values. An answer
completes an input instruction, so it counts as one. There are at most `n`
ticks. `outputs` are those given out before, newest first. -/
def Machine.converse (budget : Option Int) (fuel : Nat) (pending : List Datum)
    (outputs : List Int) : Nat → Machine → Attempt (List Int) × Machine
  | 0, m => (none, m)
  | n + 1, m => match m.tick (budget.map fun k => max (k - m.steps) 0) (fuel - m.steps) with
    | (none, m) => (none, m)
    | (some (.error f), m) => (some (.error f), m)
    | (some (.ok (.output value)), m) => converse budget fuel pending (value :: outputs) n m
    | (some (.ok (.awaiting address)), m) => match pending with
      | [] => (some (.error (.unanswered address)), m)
      | value :: pending => match m.provide value with
        | (.error f, m) => (some (.error f), m)
        | (.ok _, m) => converse budget fuel pending outputs n m
    | (some (.ok .halted), m) => (some (.ok outputs.reverse), m)

namespace Trial

variable (budget limit : Option Int) (fuel : Nat) (t : Trial)

/-- The outcome with all inputs queued beforehand. A program that fits no
machine has none. -/
def batch : Attempt Outcome :=
  match Machine.boot t.program limit with
  | .error f => some (.error f)
  | .ok m => match m.run t.inputs budget fuel with
    | (none, _) => none
    | (some answer, m) => some (.ok (.ofAnswer "batch" answer m))

/-- The outcome with each input given on request. Every tick but the last
completes an instruction, or the answer to it does. -/
def interactive : Attempt Outcome :=
  match Machine.boot t.program limit with
  | .error f => some (.error f)
  | .ok m => match m.converse budget fuel t.inputs [] (allowance budget fuel + 1) with
    | (none, _) => none
    | (some answer, m) => some (.ok (.ofAnswer "interactive" answer m))

/-- What a trial showed: both outcomes, and whether they agree with each
other and with what was expected. -/
structure Verdict where
  batch : Outcome
  interactive : Outcome
  agree : Bool
  deriving DecidableEq, Repr

/-- The most cells of a trial's machines, where nothing else is said. -/
def standardLimit : Int := 65536

/-- The budget of a trial's machines, where nothing else is said. -/
def standardBudget : Int := 10000

/-- Runs a trial within the standard memory. -/
def run : Attempt Verdict :=
  match t.batch budget (some standardLimit) fuel, t.interactive budget (some standardLimit) fuel with
  | some (.ok b), some (.ok i) => some (.ok ⟨b, i, b.agrees i && b.meets t.expected⟩)
  | some (.error f), _ => some (.error f)
  | _, some (.error f) => some (.error f)
  | _, _ => none

end Trial
end Intcode
