/-
# Calls on a machine

Everything a user can ask of a machine, as data: driving it, giving it
input, and looking at or changing its memory. `Machine.call` answers one
call, and a fault in one leaves a machine that can be called again.

Key definitions: `Call`, `Reply`, `Machine.call`.
-/
import Intcode.Machine.Drive

namespace Intcode

/-- What a user can ask of a machine. -/
inductive Call where
  | run (inputs : List Datum) (budget : Option Int)
  | runToOutput (inputs : List Datum) (budget : Option Int)
  | tick (budget : Option Int)
  | step
  | feed (values : List Datum)
  | provide (value : Datum)
  | peek (address : Int)
  | poke (address : Int) (value : Datum)
  deriving DecidableEq, Repr

/-- What a machine answers. -/
inductive Reply where
  | outputs (values : List Int)
  | value (value : Option Int)
  | event (event : Option Event)
  | cell (value : Int)
  | done
  deriving DecidableEq, Repr

namespace Machine

/-- The reply made of an answer. -/
def reply {α : Type} (make : α → Reply) : Attempt α × Machine → Attempt Reply × Machine
  | (answer, m) => (answer.map (·.map make), m)

/-- Answers a call. Fuel counts only for drives without a budget. -/
def call (fuel : Nat) (c : Call) (m : Machine) : Attempt Reply × Machine :=
  let ended {α : Type} : Except Fault α × Machine → Attempt α × Machine
    | (answer, m) => (some answer, m)
  match c with
  | .run inputs budget => reply .outputs (m.run inputs budget fuel)
  | .runToOutput inputs budget => reply .value (m.runToOutput inputs budget fuel)
  | .tick budget => reply (.event ∘ some) (m.tick budget fuel)
  | .step => reply .event (ended m.step)
  | .feed values => reply (fun _ => .done) (ended (m.feed values))
  | .provide value => reply (fun _ => .done) (ended (m.provide value))
  | .peek address => reply .cell (ended (m.peek address))
  | .poke address value => reply (fun _ => .done) (ended (m.poke address value))

end Machine
end Intcode
