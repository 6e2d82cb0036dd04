/-
# Machines in a ring

One machine for each phase runs the same program. The phase is its first
input. In each round the machines take turns in order: a machine is fed the
current signal and runs to its next output, which becomes the current signal.
A machine that has halted is passed over, and the signal with it. The ring
ends when all machines have halted.

Every turn is kept, so that what each machine heard and said can be told
afterwards.

Key definitions: `Turn`, `Ring`, `Ring.assemble`, `Ring.turn`, `Ring.round`, `Ring.run`.
-/
import Intcode.Machine.Drive

namespace Intcode

/-- A machine's turn: the signal it was fed and what it gave out, if
anything. -/
structure Turn where
  index : Nat
  heard : Datum
  said : Option Int
  deriving DecidableEq, Repr

/-- The machines of a ring in order, the current signal, the number of rounds
begun, and the turns taken, oldest first. -/
structure Ring where
  machines : List Machine
  signal : Datum
  rounds : Nat
  turns : Array Turn
  deriving DecidableEq, Repr

namespace Ring

/-- The machines of a program, each fed its phase. -/
def stations (program : List Datum) : List Datum → Except Fault (List Machine)
  | [] => .ok []
  | phase :: phases => do
    let m ← Machine.boot program none
    match m.feed [phase] with
    | (.error f, _) => .error f
    | (.ok _, m) => return m :: (← stations program phases)

/-- The ring before its first round. -/
def assemble (program phases : List Datum) (signal : Datum) : Except Fault Ring := do
  return ⟨← stations program phases, signal, 0, #[]⟩

/-- Whether all machines have halted. -/
def finished (r : Ring) : Bool := r.machines.all Machine.finished

/-- A machine's turn in a round: what it gives out, and the machine after
it. -/
def turn (budget : Option Int) (fuel round index : Nat) (signal : Datum) (m : Machine) :
    Attempt (Option Int × Machine) :=
  match m.feed [signal] with
  | (.error f, _) => some (.error f)
  | (.ok _, m) => match m.tick budget fuel with
    | (none, _) => none
    | (some (.error f), _) => some (.error f)
    | (some (.ok (.output value)), m) => some (.ok (some value, m))
    | (some (.ok (.awaiting address)), _) => some (.error (.ringStalled index address round))
    | (some (.ok .halted), m) => some (.ok (none, m))

/-- The signal after a turn. -/
def passOn (signal : Datum) (said : Option Int) : Datum :=
  match said with
  | some value => .int value
  | none => signal

/-- The turns of a round from a machine on, the machine of the given index:
the machines after it, the signal, and the turns taken. -/
def sweep (budget : Option Int) (fuel round : Nat) :
    Nat → Datum → List Machine → Attempt (List Machine × Datum × List Turn)
  | _, signal, [] => some (.ok ([], signal, []))
  | index, signal, m :: rest =>
    if m.finished then
      (sweep budget fuel round (index + 1) signal rest).map
        (·.map fun (ms, signal, turns) => (m :: ms, signal, turns))
    else match turn budget fuel round index signal m with
      | none => none
      | some (.error f) => some (.error f)
      | some (.ok (said, m)) =>
        (sweep budget fuel round (index + 1) (passOn signal said) rest).map
          (·.map fun (ms, after, turns) => (m :: ms, after, ⟨index, signal, said⟩ :: turns))

/-- One round. -/
def round (budget : Option Int) (fuel : Nat) (r : Ring) : Attempt Ring :=
  match r with
  | ⟨machines, signal, rounds, turns⟩ =>
    match sweep budget fuel (rounds + 1) 0 signal machines with
    | none => none
    | some (.error f) => some (.error f)
    | some (.ok (machines, signal, taken)) => some (.ok ⟨machines, signal, rounds + 1, turns ++ taken⟩)

/-- Rounds until all machines have halted, if that takes at most `n`. -/
def spin (budget : Option Int) (fuel : Nat) : Nat → Ring → Attempt Ring
  | 0, r => if r.finished then some (.ok r) else none
  | n + 1, r =>
    if r.finished then some (.ok r)
    else match r.round budget fuel with
      | none => none
      | some (.error f) => some (.error f)
      | some (.ok r) => spin budget fuel n r

/-- The ring at its end. The fuel bounds the rounds, and the instructions of
a turn that has no budget. -/
def run (program phases : List Datum) (signal : Datum) (budget : Option Int) (fuel : Nat) :
    Attempt Ring :=
  match assemble program phases signal with
  | .error f => some (.error f)
  | .ok r => spin budget fuel fuel r

/-- The signals a machine was fed, in order. -/
def heardBy (r : Ring) (index : Nat) : List Datum :=
  (r.turns.toList.filter (·.index = index)).map (·.heard)

/-- The outputs of a machine, in order. -/
def saidBy (r : Ring) (index : Nat) : List Int :=
  (r.turns.toList.filter (·.index = index)).filterMap (·.said)

end Ring
end Intcode
