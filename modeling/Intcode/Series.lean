/-
# Machines in series

One machine for each phase runs the same program to its halt, from left to
right. Each takes its phase and then the signal, and its last output is the
signal for the next.

Key definitions: `Series.station`, `Series.run`.
-/
import Intcode.Machine.Drive

namespace Intcode.Series

/-- What one machine makes of a signal: its last output. -/
def station (program : List Datum) (budget : Option Int) (fuel : Nat) (index : Nat)
    (phase signal : Datum) : Attempt Int :=
  match Machine.boot program none with
  | .error f => some (.error f)
  | .ok m => match (m.run [phase, signal] budget fuel).1 with
    | none => none
    | some (.error f) => some (.error f)
    | some (.ok outputs) => match outputs.getLast? with
      | none => some (.error (.silentMachine index phase))
      | some signal => some (.ok signal)

/-- The signal after all machines, the first of which has the given
index. -/
def run (program : List Datum) (budget : Option Int) (fuel : Nat) (index : Nat) :
    List Datum → Datum → Attempt Datum
  | [], signal => some (.ok signal)
  | phase :: phases, signal => match station program budget fuel index phase signal with
    | none => none
    | some (.error f) => some (.error f)
    | some (.ok signal) => run program budget fuel (index + 1) phases (.int signal)

end Intcode.Series
