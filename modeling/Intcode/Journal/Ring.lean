/-
# The journal of machines in a ring

Key definition: `Ring.entries`.
-/
import Intcode.Journal
import Intcode.Ring

namespace Intcode

namespace Ring

/-- The entries of the turns of a round from a machine on. -/
def sweepEntries (budget : Option Int) (fuel round : Nat) :
    Nat → Datum → List Machine → List Entry
  | _, _, [] => []
  | index, signal, m :: rest =>
    if m.finished then sweepEntries budget fuel round (index + 1) signal rest
    else m.drivenEntries false [signal] (allowance budget fuel) ++
      match turn budget fuel round index signal m with
      | some (.ok (said, _)) => sweepEntries budget fuel round (index + 1) (passOn signal said) rest
      | _ => []

/-- The entries of the rounds from a ring on. -/
def spinEntries (budget : Option Int) (fuel : Nat) : Nat → Ring → List Entry
  | 0, r => if r.finished then [.ringHalted r.machines.length r.rounds] else []
  | n + 1, r =>
    if r.finished then [.ringHalted r.machines.length r.rounds]
    else sweepEntries budget fuel (r.rounds + 1) 0 r.signal r.machines ++
      match r.round budget fuel with
      | some (.ok r) => spinEntries budget fuel n r
      | _ => []

/-- The entries of a ring. -/
def entries (program phases : List Datum) (signal : Datum) (budget : Option Int) (fuel : Nat) :
    List Entry :=
  match assemble program phases signal with
  | .error _ => []
  | .ok r => spinEntries budget fuel fuel r

end Ring
end Intcode
