/-
# The journal of machines in series

Key definition: `Series.entries`.
-/
import Intcode.Journal
import Intcode.Series

namespace Intcode

/-- The entries of a series of machines, the first of which has the given
index. -/
def Series.entries (program : List Datum) (budget : Option Int) (fuel : Nat) (index : Nat) :
    List Datum → Datum → List Entry
  | [], _ => []
  | phase :: phases, signal =>
    let own := match Machine.boot program none with
      | .error _ => []
      | .ok m => m.callEntries fuel (.run [phase, signal] budget)
    own ++ match Series.station program budget fuel index phase signal with
      | some (.ok signal) => entries program budget fuel (index + 1) phases (.int signal)
      | _ => []

end Intcode
