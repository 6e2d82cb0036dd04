/-
# The journals of trials and campaigns

Key definitions: `Machine.converseEntries`, `Trial.entries`,
`Campaign.entries`.
-/
import Intcode.Fuzz.Campaign
import Intcode.Journal

namespace Intcode

/-- The entries of an interactive run within `n` instructions. -/
def Machine.converseEntries (pending : List Datum) : Nat → Machine → List Entry
  | 0, _ => []
  | n + 1, m => m.stepEntries ++ match m.step with
    | (.ok none, m) | (.ok (some (.output _)), m) => converseEntries pending n m
    | (.ok (some (.awaiting _)), m) => match pending with
      | [] => []
      | value :: pending =>
        let (answer, after) := m.provide value
        m.memory.growth after.memory ++ match answer with
          | .error _ => []
          | .ok _ => converseEntries pending n after
    | _ => []

namespace Trial

variable (budget limit : Option Int) (fuel : Nat) (t : Trial)

/-- The entries of the batch run and then of the interactive run. -/
def entries : List Entry :=
  match Machine.boot t.program limit with
  | .error _ => []
  | .ok m =>
    m.callEntries fuel (.run t.inputs budget) ++
      m.converseEntries t.inputs (allowance budget fuel)

end Trial

namespace Campaign

variable {σ : Type} [Source σ]

/-- The entries of `n` more cases, the first of which has the given
number. -/
def testEntries (strategy : Strategy) (budget : Option Int) (fuel : Nat) :
    Nat → Nat → σ → List Entry
  | 0, _, _ => []
  | n + 1, number, s => match test strategy budget fuel s with
    | (some (.ok (c, v)), s) =>
      c.trial.entries budget (some Trial.standardLimit) fuel ++
        .tested number (ProgramText.format c.program) (Report.outcome v.batch) ::
          testEntries strategy budget fuel n (number + 1) s
    | _ => []

/-- The entries of a campaign. -/
def entries (count : Int) (name : String) (budget : Option Int) (fuel : Nat) (s : σ) : List Entry :=
  testEntries (strategyFor name) budget fuel count.toNat 1 s

end Campaign
end Intcode
