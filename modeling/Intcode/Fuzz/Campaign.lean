/-
# Campaigns

A campaign draws cases one after another, puts each on trial, keeps the
statistics and reports every mismatch.

Key definitions: `Campaign`, `Campaign.test`, `Campaign.tests`, `Campaign.run`.
-/
import Intcode.Fuzz.Generate
import Intcode.Fuzz.Report

namespace Intcode

/-- The statistics so far, and the text printed so far. -/
structure Campaign where
  statistics : Statistics := {}
  printed : String := ""
  deriving DecidableEq, Repr

namespace Campaign

/-- A campaign after one more case was tried. -/
def record (number : Nat) (c : Case) (v : Trial.Verdict) (campaign : Campaign) : Campaign where
  statistics := campaign.statistics.record v
  printed :=
    if v.agree then campaign.printed
    else campaign.printed ++ Report.mismatch number c v.batch v.interactive

variable {σ : Type} [Source σ]

/-- The case drawn next, and what its trial showed. -/
def test (strategy : Strategy) (budget : Option Int) (fuel : Nat) (s : σ) :
    Attempt (Case × Trial.Verdict) × σ :=
  match (strategy.generate (σ := σ) {}).on s with
  | (.error f, s) => (some (.error f), s)
  | (.ok c, s) => ((c.trial.run budget fuel).map (·.map fun v => (c, v)), s)

/-- A campaign after `n` more cases, the first of which has the given
number. -/
def tests (strategy : Strategy) (budget : Option Int) (fuel : Nat) :
    Nat → Nat → Campaign → σ → Attempt Campaign
  | 0, _, campaign, _ => some (.ok campaign)
  | n + 1, number, campaign, s => match test strategy budget fuel s with
    | (none, _) => none
    | (some (.error f), _) => some (.error f)
    | (some (.ok (c, v)), s) =>
      tests strategy budget fuel n (number + 1) (campaign.record number c v) s

/-- The strategy for a name; a name that is not known stands for random
cells. -/
def strategyFor (name : String) : Strategy := (Strategy.ofName? name).getD .random

/-- A whole campaign, with its header and its summary. -/
def run (count : Int) (name : String) (budget : Option Int) (fuel : Nat) (s : σ) :
    Attempt Campaign :=
  let start : Campaign := { printed := Report.header count name budget }
  (tests (strategyFor name) budget fuel count.toNat 1 start s).map
    (·.map fun c => { c with printed := c.printed ++ c.statistics.summary })

end Campaign
end Intcode
