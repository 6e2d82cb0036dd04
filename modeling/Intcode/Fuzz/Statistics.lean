/-
# Statistics of trials

Counters over the trials recorded, and their summary.

Key definitions: `Statistics`, `Statistics.record`, `Statistics.summary`.
-/
import Intcode.Fuzz.Trial
import Intcode.Number.Binary64

namespace Intcode

/-- Counters over trials. -/
structure Statistics where
  total : Nat := 0
  mismatches : Nat := 0
  crashes : Nat := 0
  /-- Batch runs that ended in a fault other than a spent budget. -/
  rejected : Nat := 0
  /-- Batch runs that spent their budget. -/
  stepLimited : Nat := 0
  deriving DecidableEq, Repr

namespace Statistics

/-- One if something holds, else zero. -/
def tally (b : Bool) : Nat := if b then 1 else 0

/-- Whether an outcome is a crash. -/
def isCrash : Outcome → Bool
  | .crash _ => true
  | _ => false

/-- Whether an outcome is a spent budget. -/
def isStepLimit : Outcome → Bool
  | .exception reason => reason == Outcome.stepLimited
  | _ => false

/-- Whether an outcome is a fault other than a spent budget. -/
def isRejection : Outcome → Bool
  | .exception reason => reason != Outcome.stepLimited
  | _ => false

/-- Counts one trial. -/
def record (s : Statistics) (v : Trial.Verdict) : Statistics where
  total := s.total + 1
  mismatches := s.mismatches + tally (!v.agree)
  crashes := s.crashes + tally (isCrash v.batch || isCrash v.interactive)
  rejected := s.rejected + tally (isRejection v.batch)
  stepLimited := s.stepLimited + tally (isStepLimit v.batch)

/-- The trials that were neither rejected nor cut short. -/
def completed (s : Statistics) : Int := s.total - s.rejected - s.stepLimited

/-- The trials without a mismatch. -/
def correct (s : Statistics) : Int := s.total - s.mismatches

/-- The mismatches in percent: the rounded quotient, times a hundred, rounded
again. -/
def mismatchRate (s : Statistics) : Binary64 :=
  if s.total = 0 then .ofRatio 0 1
  else (Binary64.ofRatio s.mismatches s.total).mul (.ofRatio 100 1)

/-- A line of sixty marks. -/
def rule : String := String.ofList (List.replicate 60 '=')

/-- The summary of the counters. -/
def summary (s : Statistics) : String :=
  let verdict :=
    if s.mismatches = 0 then "\nNo mismatches detected!\n"
    else s!"Mismatch rate:          {s.mismatchRate.tenths}%\n"
  s!"\n{rule}\n" ++
  "Fuzzer Summary\n" ++
  String.ofList (List.replicate 40 '-') ++ "\n" ++
  s!"Total tests run:           {s.total}\n" ++
  s!"Rejected programs:         {s.rejected}\n" ++
  s!"Step limit reached:        {s.stepLimited}\n" ++
  s!"Ran to halt:               {s.completed}\n" ++
  s!"Mismatches found:          {s.mismatches}\n" ++
  s!"Crashes:                   {s.crashes}\n" ++
  s!"Correct:                   {s.correct}\n" ++ verdict

end Statistics
end Intcode
