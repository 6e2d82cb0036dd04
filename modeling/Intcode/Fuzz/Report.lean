/-
# Reports

The texts that a campaign prints: its header, and a report of each mismatch.

Key definitions: `Report.header`, `Report.outcome`, `Report.mismatch`.
-/
import Intcode.Fuzz.Statistics
import Intcode.Listing
import Intcode.ProgramText

namespace Intcode.Report

/-- Integers with a comma and a space between them. -/
def joined (ns : List Int) : String := String.intercalate ", " (ns.map toString)

/-- Integers in brackets. -/
def bracketed (ns : List Int) : String := s!"[{joined ns}]"

/-- Integers in parentheses; a single one is followed by a comma. -/
def parenthesised : List Int → String
  | [n] => s!"({n},)"
  | ns => s!"({joined ns})"

/-- An outcome as a report shows it. -/
def outcome : Outcome → String
  | .success outputs memory =>
    s!"Success(outputs={parenthesised outputs}, memory={parenthesised memory})"
  | .exception reason => s!"ExceptionThrown(reason={Text.quoted reason})"
  | .crash reason => s!"Crash(reason={Text.quoted reason})"

/-- The header of a campaign. -/
def header (tests : Int) (strategy : String) (budget : Option Int) : String :=
  let steps := (budget.map toString).getD "unlimited"
  s!"Intcode Fuzzer - Running {tests} tests\n" ++
  s!"Generator: {strategy}\n" ++
  s!"Step budget: {steps}\n" ++
  s!"{Statistics.rule}\n"

/-- The report of a mismatch. -/
def mismatch (number : Int) (c : Case) (batch interactive : Outcome) : String :=
  let listing := (Listing.ofProgram c.program).map fun line => s!"    {line}\n"
  let oracle := match c.expected with
    | none => ""
    | some outputs => s!"  Oracle:      {bracketed outputs}\n"
  s!"\nTest {number}: Mismatch found\n" ++
  s!"  Program: {ProgramText.format c.program}\n" ++
  String.join listing ++
  s!"  Inputs:      {bracketed c.inputs}\n" ++
  oracle ++
  s!"  Batch:       {outcome batch}\n" ++
  s!"  Interactive: {outcome interactive}\n"

end Intcode.Report
