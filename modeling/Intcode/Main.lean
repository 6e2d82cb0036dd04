/-
# The program

Runs a campaign of random trials as the command line asks, and prints its
reports. With `-v` the journal goes to the error stream.
-/
import Intcode.CommandLine
import Intcode.Journal.Fuzz

open Intcode

/-- Fuel for drives without a budget; no campaign comes near it. -/
def drivingFuel : Nat := 4611686018427387904

def main (arguments : List String) : IO UInt32 := do
  let clock ← IO.monoNanosNow
  match Options.parse (arguments.map String.toList) {} with
  | none =>
    IO.eprintln "usage: [-n TESTS] [-s SEED] [-g GENERATOR] [-m MAX_STEPS] [-v]"
    return 2
  | some o =>
    if o.verbose then
      let source := Twister.ofSeed (o.seed.getD clock)
      for entry in Campaign.entries o.tests o.strategy (some o.budget) drivingFuel source do
        IO.eprintln entry.describe
    match CommandLine.campaign o clock drivingFuel with
    | some (.ok campaign) =>
      IO.print campaign.printed
      return 0
    | some (.error fault) =>
      IO.eprintln fault.written
      return 1
    | none => return 1
