/-
# The command line

Four options take a value: the number of tests, the seed, the strategy and
the budget. One takes none and asks for the journal. An option has a short
name, which its value may follow at once or after `=`, and a long one, which
may be cut short and which its value may follow after `=`. Either way the
value may also be the next argument. Short names may be run together. The
last of several values counts.

An argument is a value if it does not start with a dash, if it is a negative
number, or if it has a space in it and begins with no option.

Key definitions: `Options`, `Options.parse`, `CommandLine.run`.
-/
import Intcode.Fuzz.Campaign
import Intcode.Random.Twister
import Intcode.Text.Blank
import Intcode.Text.Numeral

namespace Intcode

/-- What the command line asks for. -/
structure Options where
  tests : Int := 1000
  seed : Option Int := none
  strategy : String := "random"
  budget : Int := Trial.standardBudget
  verbose : Bool := false
  deriving DecidableEq, Repr

namespace Options

/-- The options by their names. -/
inductive Name where
  | tests
  | seed
  | strategy
  | budget
  | verbose
  /-- Asks for help, which no campaign gives. -/
  | help
  deriving DecidableEq, Repr

namespace Name

/-- All options with their short and long names. -/
def table : List (Name × Char × List Char) := [
  (tests, 'n', "num-tests".toList), (seed, 's', "seed".toList),
  (strategy, 'g', "generator".toList), (budget, 'm', "max-steps".toList),
  (verbose, 'v', "verbose".toList), (help, 'h', "help".toList)]

/-- The option of a short name. -/
def ofShort? (c : Char) : Option Name := (table.find? fun row => row.2.1 = c).map (·.1)

/-- The options whose long names begin so. -/
def ofLong (start : List Char) : List Name :=
  (table.filter fun row => start.isPrefixOf row.2.2).map (·.1)

/-- Whether an option takes a value. -/
def takesValue : Name → Bool
  | verbose | help => false
  | _ => true

end Name

/-- What an argument says. -/
inductive Reading where
  /-- It is a value. -/
  | value
  /-- It names an option, and may give its value. -/
  | option (name : Name) (value : Option (List Char))
  /-- It is neither. -/
  | refused
  deriving DecidableEq, Repr

/-- What short names run together say. -/
def readShort : List Char → Reading
  | [] => .refused
  | c :: rest => match Name.ofShort? c with
    | none => .refused
    | some name =>
      if name.takesValue then match rest with
        | [] => .option name none
        | '=' :: value => .option name (some value)
        | value => .option name (some value)
      else if rest = [] then .option name none
      else readShort rest

/-- What a long name says, with the value after the first `=`; `other` is
what it says if it begins no option. -/
def readLong (other : Reading) (text : List Char) : Reading :=
  let start := text.takeWhile (· ≠ '=')
  let value := text.drop (start.length + 1)
  match Name.ofLong start with
  | [] => other
  | [name] =>
    if start.length = text.length then .option name none
    else if name.takesValue then .option name (some value)
    else .refused
  | _ => .refused

/-- Whether the text after a dash makes a negative number. -/
def isNumber (text : List Char) : Bool :=
  let digits := if text.getLast? = some '\n' then text.dropLast else text
  digits ≠ [] && digits.all fun c => (Text.digitValue? c).isSome

/-- What an argument says. -/
def read (argument : List Char) : Reading :=
  match argument with
  | '-' :: text =>
    let other := if isNumber text || text.contains ' ' then Reading.value else .refused
    match text with
    | [] => .value
    | '-' :: text => readLong other text
    | c :: _ => if (Name.ofShort? c).isSome then readShort text else other
  | _ => .value

/-- Whether a character is an information separator. -/
def isSeparator (c : Char) : Bool := 0x1c ≤ c.toNat && c.toNat ≤ 0x1f

/-- The integer that a value is. Blanks around it do not count; here the
information separators are no blanks. -/
def integer? (value : List Char) : Option Int :=
  if value.any isSeparator then none else Text.integer? (Text.strip value)

/-- The options with one of them set, if its value is a good one. -/
def set? (name : Name) (value : List Char) (o : Options) : Option Options :=
  match name with
  | .tests => (integer? value).map fun n => { o with tests := n }
  | .seed => (integer? value).map fun n => { o with seed := some n }
  | .budget => (integer? value).map fun n => { o with budget := n }
  | .strategy =>
    let name := String.ofList value
    (Strategy.ofName? name).map fun _ => { o with strategy := name }
  | .verbose => some { o with verbose := true }
  | .help => none

/-- The options that arguments ask for, if all of them are understood. -/
def parse : List (List Char) → Options → Option Options
  | [], o => some o
  | argument :: rest, o => match read argument with
    | .option name (some value) => (set? name value o).bind (parse rest)
    | .option name none =>
      if name.takesValue then match rest with
        | [] => none
        | value :: rest =>
          if read value = .value then (set? name value o).bind (parse rest) else none
      else (set? name [] o).bind (parse rest)
    | _ => none

end Options

namespace CommandLine

/-- What a command leaves behind. -/
structure Ended where
  status : Nat
  printed : String
  deriving DecidableEq, Repr

/-- The campaign that options ask for; `clock` is the seed if they name
none. -/
def campaign (o : Options) (clock : Int) (fuel : Nat) : Attempt Campaign :=
  Campaign.run o.tests o.strategy (some o.budget) fuel (Twister.ofSeed (o.seed.getD clock))

/-- Runs a command: a campaign, or nothing and the status two if the
arguments are not understood. -/
def run (arguments : List String) (clock : Int) (fuel : Nat) : Attempt Ended :=
  match Options.parse (arguments.map String.toList) {} with
  | none => some (.ok ⟨2, ""⟩)
  | some o => (campaign o clock fuel).map (·.map fun c => ⟨0, c.printed⟩)

end CommandLine
end Intcode
