import Intcode.Access
import Intcode.Cell
import Intcode.CommandLine
import Intcode.Enumerate.Cases
import Intcode.Enumerate.Expressions
import Intcode.Expr
import Intcode.Expr.Code
import Intcode.Expr.Draft
import Intcode.Expr.Random
import Intcode.Fault
import Intcode.Fuzz.Campaign
import Intcode.Fuzz.Case
import Intcode.Fuzz.Generate
import Intcode.Fuzz.Report
import Intcode.Fuzz.Statistics
import Intcode.Fuzz.Trial
import Intcode.Instruction
import Intcode.Journal
import Intcode.Journal.Fuzz
import Intcode.Journal.Ring
import Intcode.Journal.Series
import Intcode.LazyList
import Intcode.Listing
import Intcode.Machine
import Intcode.Machine.Call
import Intcode.Machine.Drive
import Intcode.Memory
import Intcode.Number.Binary64
import Intcode.ProgramText
import Intcode.Random.Draw
import Intcode.Random.Source
import Intcode.Random.Twister
import Intcode.Ring
import Intcode.Series
import Intcode.Text.Align
import Intcode.Text.Blank
import Intcode.Text.Numeral
import Intcode.Text.Printable
import Intcode.Text.Quoted
import Intcode.Word
import Intcode.Main
import Intcode.Proofs.Access
import Intcode.Proofs.Memory
import Intcode.Proofs.Step
import Intcode.Proofs.Run
import Intcode.Proofs.Budget
import Intcode.Proofs.Word
import Intcode.Proofs.Code
import Intcode.Proofs.Cost
import Intcode.Proofs.Compile
import Intcode.Proofs.Program
import Intcode.Proofs.Trial
import Intcode.Proofs.Schedule
import Intcode.Proofs.Failure
import Intcode.Proofs.Zeros
import Intcode.Proofs.Tape
import Intcode.Proofs.Refinement
import Intcode.Proofs.Reachable
import Intcode.Proofs.Suspension
import Intcode.Proofs.Limit
import Intcode.Proofs.Ring
import Intcode.Proofs.Lockstep
import Intcode.Proofs.Draw
import Intcode.Proofs.Generate
import Intcode.Proofs.Campaign
import Intcode.Proofs.Halted
import Intcode.Proofs.Frame
import Intcode.Proofs.Coherence
import Intcode.Proofs.Legible
import Intcode.Proofs.Listing
import Intcode.Proofs.Series
import Intcode.Proofs.Numeral
import Intcode.Proofs.ProgramText
import Intcode.Proofs.Unread
import Intcode.Proofs.Resumption
import Intcode.Proofs.Silent
import Intcode.Proofs.Crash
import Intcode.Proofs.WordFormat
import Intcode.Proofs.Coverage
import Intcode.Proofs.Decompile
import Intcode.Proofs.Distinct
import Intcode.Proofs.RoundTrip
import Intcode.Proofs.Legal
import Intcode.Proofs.Relocation
import Intcode.Proofs.Reading
import Intcode.Proofs.Structured
import Intcode.Proofs.Statistics
import Intcode.Proofs.Enumeration
import Intcode.Proofs.Suite
import Intcode.Proofs.AddressMap
