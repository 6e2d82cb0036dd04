/-
# A budget cuts a run off and changes nothing else

A run to the halt with a budget does what the unlimited run does, for as many
instructions as the budget allows. The halt is one of the instructions that a
run completes; a wait for input and a fault are none (`Machine.lastStep`). So a
run that halts needs a budget for every instruction up to its halt, and a run
that fails needs one instruction more than it completes, since the budget is
looked at before each of them (`Machine.Runs.counted`).

Key definitions: `Machine.lastStep`, `Machine.RunsIn`.
Key theorems: `Machine.Runs.counted`, `Machine.Runs.spent`, `Machine.Runs.budget`,
`Machine.run_within`.
-/
import Intcode.Proofs.Run

namespace Intcode
namespace Machine

/-- An unlimited run to the halt comes to an end, with this answer and this
machine, and has completed `n` instructions by then. -/
structure RunsIn (m : Machine) (inputs : List Datum) (n : Nat) (answer : Except Fault (List Int))
    (m' : Machine) : Prop where
  runs : m.Runs inputs answer m'
  counted : m'.steps = m.steps + n

/-- The number of instructions completed by the step that ends a run with this
answer. -/
def lastStep : Except Fault (List Int) → Nat
  | .ok _ => 1
  | .error _ => 0

/-- Values that are queued on a machine that has not halted are no step. -/
theorem feed_live {m start : Machine} {values : List Datum} (hh : m.status ≠ .halted)
    (h : m.feed values = (.ok (), start)) : start.status ≠ .halted ∧ start.steps = m.steps := by
  obtain ⟨xs, -, -, ⟨-, rfl⟩ | ⟨-, rfl⟩⟩ := feed_taken h
  · exact ⟨hh, rfl⟩
  · exact ⟨Status.noConfusion, rfl⟩

/-- An answer that a step has ended does not depend on the budget. -/
theorem Stretch.answer_ended {told : Except Fault (Option Event)} {e : Ending}
    (he : ending? told = some e) (budget : Option Int) (out : List Int) (m : Machine) :
    Stretch.answer budget ⟨out, e, m⟩ = Stretch.answer none ⟨out, e, m⟩ := by
  rcases told with f | _ | v | a | _ <;> cases he <;> rfl

/-- The step that ends a run completes an instruction if it is the halt, and
none otherwise. -/
theorem lastStep_counted {last m' : Machine} {told : Except Fault (Option Event)} {e : Ending}
    {out : List Int} {answer : Except Fault (List Int)} (hh : last.status ≠ .halted)
    (h : last.step = (told, m')) (he : ending? told = some e)
    (ha : Stretch.answer none ⟨out, e, m'⟩ = some answer) :
    m'.steps = last.steps + lastStep answer := by
  have move := Move.of_step hh h
  rcases told with f | _ | v | a | _ <;> cases he <;> cases ha
  · cases move with
    | fails => rfl
  · cases move with
    | waits => rfl
  · cases move with
    | halts => rfl

namespace Runs

variable {m start m' : Machine} {inputs : List Datum}

/-- A run that comes to an end has completed instructions up to the step that
ends it, and so many does its counter tell. Every allowance that covers them
leads to the same end. -/
theorem counted {answer : Except Fault (List Int)} (hh : m.status ≠ .halted)
    (hf : m.feed inputs = (.ok (), start)) (h : m.Runs inputs answer m') :
    ∃ k out last, Steps k start out last ∧ m'.steps = m.steps + k + lastStep answer ∧
      ∀ budget fuel, k < allowance budget fuel →
        m.run inputs budget fuel = (some answer, m') := by
  obtain ⟨k, out, last, told, e, hr, hstep, he, ha⟩ := h.course hh hf
  obtain ⟨hlive, hfed⟩ := feed_live hh hf
  refine ⟨k, out, last, hr, ?_, fun budget fuel hk => ?_⟩
  · have hlast := lastStep_counted (hr.live hlive) hstep he ha
    have hsteps := hr.completed.1
    omega
  · rw [run_ends hh hf hr hstep he hk, Stretch.answer_ended he, ha]

/-- A run that has not come to an end within an allowance has completed as many
instructions, and there it is given up. -/
theorem spent (budget : Option Int) (fuel : Nat) (hh : m.status ≠ .halted)
    (hf : m.feed inputs = (.ok (), start))
    (h : ∀ answer m', m.Runs inputs answer m' →
      m.steps + allowance budget fuel < m'.steps + (1 - lastStep answer)) :
    ∃ out window m', Steps (allowance budget fuel) start out m' ∧
      m'.steps = m.steps + allowance budget fuel ∧
      m.run inputs budget fuel =
        (budget.map fun _ => .error (.stepLimit window m'.pointer), m') := by
  obtain ⟨hlive, hfed⟩ := feed_live hh hf
  rcases run_cases hh hf budget fuel with
    ⟨out, window, m', hr, hrun⟩ | ⟨k, out, last, told, m', e, hk, hr, hstep, he, -⟩
  · refine ⟨out, window, m', hr, ?_, hrun⟩
    rw [hr.completed.1, hfed]
  · -- a step within the allowance would end the run
    exfalso
    obtain ⟨answer, ha⟩ : ∃ answer, Stretch.answer none ⟨out, e, m'⟩ = some answer := by
      rcases told with f | _ | v | a | _ <;> cases he <;> exact ⟨_, rfl⟩
    have hlong := h answer m' (.of_fed hh hf hr hstep he ha)
    have hlast := lastStep_counted (hr.live hlive) hstep he ha
    have hsteps := hr.completed.1
    have hone : lastStep answer ≤ 1 := by cases answer <;> simp [lastStep]
    omega

/-- A run that comes to its halt when unlimited does so within a budget that
allows as many instructions, and ends by a step limit within a smaller one. -/
theorem budget {out : List Int} (hh : m.status ≠ .halted) (hf : m.feed inputs = (.ok (), start))
    (h : m.Runs inputs (.ok out) m') (budget : Int) (fuel : Nat) :
    (m'.steps ≤ m.steps + budget → m.run inputs (some budget) fuel = (some (.ok out), m')) ∧
    (m.steps + budget < m'.steps → ∃ window pointer m'',
      m.run inputs (some budget) fuel = (some (.error (.stepLimit window pointer)), m'')) := by
  obtain ⟨k, -, -, -, hk, within⟩ := h.counted hh hf
  have hlast : m'.steps = m.steps + k + 1 := hk
  refine ⟨fun hle => within (some budget) fuel ?_, fun hlt => ?_⟩
  · show k < budget.toNat
    omega
  · obtain ⟨_, window, m'', -, -, hrun⟩ := spent (some budget) fuel hh hf
      fun answer m'' h' => by
        obtain ⟨rfl, rfl⟩ := h.det h'
        show m.steps + budget.toNat < m'.steps + 0
        omega
    exact ⟨window, m''.pointer, m'', hrun⟩

end Runs

/-- The instructions that a run completes are those up to the step that ends it,
and the halt. Every allowance that covers those before that step leads to the
same end. -/
theorem RunsIn.within {m start m' : Machine} {inputs : List Datum} {n : Nat}
    {answer : Except Fault (List Int)} (hh : m.status ≠ .halted)
    (hf : m.feed inputs = (.ok (), start)) (h : m.RunsIn inputs n answer m') :
    ∃ j, n = j + lastStep answer ∧ ∀ budget fuel, j < allowance budget fuel →
      m.run inputs budget fuel = (some answer, m') := by
  obtain ⟨j, -, -, -, hj, within⟩ := h.runs.counted hh hf
  have hcount := h.counted
  exact ⟨j, by omega, within⟩

/-- A run with a budget comes to an end. -/
theorem run_budget_isSome (m : Machine) (inputs : List Datum) (k : Int) (fuel : Nat) :
    (m.run inputs (some k) fuel).1.isSome := by
  by_cases hh : m.status = .halted
  · rw [run_halted hh]
    rfl
  rcases hf : m.feed inputs with ⟨f | ⟨⟩, start⟩
  · simp only [run, hh, if_false, hf]
    rfl
  · rw [run_fed hh hf]
    unfold Stretch.answer
    split <;> rfl

/-- A run with a budget of `k` instructions, compared with the unlimited run
that starts from the same machine with the same inputs. If the unlimited run
halts after at most `k` instructions, the halt among them, the run within the
budget gives the same outputs and ends with the same machine. If it fails after
fewer than `k`, so does the run within the budget, by the same fault and with the
same machine. In every other case, also if the unlimited run goes on for ever,
the run within the budget ends by a step limit. It has then completed just `k`
instructions, and its machine is the one that the unlimited run comes to after
`k` instructions. It always comes to an end. -/
theorem run_within (m : Machine) {xs : List Int} (valid : ∀ x ∈ xs, InCell x) (k fuel : Nat) :
    (∀ n out m', m.RunsIn (xs.map .int) n (.ok out) m' → n ≤ k →
      m.run (xs.map .int) (some k) fuel = (some (.ok out), m')) ∧
    (∀ n f m', m.RunsIn (xs.map .int) n (.error f) m' → n < k →
      m.run (xs.map .int) (some k) fuel = (some (.error f), m')) ∧
    ((∀ n out m', m.RunsIn (xs.map .int) n (.ok out) m' → k < n) →
      (∀ n f m', m.RunsIn (xs.map .int) n (.error f) m' → k ≤ n) →
      ∃ out window m', Steps k (m.feed (xs.map .int)).2 out m' ∧ m'.steps = m.steps + k ∧
        m.run (xs.map .int) none k = (none, m') ∧
        m.run (xs.map .int) (some k) fuel =
          (some (.error (.stepLimit window m'.pointer)), m')) ∧
    (m.run (xs.map .int) (some k) fuel).1.isSome := by
  have isSome := run_budget_isSome m (xs.map .int) k fuel
  by_cases hh : m.status = .halted
  · -- the run is over before it begins
    have ended : m.RunsIn (xs.map .int) 0 (.ok []) m := ⟨⟨0, fun fuel _ => run_halted hh ..⟩, rfl⟩
    refine ⟨fun n out m' h _ => ?_, fun n f m' h _ => ?_, fun hok _ => ?_, isSome⟩
    · obtain ⟨hout, rfl⟩ := h.runs.det ended.runs
      rw [run_halted hh, hout]
    · obtain ⟨hf, -⟩ := h.runs.det ended.runs
      cases hf
    · have := hok 0 [] m ended
      omega
  rcases hf : m.feed (xs.map .int) with ⟨fed, start⟩
  obtain rfl : fed = .ok () := by
    have := feed_ok valid hh
    rwa [hf] at this
  refine ⟨fun n out m' h hn => ?_, fun n f m' h hn => ?_, fun hok hfail => ?_, isSome⟩
  · obtain ⟨j, hj, within⟩ := h.within hh hf
    have hhalt : n = j + 1 := hj
    exact within (some k) fuel (show j < k by omega)
  · obtain ⟨j, hj, within⟩ := h.within hh hf
    have hfault : n = j := hj
    exact within (some k) fuel (show j < k by omega)
  · have late (answer : Except Fault (List Int)) (m' : Machine)
        (h : m.Runs (xs.map .int) answer m') : m.steps + k < m'.steps + (1 - lastStep answer) := by
      obtain ⟨j, -, -, -, hj, -⟩ := h.counted hh hf
      cases answer with
      | ok out =>
        have := hok (j + 1) out m' ⟨h, hj⟩
        simp only [lastStep] at hj ⊢
        omega
      | error f =>
        have := hfail j f m' ⟨h, hj⟩
        simp only [lastStep] at hj ⊢
        omega
    obtain ⟨out, window, m', hr, hsteps, hrun⟩ := Runs.spent (some (k : Int)) fuel hh hf late
    obtain ⟨_, _, m'', hr', -, hgiven⟩ := Runs.spent none k hh hf late
    obtain ⟨-, rfl⟩ := hr.det hr'
    exact ⟨out, window, m', hr, hsteps, hgiven, hrun⟩

/-- A waiting machine that is to give out its input. With an input it halts after
three instructions, so a budget of three lets it halt and a budget of two does
not. Without one it fails after none, so a budget of one lets it fail and a budget
of none does not. -/
theorem run_within_waiting :
    let m : Machine :=
      { status := .awaitingInput, awaited := some 0, memory := ⟨#[3, 0, 4, 0, 99], none⟩ }
    let told : Machine :=
      { pointer := 4, lastOutput := some 7, steps := 2, memory := ⟨#[7, 0, 4, 0, 99], none⟩ }
    let m' : Machine := { told with status := .halted, steps := 3 }
    (∀ x ∈ [(7 : Int)], InCell x) ∧ m.RunsIn ([7].map .int) 3 (.ok [7]) m' ∧
      m.run ([7].map .int) (some 3) 0 = (some (.ok [7]), m') ∧
      (∃ window, m.run ([7].map .int) (some 2) 0 =
        (some (.error (.stepLimit window 4)), told)) ∧
      m.RunsIn [] 0 (.error (.runStarved 0 0)) m ∧
      m.run [] (some 1) 0 = (some (.error (.runStarved 0 0)), m) ∧
      ∃ window, m.run [] (some 0) 0 = (some (.error (.stepLimit window 0)), m) := by
  intro m told m'
  have fits : ∀ x ∈ [(7 : Int)], InCell x := by decide
  have steps : Steps 2 (m.resume [7]) [7] told := by
    have takes : (m.resume [7]).step =
        (.ok none, { told with pointer := 2, lastOutput := none, steps := 1 }) := by
      with_unfolding_all rfl
    have tells : Machine.step { told with pointer := 2, lastOutput := none, steps := 1 } =
        (.ok (some (.output 7)), told) := by with_unfolding_all rfl
    exact .silent takes (.output tells (.refl told))
  have halts : told.step = (.ok (some .halted), m') := by with_unfolding_all rfl
  have waits : m.step = (.ok (some (.awaiting 0)), m) := by with_unfolding_all rfl
  have three : m.RunsIn ([7].map .int) 3 (.ok [7]) m' :=
    ⟨.of_fed Status.noConfusion rfl steps halts rfl rfl, rfl⟩
  have none : m.RunsIn [] 0 (.error (.runStarved 0 0)) m :=
    ⟨.of_fed Status.noConfusion rfl (.refl m) waits rfl rfl, rfl⟩
  obtain ⟨enough, -, -, -⟩ := run_within m fits 3 0
  obtain ⟨-, -, short, -⟩ := run_within m fits 2 0
  have empty : ∀ x ∈ ([] : List Int), InCell x := List.forall_mem_nil _
  obtain ⟨-, fails, -, -⟩ := run_within m empty 1 0
  obtain ⟨-, -, stops, -⟩ := run_within m empty 0 0
  refine ⟨fits, three, enough 3 [7] m' three (by decide), ?_, none,
    fails 0 _ m none (by decide), ?_⟩
  · obtain ⟨out, window, last, hr, -, -, hrun⟩ := short
      (fun n out last h => by
        obtain ⟨-, rfl⟩ := h.runs.det three.runs
        have := h.counted
        simp only [m, m'] at this
        omega)
      (fun n f last h => by
        obtain ⟨hf, -⟩ := h.runs.det three.runs
        cases hf)
    obtain ⟨-, rfl⟩ := hr.det steps
    exact ⟨window, hrun⟩
  · obtain ⟨out, window, last, hr, -, -, hrun⟩ := stops
      (fun n out last h => by
        obtain ⟨hf, -⟩ := h.runs.det none.runs
        cases hf)
      (fun n f last _ => Nat.zero_le n)
    cases hr
    exact ⟨window, hrun⟩

end Machine
end Intcode
