/-
# The two runs of a trial

The batch run of a trial has all inputs queued and goes on in one drive. The
interactive run goes on in ticks, each within what is left of the budget, and
answers each wait with the next input. Between two ticks the interactive
machine, with its pending inputs queued, is the batch machine. So the two runs
come to the same end (`Machine.converse_collect`), and their outcomes are equal
(`Case.batch_interactive`).

Key definitions: `Machine.Concurs`, `Machine.Idle`.
Key theorems: `Machine.converse_collect`, `Case.outcomes_equal`, `Case.batch_interactive`.
-/
import Intcode.Fuzz.Trial
import Intcode.Proofs.Run

namespace Intcode
namespace Machine

/-- What an interactive run answers, and with which memory, where the drive of
the batch run came to this end. -/
inductive Concurs (budget : Option Int) : Stretch → Attempt (List Int) → Machine → Prop where
  | halted {outputs : List Int} {m m' : Machine} (memory : m'.memory = m.memory) :
      Concurs budget ⟨outputs, .halted, m⟩ (some (.ok outputs)) m'
  | starved {outputs : List Int} {address : Int} {m m' : Machine} :
      Concurs budget ⟨outputs, .awaiting address, m⟩ (some (.error (.unanswered address))) m'
  | failed {outputs : List Int} {f : Fault} {m m' : Machine} (kind : f.kind ∈ stepFaults) :
      Concurs budget ⟨outputs, .failed f, m⟩ (some (.error f)) m'
  | limited {outputs : List Int} {window : Nat} {left pointer k : Int} {m m' : Machine}
      (bounded : budget = some k) :
      Concurs budget ⟨outputs, .spent window, m⟩ (some (.error (.stepLimit left pointer))) m'
  | unending {outputs : List Int} {window : Nat} {m m' : Machine} (unbounded : budget = none) :
      Concurs budget ⟨outputs, .spent window, m⟩ none m'

/-- What is left of a budget allows what is left of its allowance. -/
theorem allowance_left (budget : Option Int) (fuel steps : Nat) :
    allowance (budget.map fun k => max (k - steps) 0) (fuel - steps) =
      allowance budget fuel - steps := by
  cases budget with
  | none => rfl
  | some k =>
    simp only [Option.map, allowance]
    omega

/-- The machine of an interactive run between two ticks: it runs, and nothing is
queued. -/
structure Idle (m : Machine) : Prop where
  running : m.status = .running
  settled : m.awaited = none
  empty : m.inputs = []

theorem Idle.steps {m m' : Machine} {n : Nat} {out : List Int} (h : m.Idle)
    (hr : Steps n m out m') : m'.Idle := by
  obtain ⟨-, hs, ha⟩ := hr.completed
  exact ⟨hs h.running, ha h.settled, List.suffix_nil.1 (h.empty ▸ hr.inputs)⟩

theorem Idle.provide {m m' m'' : Machine} {dst v : Int} (h : m.Idle)
    (hw : m.step = (.ok (some (.awaiting dst)), m')) (hp : m'.provide (.int v) = (.ok (), m'')) :
    m''.Idle ∧ m''.steps = m.steps + 1 := by
  obtain ⟨-, hsteps, hs, ha, hi⟩ := provide_ok hp
  obtain ⟨-, -, -, hm⟩ := step_awaiting hw
  rw [hm] at hi hsteps
  exact ⟨⟨hs, ha, hi.trans h.empty⟩, hsteps⟩

/-! ### The drive of the batch machine past one tick -/

variable {m m' m'' : Machine} {window n : Nat} {outputs : List Int} {dst v : Int}

theorem collect_output (h : m.step = (.ok (some (.output v)), m')) (pending : List Int) :
    (m.enqueue pending).collect window outputs (n + 1) =
      (m'.enqueue pending).collect n (v :: outputs) n := by
  rw [collect, step_enqueue h (fun a ha => by cases ha)]

/-- Where the interactive machine takes `v` as an answer, the batch machine,
with `v` queued before the other pending values, takes it in a step. -/
theorem collect_provided (hm : m.Idle) (h : m.step = (.ok (some (.awaiting dst)), m'))
    (hp : m'.provide (.int v) = (.ok (), m'')) (rest : List Int) :
    (m.enqueue (v :: rest)).collect window outputs (n + 1) =
      (m''.enqueue rest).collect window outputs n := by
  have hstep := (Waiting.of_step h).provide v rest
  rw [hp, ← step_awaiting_enqueue h hm.running hm.settled] at hstep
  rw [collect, hstep]

/-- Where the interactive machine fails to take `v`, so does the batch
machine. -/
theorem collect_refused {f : Fault} (hm : m.Idle) (h : m.step = (.ok (some (.awaiting dst)), m'))
    (hp : m'.provide (.int v) = (.error f, m'')) (rest : List Int) :
    (m.enqueue (v :: rest)).collect window outputs (n + 1) =
        ⟨outputs.reverse, .failed f, m'.resume (v :: rest)⟩ ∧ f.kind ∈ stepFaults := by
  have hstep := (Waiting.of_step h).provide v rest
  rw [hp] at hstep
  have hkind := step_fault hstep
  rw [← step_awaiting_enqueue h hm.running hm.settled] at hstep
  exact ⟨collect_ends hstep rfl .., hkind⟩

/-! ### Lockstep -/

/-- The interactive run from an idle machine concurs with the drive from the
machine that has the pending values queued. -/
theorem converse_collect (budget : Option Int) (fuel : Nat) (hm : m.Idle)
    (hn : allowance budget fuel - m.steps < n) (pending : List Int) (window : Nat)
    (outputs : List Int) :
    let answered := m.converse budget fuel (pending.map .int) outputs n
    Concurs budget ((m.enqueue pending).collect window outputs (allowance budget fuel - m.steps))
      answered.1 answered.2 := by
  -- on the ticks: each one but the last leaves less of the allowance
  induction n generalizing m pending window outputs with
  | zero => omega
  | succ n ih =>
    have hh : m.status ≠ .halted := by rw [hm.running]; decide
    rcases advance_cases (allowance budget fuel - m.steps) m with
      ⟨m₁, hr, hadv⟩ | ⟨k, m₁, told, m₂, hk, hr, hstep, hadv⟩
    · obtain ⟨w, hw⟩ := collect_steps (hr.enqueue pending) window outputs 0
      rw [Nat.add_zero] at hw
      simp only [converse, tick, hh, if_false, allowance_left, hadv, hw, collect]
      cases budget with
      | none => exact .unending rfl
      | some k => exact .limited rfl
    · obtain ⟨j, hj⟩ : ∃ j, allowance budget fuel - m.steps = k + (j + 1) :=
        ⟨allowance budget fuel - m.steps - k - 1, by omega⟩
      obtain ⟨w, hw⟩ := collect_steps (hr.enqueue pending) window outputs (j + 1)
      have hm₁ := hm.steps hr
      have hsteps := hr.completed.1
      rw [hj, hw]
      simp only [converse, tick, hh, if_false, allowance_left, hadv]
      rcases told with f | v | address | _
      · -- a fault
        rw [collect_ends (step_enqueue hstep (fun a h => by cases h) _) rfl]
        exact .failed (step_fault hstep)
      · -- an output
        have hone : Steps 1 m₁ [v] m₂ := .output hstep (.refl m₂)
        have hleft : allowance budget fuel - m₂.steps = j := by
          have := hone.completed.1
          omega
        have := ih (hm₁.steps hone) (by omega) pending j (v :: outputs)
        rw [hleft] at this
        rwa [collect_output hstep]
      · -- a wait
        cases pending with
        | nil =>
          rw [enqueue_nil, collect_ends hstep rfl]
          exact .starved
        | cons v rest =>
          rcases hp : m₂.provide (.int v) with ⟨f | ⟨⟩, m₃⟩ <;> simp only [List.map_cons, hp]
          · obtain ⟨hc, hkind⟩ := collect_refused hm₁ hstep hp rest
            rw [hc]
            exact .failed hkind
          · obtain ⟨hm₃, hsteps₃⟩ := hm₁.provide hstep hp
            have hleft : allowance budget fuel - m₃.steps = j := by omega
            have := ih hm₃ (by omega) rest w outputs
            rw [hleft] at this
            rwa [collect_provided hm₁ hstep hp]
      · -- the halt
        rw [collect_ends (step_enqueue hstep (fun a h => by cases h) _) rfl]
        exact .halted rfl

/-! ### Outcomes -/

theorem ofMachine_of_stepFaults {kind : Fault.Kind} (h : kind ∈ stepFaults) :
    kind.ofMachine = true := by
  simp only [stepFaults, List.mem_cons, List.not_mem_nil, or_false] at h
  rcases h with rfl | rfl | rfl | rfl | rfl <;> rfl

end Machine

namespace Outcome

/-- An outcome that is no crash. -/
def Regular (o : Outcome) : Prop := ∀ reason, o ≠ .crash reason

theorem ofAnswer_error {f : Fault} (h : f.kind.ofMachine = true) (run : String) (m : Machine) :
    ofAnswer run (.error f) m = .exception f.kind.name := by
  simp only [ofAnswer, h, if_true]

theorem regular_exception (reason : String) : (exception reason).Regular := by
  intro _ h
  cases h

end Outcome

open Outcome in
/-- Runs that concur have the same outcome, which is no crash. -/
theorem Machine.Concurs.outcome {budget : Option Int} {s : Stretch} {answer : Attempt (List Int)}
    {m : Machine} (h : Concurs budget s answer m) :
    (s.answer budget = none ∧ answer = none ∧ budget = none) ∨
      ∃ a b, s.answer budget = some a ∧ answer = some b ∧
        ofAnswer "batch" a s.machine = ofAnswer "interactive" b m ∧
        (ofAnswer "batch" a s.machine).Regular := by
  have failed (f g : Fault) (hf : f.kind.ofMachine = true) (hg : g.kind = f.kind) (m' : Machine) :
      ofAnswer "batch" (.error f) m' = ofAnswer "interactive" (.error g) m ∧
        (ofAnswer "batch" (.error f) m').Regular := by
    have hg' : g.kind.ofMachine = true := by rw [hg, hf]
    rw [ofAnswer_error hf, ofAnswer_error hg', hg]
    exact ⟨rfl, regular_exception _⟩
  cases h with
  | halted hm =>
    refine .inr ⟨_, _, rfl, rfl, ?_, fun _ h => by cases h⟩
    simp only [ofAnswer, hm]
  | @starved _ address m' =>
    exact .inr ⟨_, _, rfl, rfl,
      failed (.runStarved address m'.pointer) (.unanswered address) rfl rfl _⟩
  | @failed _ f _ _ hk =>
    exact .inr ⟨_, _, rfl, rfl, failed f f (ofMachine_of_stepFaults hk) rfl _⟩
  | @limited _ window left pointer _ m' _ hb =>
    subst hb
    exact .inr ⟨_, _, rfl, rfl,
      failed (.stepLimit window m'.pointer) (.stepLimit left pointer) rfl rfl _⟩
  | unending hb =>
    subst hb
    exact .inl ⟨rfl, rfl, rfl⟩

namespace Case

variable {c : Case} {limit : Option Int}

/-- The two runs of a case whose values all fit both go on for longer than
their fuel, which only unlimited runs can, or come to one outcome. -/
theorem outcomes_equal (hp : ∀ x ∈ c.program, InCell x) (hi : ∀ x ∈ c.inputs, InCell x)
    (budget : Option Int) (fuel : Nat) :
    (c.trial.batch budget limit fuel = none ∧ c.trial.interactive budget limit fuel = none ∧
      budget = none) ∨
    ∃ o, c.trial.batch budget limit fuel = some (.ok o) ∧
      c.trial.interactive budget limit fuel = some (.ok o) ∧ o.Regular := by
  let m : Machine := .fresh c.program limit
  have hboot : Machine.boot (c.program.map .int) limit = .ok m := Machine.boot_ints hp limit
  have hrun := Machine.run_eq (m := m) rfl hi budget fuel
  have hn : allowance budget fuel - m.steps < allowance budget fuel + 1 := by omega
  have hconcurs := Machine.converse_collect budget fuel (m := m) ⟨rfl, rfl, rfl⟩ hn c.inputs
    (allowance budget fuel) []
  rcases hm : m.converse budget fuel (c.inputs.map .int) [] (allowance budget fuel + 1) with
    ⟨answer, m'⟩
  rw [hm] at hconcurs
  simp only [Trial.batch, Trial.interactive, hboot, trial, hm, hrun]
  rcases hconcurs.outcome with ⟨hs, rfl, hb⟩ | ⟨a, b, hs, rfl, ho, hregular⟩
  · rw [show m.steps = 0 from rfl, Nat.sub_zero] at hs
    rw [hs]
    exact .inl ⟨rfl, rfl, hb⟩
  · rw [show m.steps = 0 from rfl, Nat.sub_zero] at hs ho hregular
    rw [hs]
    exact .inr ⟨_, rfl, by rw [ho], hregular⟩

/-- The outcome of an unlimited batch run does not change with more fuel. -/
theorem batch_stable (hp : ∀ x ∈ c.program, InCell x) (hi : ∀ x ∈ c.inputs, InCell x)
    {n fuel : Nat} (hn : n ≤ fuel) {result : Except Fault Outcome}
    (h : c.trial.batch none limit n = some result) :
    c.trial.batch none limit fuel = some result := by
  have hboot : Machine.boot c.trial.program limit = .ok (.fresh c.program limit) :=
    Machine.boot_ints hp limit
  simp only [Trial.batch, hboot] at h ⊢
  rcases hr : (Machine.fresh c.program limit).run c.trial.inputs none n with ⟨_ | answer, m'⟩ <;>
    rw [hr] at h
  · cases h
  · rw [show (Machine.fresh c.program limit).run c.trial.inputs none fuel = (some answer, m') from
      Machine.run_stable Status.noConfusion (Machine.feed_running rfl hi) hn hr]
    exact h

/-- The two runs of a case whose values all fit have the same outcome. Within
a budget both come to one, which is no crash. Without a budget the one comes
to an outcome just when the other does, and then to the same. -/
theorem batch_interactive (c : Case) (program : ∀ x ∈ c.program, InCell x)
    (inputs : ∀ x ∈ c.inputs, InCell x) (limit : Option Int) :
    (∀ budget : Int, ∃ o, o.Regular ∧ ∀ fuel,
      c.trial.batch (some budget) limit fuel = some (.ok o) ∧
      c.trial.interactive (some budget) limit fuel = some (.ok o)) ∧
    (∀ fuel, c.trial.batch none limit fuel = c.trial.interactive none limit fuel) ∧
    ∀ n fuel result, n ≤ fuel → c.trial.batch none limit n = some result →
      c.trial.batch none limit fuel = some result ∧ ∃ o, result = .ok o ∧ o.Regular := by
  refine ⟨fun budget => ?_, fun fuel => ?_, fun n fuel result hn hresult => ⟨?_, ?_⟩⟩
  · rcases outcomes_equal program inputs (some budget) 0 with ⟨-, -, hb⟩ | ⟨o, hbatch, -, ho⟩
    · cases hb
    · refine ⟨o, ho, fun fuel => ?_⟩
      -- the fuel does not come into a batch run with a budget
      have hbatch' : c.trial.batch (some budget) limit fuel = some (.ok o) := hbatch
      rcases outcomes_equal program inputs (some budget) fuel with
        ⟨-, -, hb⟩ | ⟨o', h, hinteractive, -⟩
      · cases hb
      · rw [hbatch'] at h
        cases h
        exact ⟨hbatch', hinteractive⟩
  · rcases outcomes_equal program inputs none fuel with ⟨hb, hi, -⟩ | ⟨o, hb, hi, -⟩ <;> rw [hb, hi]
  · exact batch_stable program inputs hn hresult
  · rcases outcomes_equal program inputs none n with ⟨hb, -, -⟩ | ⟨o, hb, -, ho⟩
    · rw [hb] at hresult
      cases hresult
    · rw [hb] at hresult
      cases hresult
      exact ⟨o, rfl, ho⟩

/-- A program that echoes its input until it reads a zero. -/
theorem batch_interactive_echo :
    let c : Case := { program := [3, 12, 4, 12, 1005, 12, 0, 99], inputs := [7, -1, 0] }
    (∀ x ∈ c.program, InCell x) ∧ (∀ x ∈ c.inputs, InCell x) ∧
      (∀ budget : Int, ∃ o, o.Regular ∧ ∀ fuel,
        c.trial.batch (some budget) (some 16) fuel = some (.ok o) ∧
        c.trial.interactive (some budget) (some 16) fuel = some (.ok o)) :=
  ⟨by decide, by decide, (batch_interactive _ (by decide) (by decide) (some 16)).1⟩

end Case
end Intcode
