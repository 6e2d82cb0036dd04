/-
# Counted runs

`Steps n m out m'` says that a machine completes `n` instructions, gives out
`out` on the way and is then `m'`, with no wait, halt or fault. A drive to the
halt makes such a run and then either ends in one more step or has used its
allowance up, and there is no third way (`collect_cases`).

An unlimited drive comes to an end when it does so from some fuel on
(`Machine.Runs`).

Key definitions: `Machine.Steps`, `Machine.fresh`, `Machine.ending?`,
`Machine.Stretch.answer`, `Machine.Runs`.
Key theorems: `Machine.advance_cases`, `Machine.collect_steps`, `Machine.collect_ends`,
`Machine.collect_cases`, `Machine.run_fed`, `Machine.run_ends`, `Machine.run_spent`,
`Machine.run_cases`, `Machine.run_ok`, `Machine.run_stable`, `Machine.Runs.course`.
-/
import Intcode.Machine.Drive
import Intcode.Proofs.Step

namespace Intcode

theorem allowance_mono (budget : Option Int) {fuel n : Nat} (h : fuel ≤ n) :
    allowance budget fuel ≤ allowance budget n := by
  cases budget with
  | none => exact h
  | some k => exact Nat.le_refl _

namespace Machine

/-- `n` completed instructions from one machine to another, and the outputs
given on the way, oldest first. -/
inductive Steps : Nat → Machine → List Int → Machine → Prop where
  | refl (m : Machine) : Steps 0 m [] m
  | silent {n : Nat} {m m' m'' : Machine} {out : List Int} (first : m.step = (.ok none, m'))
      (rest : Steps n m' out m'') : Steps (n + 1) m out m''
  | output {n : Nat} {m m' m'' : Machine} {out : List Int} {v : Int}
      (first : m.step = (.ok (some (.output v)), m')) (rest : Steps n m' out m'') :
      Steps (n + 1) m (v :: out) m''

namespace Steps

variable {m m' m'' : Machine} {n k : Nat} {out out' : List Int}

theorem one (h : m.step = (.ok none, m')) : Steps 1 m [] m' := .silent h (.refl m')

theorem trans (h : Steps n m out m') (h' : Steps k m' out' m'') :
    Steps (n + k) m (out ++ out') m'' := by
  induction h with
  | refl => rwa [Nat.zero_add, List.nil_append]
  | silent hs _ ih => rw [Nat.add_right_comm]; exact .silent hs (ih h')
  | output hs _ ih => rw [Nat.add_right_comm]; exact .output hs (ih h')

/-- What a machine does it does in one way. -/
theorem det (h : Steps n m out m') (h' : Steps n m out' m'') : out = out' ∧ m' = m'' := by
  induction h generalizing out' with
  | refl =>
    cases h'
    exact ⟨rfl, rfl⟩
  | silent hs _ ih =>
    cases h' with
    | silent hs' hr' => rw [hs] at hs'; cases hs'; exact ih hr'
    | output hs' hr' => rw [hs] at hs'; cases hs'
  | output hs _ ih =>
    cases h' with
    | silent hs' hr' => rw [hs] at hs'; cases hs'
    | output hs' hr' =>
      rw [hs] at hs'
      cases hs'
      obtain ⟨rfl, rfl⟩ := ih hr'
      exact ⟨rfl, rfl⟩

end Steps

/-- A machine that completes an instruction has not halted, nor has it by
that. -/
theorem step_live {m m' : Machine} {answer : Option Event} (h : m.step = (.ok answer, m'))
    (ha : answer = none ∨ ∃ v, answer = some (.output v)) :
    m.status ≠ .halted ∧ m'.status ≠ .halted := by
  have hh : m.status ≠ .halted := by
    intro hh
    rw [step_halted hh] at h
    cases h
    rcases ha with ha | ⟨v, ha⟩ <;> cases ha
  refine ⟨hh, ?_⟩
  cases Move.of_step hh h with
  | stores | emits | goes | rebases => exact hh
  | takes => exact Status.noConfusion
  | waits | halts => rcases ha with ha | ⟨v, ha⟩ <;> cases ha

/-- A step that moves on or gives out a value has completed one
instruction. -/
theorem step_completed {m m' : Machine} {answer : Option Event} (h : m.step = (.ok answer, m'))
    (ha : answer = none ∨ ∃ v, answer = some (.output v)) :
    m'.steps = m.steps + 1 ∧ (m.status = .running → m'.status = .running) ∧
      (m.awaited = none → m'.awaited = none) := by
  cases Move.of_step (step_live h ha).1 h with
  | stores | takes | emits | goes | rebases => simp
  | waits | halts => rcases ha with ha | ⟨v, ha⟩ <;> cases ha

theorem Steps.completed {m m' : Machine} {n : Nat} {out : List Int} (h : Steps n m out m') :
    m'.steps = m.steps + n ∧ (m.status = .running → m'.status = .running) ∧
      (m.awaited = none → m'.awaited = none) := by
  induction h with
  | refl => simp
  | silent hs _ ih =>
    obtain ⟨h1, h2, h3⟩ := step_completed hs (.inl rfl)
    obtain ⟨i1, i2, i3⟩ := ih
    exact ⟨by omega, fun h => i2 (h2 h), fun h => i3 (h3 h)⟩
  | output hs _ ih =>
    obtain ⟨h1, h2, h3⟩ := step_completed hs (.inr ⟨_, rfl⟩)
    obtain ⟨i1, i2, i3⟩ := ih
    exact ⟨by omega, fun h => i2 (h2 h), fun h => i3 (h3 h)⟩

theorem Steps.live {m m' : Machine} {n : Nat} {out : List Int} (h : Steps n m out m')
    (hh : m.status ≠ .halted) : m'.status ≠ .halted := by
  induction h with
  | refl => exact hh
  | silent hs _ ih => exact ih (step_live hs (.inl rfl)).2
  | output hs _ ih => exact ih (step_live hs (.inr ⟨_, rfl⟩)).2

theorem Steps.inputs {m m' : Machine} {n : Nat} {out : List Int} (h : Steps n m out m') :
    m'.inputs <:+ m.inputs := by
  induction h with
  | refl => exact List.suffix_refl _
  | @silent _ m _ _ _ hs _ ih | @output _ m _ _ _ _ hs _ ih =>
    have hi := step_inputs m
    rw [hs] at hi
    exact ih.trans hi

/-- Values queued behind the others go through a run. -/
theorem Steps.enqueue {m m' : Machine} {n : Nat} {out : List Int} (h : Steps n m out m')
    (xs : List Int) : Steps n (m.enqueue xs) out (m'.enqueue xs) := by
  induction h with
  | refl m => exact .refl _
  | silent hs _ ih => exact .silent (step_enqueue hs (fun a ha => by cases ha) xs) ih
  | output hs _ ih => exact .output (step_enqueue hs (fun a ha => by cases ha) xs) ih

/-- The halt completes an instruction too. -/
theorem step_halts {m m' : Machine} (h : m.step = (.ok (some .halted), m')) :
    m'.status = .halted ∧ (m.status ≠ .halted → m'.steps = m.steps + 1) := by
  by_cases hh : m.status = .halted
  · rw [step_halted hh] at h
    cases h
    exact ⟨hh, fun h => absurd hh h⟩
  · cases Move.of_step hh h with
    | halts => exact ⟨rfl, fun _ => rfl⟩

/-- A run has begun with shorter runs. -/
theorem Steps.take {m m' : Machine} {n : Nat} {out : List Int} (h : Steps n m out m') {k : Nat}
    (hk : k ≤ n) : ∃ out' m'', Steps k m out' m'' := by
  induction h generalizing k with
  | refl m =>
    obtain rfl : k = 0 := by omega
    exact ⟨[], m, .refl m⟩
  | @silent n m _ _ _ hs _ ih =>
    cases k with
    | zero => exact ⟨[], m, .refl m⟩
    | succ k =>
      obtain ⟨out', m'', hr⟩ := ih (k := k) (by omega)
      exact ⟨out', m'', .silent hs hr⟩
  | @output n m _ _ _ v hs _ ih =>
    cases k with
    | zero => exact ⟨[], m, .refl m⟩
    | succ k =>
      obtain ⟨out', m'', hr⟩ := ih (k := k) (by omega)
      exact ⟨v :: out', m'', .output hs hr⟩

/-- The first output of a run ends a run without outputs. -/
theorem Steps.first_output {m m' : Machine} {n : Nat} {out : List Int} {v : Int}
    (h : Steps n m (v :: out) m') : ∃ j k m₁ m₂, n = j + 1 + k ∧ Steps j m [] m₁ ∧
      m₁.step = (.ok (some (.output v)), m₂) ∧ Steps k m₂ out m' := by
  generalize houtputs : v :: out = outputs at h
  induction h with
  | refl => cases houtputs
  | silent hs _ ih =>
    obtain ⟨j, k, m₁, m₂, rfl, before, first, after⟩ := ih houtputs
    exact ⟨j + 1, k, m₁, m₂, by omega, .silent hs before, first, after⟩
  | @output n m m₂ _ _ _ hs rest _ =>
    cases houtputs
    exact ⟨0, n, m, m₂, by omega, .refl m, hs, rest⟩

/-! ### Fresh machines -/

/-- The fresh machine of a program whose cells all fit. -/
def fresh (program : List Int) (limit : Option Int) : Machine :=
  { memory := ⟨program.toArray, limit⟩ }

/-- A program that is accepted consists of integers that fit. -/
theorem boot_fresh {program : List Datum} {limit : Option Int} {m : Machine}
    (h : boot program limit = .ok m) :
    ∃ xs : List Int, program = xs.map .int ∧ (∀ x ∈ xs, InCell x) ∧ m = fresh xs limit := by
  unfold boot Memory.ofCells at h
  cases hc : Datum.toCells .cell 0 program with
  | error f =>
    rw [hc] at h
    cases h
  | ok xs =>
    rw [hc] at h
    cases h
    obtain ⟨hprogram, fits⟩ := Datum.toCells_ok hc
    exact ⟨xs, hprogram, fits, rfl⟩

theorem boot_ok {program : List Datum} {limit : Option Int} {m : Machine}
    (h : boot program limit = .ok m) : ∃ memory, m = { memory := memory } := by
  obtain ⟨xs, -, -, rfl⟩ := boot_fresh h
  exact ⟨_, rfl⟩

theorem boot_fault {program : List Datum} {limit : Option Int} {f : Fault}
    (h : boot program limit = .error f) : f.kind = .typeError ∨ f.kind = .cellOverflow := by
  unfold boot Memory.ofCells at h
  cases hc : Datum.toCells .cell 0 program with
  | error g =>
    rw [hc] at h
    cases h
    exact Datum.toCells_fault hc
  | ok ns =>
    rw [hc] at h
    cases h

theorem boot_ints {program : List Int} (h : ∀ x ∈ program, InCell x) (limit : Option Int) :
    boot (program.map .int) limit = .ok (fresh program limit) := by
  simp only [boot, Memory.ofCells, Datum.toCells_ints h]
  rfl

/-! ### Drives to the next event -/

/-- A drive to the next event within `n` instructions either completes them
all without one or comes to a step that tells an event or fails. -/
theorem advance_cases (n : Nat) (m : Machine) :
    (∃ m', Steps n m [] m' ∧ m.advance n = (none, m')) ∨
    ∃ k m' told m'', k < n ∧ Steps k m [] m' ∧ m'.step = (Except.map some told, m'') ∧
      m.advance n = (some told, m'') := by
  induction n generalizing m with
  | zero => exact .inl ⟨m, .refl m, rfl⟩
  | succ n ih =>
    rcases hs : m.step with ⟨f | _ | event, m₁⟩
    · exact .inr ⟨0, m, .error f, m₁, by omega, .refl m, hs, by rw [advance, hs]⟩
    · rw [advance, hs]
      rcases ih m₁ with ⟨m', hr, ha⟩ | ⟨k, m', told, m'', hk, hr, h, ha⟩
      · exact .inl ⟨m', .silent hs hr, ha⟩
      · exact .inr ⟨k + 1, m', told, m'', by omega, .silent hs hr, h, ha⟩
    · exact .inr ⟨0, m, .ok event, m₁, by omega, .refl m, hs, by rw [advance, hs]⟩

/-- A drive to the next event passes through silent steps. -/
theorem advance_steps {k : Nat} {m m' : Machine} (h : Steps k m [] m') (n : Nat) :
    m.advance (k + n) = m'.advance n := by
  generalize hnone : ([] : List Int) = out at h
  induction h with
  | refl => rw [Nat.zero_add]
  | silent hs _ ih =>
    rw [Nat.add_right_comm, advance, hs]
    exact ih hnone
  | output => cases hnone

/-- A drive to the next event comes to the one that silent steps lead to within
its allowance. -/
theorem tick_steps {m m₁ m' : Machine} {budget : Option Int} {fuel k : Nat} {event : Event}
    (hh : m.status ≠ .halted) (h : Steps k m [] m₁) (hs : m₁.step = (.ok (some event), m'))
    (hk : k < allowance budget fuel) : m.tick budget fuel = (some (.ok event), m') := by
  obtain ⟨n, hn⟩ : ∃ n, allowance budget fuel = k + (n + 1) :=
    ⟨allowance budget fuel - k - 1, by omega⟩
  rw [tick, if_neg hh, hn, advance_steps h, advance, hs]

/-- A drive to the next event that comes to one has made silent steps up to
it. -/
theorem tick_ok {m m' : Machine} {budget : Option Int} {fuel : Nat} {event : Event}
    (hh : m.status ≠ .halted) (h : m.tick budget fuel = (some (.ok event), m')) :
    ∃ k m₁, Steps k m [] m₁ ∧ m₁.step = (.ok (some event), m') := by
  unfold tick at h
  rw [if_neg hh] at h
  rcases advance_cases (allowance budget fuel) m with
    ⟨m₁, -, ha⟩ | ⟨k, m₁, told, m₂, -, hr, hs, ha⟩ <;> rw [ha] at h
  · cases budget <;> cases h
  · cases h
    exact ⟨k, m₁, hr, hs⟩

/-- A drive to the next event fails by a step, or by its budget. -/
theorem tick_fault {m m' : Machine} {budget : Option Int} {fuel : Nat} {f : Fault}
    (h : m.tick budget fuel = (some (.error f), m')) :
    f.kind ∈ stepFaults ∨ f.kind = .stepLimitExceeded := by
  unfold tick at h
  split at h
  · cases h
  · rcases advance_cases (allowance budget fuel) m with
      ⟨m₁, -, ha⟩ | ⟨k, m₁, told, m₂, -, -, hs, ha⟩ <;> rw [ha] at h
    · cases budget <;> cases h
      exact .inr rfl
    · cases h
      exact .inl (step_fault hs)

/-! ### Drives to the halt -/

/-- How a drive to the halt ends with this answer of a step, if it does. -/
def ending? : Except Fault (Option Event) → Option Ending
  | .ok none => none
  | .ok (some (.output _)) => none
  | .ok (some (.awaiting address)) => some (.awaiting address)
  | .ok (some .halted) => some .halted
  | .error f => some (.failed f)

/-- A drive passes through the steps of a run. -/
theorem collect_steps {k : Nat} {m m' : Machine} {out : List Int} (h : Steps k m out m')
    (window : Nat) (before : List Int) (n : Nat) : ∃ window',
    collect window before (k + n) m = collect window' (out.reverse ++ before) n m' := by
  induction h generalizing window before with
  | refl => exact ⟨window, by simp⟩
  | silent hs _ ih =>
    obtain ⟨w, hw⟩ := ih window before
    refine ⟨w, ?_⟩
    rw [Nat.add_right_comm, collect, hs]
    exact hw
  | @output j _ _ _ out v hs _ ih =>
    obtain ⟨w, hw⟩ := ih (j + n) (v :: before)
    refine ⟨w, ?_⟩
    rw [Nat.add_right_comm, collect, hs]
    simpa using hw

/-- A drive ends with a step that ends it. -/
theorem collect_ends {m m' : Machine} {answer : Except Fault (Option Event)} {e : Ending}
    (h : m.step = (answer, m')) (he : ending? answer = some e) (window : Nat)
    (before : List Int) (n : Nat) :
    collect window before (n + 1) m = ⟨before.reverse, e, m'⟩ := by
  rw [collect, h]
  rcases answer with f | _ | ⟨v | a | _⟩ <;> cases he <;> rfl

/-- A drive within `n` instructions either completes them all or ends
before. -/
theorem collect_cases (n : Nat) (m : Machine) (window : Nat) (before : List Int) :
    (∃ out m' window', Steps n m out m' ∧
      collect window before n m = ⟨before.reverse ++ out, .spent window', m'⟩) ∨
    ∃ k out m' answer m'' e, k < n ∧ Steps k m out m' ∧ m'.step = (answer, m'') ∧
      ending? answer = some e ∧ collect window before n m = ⟨before.reverse ++ out, e, m''⟩ := by
  induction n generalizing m window before with
  | zero => exact .inl ⟨[], m, window, .refl m, by simp [collect]⟩
  | succ n ih =>
    rcases hs : m.step with ⟨answer, m₁⟩
    cases he : ending? answer with
    | some e =>
      refine .inr ⟨0, [], m, answer, m₁, e, by omega, .refl m, hs, he, ?_⟩
      rw [collect_ends hs he, List.append_nil]
    | none =>
      rcases answer with f | _ | ⟨v | a | _⟩ <;> cases he
      · rw [collect, hs]
        rcases ih m₁ window before with ⟨out, m', w, hr, hc⟩ | ⟨k, out, m', a, m'', e, hk, hr, h⟩
        · exact .inl ⟨out, m', w, .silent hs hr, hc⟩
        · exact .inr ⟨k + 1, out, m', a, m'', e, by omega, .silent hs hr, h⟩
      · rw [collect, hs]
        have hrev (out : List Int) :
            (v :: before).reverse ++ out = before.reverse ++ v :: out := by simp
        rcases ih m₁ n (v :: before) with ⟨out, m', w, hr, hc⟩ | ⟨k, out, m', a, m'', e, hk, hr, h⟩
        · exact .inl ⟨v :: out, m', w, .output hs hr, by rw [← hrev]; exact hc⟩
        · exact .inr ⟨k + 1, v :: out, m', a, m'', e, by omega, .output hs hr, by rw [← hrev]; exact h⟩

/-- The answer of a run to the halt that was driven over this stretch. -/
def Stretch.answer (budget : Option Int) (s : Stretch) : Attempt (List Int) :=
  match s.ending with
  | .halted => some (.ok s.outputs)
  | .awaiting address => some (.error (.runStarved address s.machine.pointer))
  | .failed f => some (.error f)
  | .spent window => budget.map fun _ => .error (.stepLimit window s.machine.pointer)

section Fed

variable {m start m' m'' : Machine} {inputs : List Datum}

/-- A run to the halt queues its inputs and drives from there. -/
theorem run_fed (hh : m.status ≠ .halted) (hf : m.feed inputs = (.ok (), start))
    (budget : Option Int) (fuel : Nat) :
    let s := start.collect (allowance budget fuel) [] (allowance budget fuel)
    m.run inputs budget fuel = (s.answer budget, s.machine) := by
  simp only [run, hh, if_false, hf]
  rfl

/-- A run to the halt ends as the steps from there say, if they end within
the allowance. -/
theorem run_ends {budget : Option Int} {fuel k : Nat} {out : List Int}
    {answer : Except Fault (Option Event)} {e : Ending} (hh : m.status ≠ .halted)
    (hf : m.feed inputs = (.ok (), start)) (hr : Steps k start out m')
    (h : m'.step = (answer, m'')) (he : ending? answer = some e) (hk : k < allowance budget fuel) :
    m.run inputs budget fuel = (Stretch.answer budget ⟨out, e, m''⟩, m'') := by
  obtain ⟨n, hn⟩ : ∃ n, allowance budget fuel = k + (n + 1) :=
    ⟨allowance budget fuel - k - 1, by omega⟩
  obtain ⟨w, hw⟩ := collect_steps hr (allowance budget fuel) [] (n + 1)
  rw [collect_ends h he, ← hn, List.append_nil, List.reverse_reverse] at hw
  rw [run_fed hh hf, hw]

/-- A run to the halt that has not ended within its allowance is given up
there, by a step limit if the allowance was a budget. -/
theorem run_spent {budget : Option Int} {fuel : Nat} {out : List Int} (hh : m.status ≠ .halted)
    (hf : m.feed inputs = (.ok (), start)) (hr : Steps (allowance budget fuel) start out m') :
    ∃ window, m.run inputs budget fuel =
      (budget.map fun _ => .error (.stepLimit window m'.pointer), m') := by
  obtain ⟨w, hw⟩ := collect_steps hr (allowance budget fuel) [] 0
  rw [Nat.add_zero] at hw
  refine ⟨w, ?_⟩
  rw [run_fed hh hf, hw]
  rfl

/-- A run to the halt is given up where its allowance is used up, or has come to
a step that ends it before. -/
theorem run_cases (hh : m.status ≠ .halted) (hf : m.feed inputs = (.ok (), start))
    (budget : Option Int) (fuel : Nat) :
    (∃ out window m', Steps (allowance budget fuel) start out m' ∧ m.run inputs budget fuel =
      (budget.map fun _ => .error (.stepLimit window m'.pointer), m')) ∨
    ∃ k out last told m' e, k < allowance budget fuel ∧ Steps k start out last ∧
      last.step = (told, m') ∧ ending? told = some e ∧
      m.run inputs budget fuel = (Stretch.answer budget ⟨out, e, m'⟩, m') := by
  rcases collect_cases (allowance budget fuel) start 0 [] with
    ⟨out, m', -, hr, -⟩ | ⟨k, out, last, told, m', e, hk, hr, hstep, he, -⟩
  · obtain ⟨window, hrun⟩ := run_spent hh hf hr
    exact .inl ⟨out, window, m', hr, hrun⟩
  · exact .inr ⟨k, out, last, told, m', e, hk, hr, hstep, he, run_ends hh hf hr hstep he hk⟩

/-- A run that answers has given out, within its allowance, what it answers
with, and has then come to the halt. -/
theorem run_ok {budget : Option Int} {fuel : Nat} {out : List Int} (hh : m.status ≠ .halted)
    (h : m.run inputs budget fuel = (some (.ok out), m')) :
    ∃ start k last, m.feed inputs = (.ok (), start) ∧ k < allowance budget fuel ∧
      Steps k start out last ∧ last.step = (.ok (some .halted), m') := by
  rcases hf : m.feed inputs with ⟨f | ⟨⟩, start⟩
  · simp only [run, hh, if_false, hf] at h
    cases h
  rcases run_cases hh hf budget fuel with
    ⟨_, _, _, -, hrun⟩ | ⟨k, _, last, told, _, e, hk, hr, hstep, he, hrun⟩ <;> rw [hrun] at h
  · cases budget <;> cases h
  · rcases told with f | _ | v | a | _ <;> cases he <;> cases h
    exact ⟨start, k, last, rfl, hk, hr, hstep⟩

/-- More fuel does not change where an unlimited run to the halt ends. -/
theorem run_stable {n fuel : Nat} {a : Except Fault (List Int)} (hh : m.status ≠ .halted)
    (hf : m.feed inputs = (.ok (), start)) (hn : n ≤ fuel)
    (h : m.run inputs none n = (some a, m')) : m.run inputs none fuel = (some a, m') := by
  rcases run_cases hh hf none n with ⟨_, _, _, -, hrun⟩ | ⟨k, _, _, _, _, _, hk, hr, hstep, he, hrun⟩ <;>
    rw [hrun] at h
  · cases h
  · have hfuel : k < allowance none fuel := Nat.lt_of_lt_of_le hk hn
    rw [run_ends hh hf hr hstep he hfuel, h]

end Fed

theorem run_eq {m : Machine} {xs : List Int} (hs : m.status = .running) (hx : ∀ x ∈ xs, InCell x)
    (budget : Option Int) (fuel : Nat) :
    let s := (m.enqueue xs).collect (allowance budget fuel) [] (allowance budget fuel)
    m.run (xs.map .int) budget fuel = (s.answer budget, s.machine) :=
  run_fed (by rw [hs]; decide) (feed_running hs hx) budget fuel

/-- An unlimited run to the halt comes to an end, with this answer and this
machine: it does so from some fuel on. -/
def Runs (m : Machine) (inputs : List Datum) (answer : Except Fault (List Int)) (m' : Machine) :
    Prop :=
  ∃ n, ∀ fuel, n ≤ fuel → m.run inputs none fuel = (some answer, m')

namespace Runs

variable {m start m' m'' : Machine} {inputs : List Datum}

theorem of_fed {k : Nat} {out : List Int} {answer : Except Fault (Option Event)} {e : Ending}
    {result : Except Fault (List Int)} (hh : m.status ≠ .halted)
    (hf : m.feed inputs = (.ok (), start)) (hr : Steps k start out m')
    (h : m'.step = (answer, m'')) (he : ending? answer = some e)
    (ha : Stretch.answer none ⟨out, e, m''⟩ = some result) : m.Runs inputs result m'' := by
  refine ⟨k + 1, fun fuel hfuel => ?_⟩
  rw [run_ends hh hf hr h he (show k < allowance none fuel from hfuel), ha]

theorem of_steps {xs : List Int} {k : Nat} {out : List Int}
    {answer : Except Fault (Option Event)} {e : Ending} {result : Except Fault (List Int)}
    (hs : m.status = .running) (hx : ∀ x ∈ xs, InCell x) (hr : Steps k (m.enqueue xs) out m')
    (h : m'.step = (answer, m'')) (he : ending? answer = some e)
    (ha : Stretch.answer none ⟨out, e, m''⟩ = some result) : m.Runs (xs.map .int) result m'' :=
  of_fed (by rw [hs]; decide) (feed_running hs hx) hr h he ha

/-- An unlimited run comes to one end. -/
theorem det {a b : Except Fault (List Int)} (h : m.Runs inputs a m') (h' : m.Runs inputs b m'') :
    a = b ∧ m' = m'' := by
  obtain ⟨n, hn⟩ := h
  obtain ⟨k, hk⟩ := h'
  have := (hn (max n k) (by omega)).symm.trans (hk (max n k) (by omega))
  simpa using this

/-- A run that comes to an end has completed steps and then one that ends
it. -/
theorem course {answer : Except Fault (List Int)} (hh : m.status ≠ .halted)
    (hf : m.feed inputs = (.ok (), start)) (h : m.Runs inputs answer m') :
    ∃ k out last told e, Steps k start out last ∧ last.step = (told, m') ∧
      ending? told = some e ∧ Stretch.answer none ⟨out, e, m'⟩ = some answer := by
  obtain ⟨n, hn⟩ := h
  have h := hn n (Nat.le_refl n)
  rcases run_cases hh hf none n with
    ⟨_, _, _, -, hrun⟩ | ⟨k, out, last, told, _, e, -, hr, hstep, he, hrun⟩ <;> rw [hrun] at h
  · cases h
  · simp only [Prod.mk.injEq] at h
    obtain ⟨ha, rfl⟩ := h
    exact ⟨k, out, last, told, e, hr, hstep, he, ha⟩

/-- A run that answers with its outputs has completed steps and then the
halt. -/
theorem halts {out : List Int} (hh : m.status ≠ .halted) (hf : m.feed inputs = (.ok (), start))
    (h : m.Runs inputs (.ok out) m') :
    ∃ k last, Steps k start out last ∧ last.step = (.ok (some .halted), m') := by
  obtain ⟨k, out', last, told, e, hr, hstep, he, ha⟩ := h.course hh hf
  rcases told with f | _ | v | a | _ <;> cases he <;> cases ha
  exact ⟨k, last, hr, hstep⟩

end Runs

end Machine
end Intcode
