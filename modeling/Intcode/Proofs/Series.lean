/-
# A series of machines that each speak once is a ring

In a series a machine is run to its halt at once. In a ring it is stopped at its
output, hears another signal, which it never asks for, and goes on to its halt
in a second turn, with its budget anew. If it gives out one value on the way,
neither makes a difference. Up to its output it is the machine of the series
(`Machine.Speaks`), and from there it comes to the halt without an output,
whatever more is queued (`Machine.Closing`).

So the ring takes two rounds: in the first the signal goes through the machines
as it does in the series, and in the second it stays as it is
(`Series.first_round`, `Ring.spin_two`).

Key definitions: `Series.outputs`, `Series.said`, `Machine.Speaks`,
`Machine.Closing`.
Key theorems: `Machine.run_once`, `Ring.closing_round`, `Ring.spin_two`,
`Series.first_round`, `Series.ring_returns`.
-/
import Intcode.Series
import Intcode.Proofs.Budget
import Intcode.Proofs.Reachable
import Intcode.Proofs.Ring

namespace Intcode

/-! ### Machines that speak once -/

namespace Machine

/-- The machine gives out a value, and nothing before it, within so many
instructions, and is then another. -/
def Speaks (allowed : Nat) (m : Machine) (v : Int) (m' : Machine) : Prop :=
  ∃ k last, k < allowed ∧ Steps k m [] last ∧ last.step = (.ok (some (.output v)), m')

theorem Speaks.tick {m m' : Machine} {budget : Option Int} {n : Nat} {v : Int}
    (h : m.Speaks (allowance budget n) v m') (hh : m.status ≠ .halted) :
    m.tick budget n = (some (.ok (.output v)), m') := by
  obtain ⟨k, last, hk, silent, first⟩ := h
  exact tick_steps hh silent first hk

/-- The machine runs, and comes to its halt without an output within so many
instructions. -/
def Closing (allowed : Nat) (m : Machine) : Prop :=
  m.status = .running ∧ ∃ k last m', k < allowed ∧ Steps k m [] last ∧
    last.step = (.ok (some .halted), m')

variable {m start m' : Machine} {budget : Option Int} {fuel : Nat} {v : Int}

/-- More signals make no difference to a machine that comes to its halt. -/
theorem Closing.enqueue {allowed : Nat} (h : m.Closing allowed) (xs : List Int) :
    (m.enqueue xs).Closing allowed := by
  obtain ⟨hs, k, last, m', hk, silent, halt⟩ := h
  exact ⟨hs, k, last.enqueue xs, m'.enqueue xs, hk, silent.enqueue xs,
    step_enqueue halt (fun a ha => by cases ha) xs⟩

theorem Closing.tick {n : Nat} (h : m.Closing (allowance budget n)) :
    ∃ m', m.tick budget n = (some (.ok .halted), m') ∧ m'.status = .halted := by
  obtain ⟨hs, k, last, m', hk, silent, halt⟩ := h
  exact ⟨m', tick_steps (by rw [hs]; decide) silent halt hk, (step_halts halt).1⟩

/-- A run that gives out one value does so and then comes to its halt, either
within the allowance of the run. -/
theorem run_once {inputs : List Datum} {allowed : Nat} (hs : m.status = .running)
    (h : m.run inputs budget fuel = (some (.ok [v]), m')) (ha : allowance budget fuel ≤ allowed) :
    ∃ start told, m.feed inputs = (.ok (), start) ∧ start.Speaks allowed v told ∧
      told.Closing allowed := by
  obtain ⟨start, k, last, hf, hk, hr, halt⟩ := run_ok (by rw [hs]; decide) h
  obtain ⟨j, i, spoken, told, rfl, before, first, after⟩ := hr.first_output
  obtain ⟨xs, -, -, rfl⟩ := feed_accepted hs hf
  have running : told.status = .running :=
    (before.trans (.output first (.refl told))).completed.2.1 hs
  exact ⟨_, told, hf, ⟨j, spoken, by omega, before, first⟩,
    running, i, last, m', by omega, after, halt⟩

/-- Values may be queued one after another. -/
theorem feed_twice {first second : Datum} (hs : m.status = .running)
    (h : m.feed [first, second] = (.ok (), start)) :
    ∃ fed, m.feed [first] = (.ok (), fed) ∧ fed.status = .running ∧
      fed.feed [second] = (.ok (), start) := by
  obtain ⟨xs, hxs, hx, rfl⟩ := feed_accepted hs h
  obtain ⟨x, y, rfl⟩ : ∃ x y, xs = [x, y] := by
    apply List.length_eq_two.1
    have := congrArg List.length hxs
    simpa using this.symm
  cases hxs
  obtain ⟨hfirst, hsecond⟩ : InCell x ∧ InCell y := by simpa using hx
  refine ⟨m.enqueue [x], feed_one hs hfirst, hs, ?_⟩
  show _ = (Except.ok (), m.enqueue ([x] ++ [y]))
  rw [← enqueue_enqueue]
  exact feed_one (m := m.enqueue [x]) hs hsecond

end Machine

/-! ### The second round -/

namespace Ring

open Machine

variable {budget : Option Int} {n round index : Nat} {m : Machine} {ms : List Machine} {v : Int}

/-- A machine that comes to its halt does so in its turn. -/
theorem closing_turn (h : m.Closing (allowance budget n)) (hv : InCell v) (round index : Nat) :
    ∃ m', turn budget n round index (.int v) m = some (.ok (none, m')) ∧ m'.status = .halted := by
  have hf : m.feed [.int v] = (.ok (), m.enqueue [v]) := feed_one h.1 hv
  obtain ⟨m', ht, halted⟩ := (h.enqueue [v]).tick
  refine ⟨m', ?_, halted⟩
  simp only [turn, hf, ht]

/-- If all machines come to their halts, they do so in one round, and the signal
stays as it is. -/
theorem closing_round (h : ∀ m ∈ ms, m.Closing (allowance budget n)) (hv : InCell v)
    (round index : Nat) : ∃ ms' turns,
      Sweep budget n round index (.int v) ms ms' (.int v) turns ∧
        ∀ m ∈ ms', m.status = .halted := by
  induction ms generalizing index with
  | nil => exact ⟨[], [], .done index _, List.forall_mem_nil _⟩
  | cons m ms ih =>
    have hm := h m List.mem_cons_self
    obtain ⟨m', taken, halted⟩ := closing_turn hm hv round index
    obtain ⟨ms', turns, rest, hrest⟩ := ih (fun m hm => h m (List.mem_cons_of_mem _ hm)) (index + 1)
    exact ⟨m' :: ms', _, .takes (by rw [hm.1]; decide) taken rest,
      List.forall_mem_cons.2 ⟨halted, hrest⟩⟩

/-- A ring of machines that run has not come to its end. -/
theorem finished_running {r : Ring} (h : ∀ m ∈ r.machines, m.status = .running)
    (hne : r.machines ≠ []) : r.finished = false := by
  obtain ⟨m, ms, hms⟩ := List.exists_cons_of_ne_nil hne
  have hm : m.finished = false := by
    rw [Machine.finished, h m (by rw [hms]; exact List.mem_cons_self)]
    rfl
  rw [finished, hms, List.all_cons, hm, Bool.false_and]

theorem finished_halted {r : Ring} (h : ∀ m ∈ r.machines, m.status = .halted) :
    r.finished = true :=
  List.all_eq_true.2 fun m hm => (finished_iff m).2 (h m hm)

theorem spin_finished {r : Ring} (h : r.finished = true) (budget : Option Int) (fuel n : Nat) :
    r.spin budget fuel n = some (.ok r) := by
  cases n <;> rw [spin, if_pos h]

theorem spin_round {r : Ring} {fuel : Nat} {after : Datum} {turns : List Turn}
    (h : r.finished = false)
    (sweep : Sweep budget fuel (r.rounds + 1) 0 r.signal r.machines ms after turns) (n : Nat) :
    r.spin budget fuel (n + 1) =
      spin budget fuel n ⟨ms, after, r.rounds + 1, r.turns ++ turns⟩ := by
  rw [spin, if_neg (by rw [h]; decide), Ring.round]
  simp only [sweep.sweep]

/-- If all machines are left coming to their halts by the first round, the ring
ends with the second, and with the signal of the first. -/
theorem spin_two {start : Ring} {ms' : List Machine} {turns : List Turn} {k : Nat}
    (running : ∀ m ∈ start.machines, m.status = .running) (hne : start.machines ≠ [])
    (first : Sweep budget n (start.rounds + 1) 0 start.signal start.machines ms' (.int v) turns)
    (closing : ∀ m ∈ ms', m.Closing (allowance budget n)) (hv : InCell v) :
    ∃ ring, start.spin budget n (k + 2) = some (.ok ring) ∧ ring.signal = .int v := by
  obtain ⟨ms'', turns', second, halted⟩ := closing_round closing hv (start.rounds + 2) 0
  let between : Ring := ⟨ms', .int v, start.rounds + 1, start.turns ++ turns⟩
  let last : Ring := ⟨ms'', .int v, start.rounds + 2, between.turns ++ turns'⟩
  have hne' : between.machines ≠ [] := by
    rw [← List.length_pos_iff, first.length]
    exact List.length_pos_iff.2 hne
  have going : between.finished = false := finished_running (fun m hm => (closing m hm).1) hne'
  have spins : start.spin budget n (k + 2) = some (.ok last) :=
    calc start.spin budget n (k + 2)
      _ = between.spin budget n (k + 1) := spin_round (finished_running running hne) first (k + 1)
      _ = last.spin budget n k := spin_round going second k
      _ = some (.ok last) := spin_finished (finished_halted halted) budget n k
  exact ⟨last, spins, rfl⟩

end Ring

/-! ### The series and the first round -/

namespace Series

open Machine

variable {program phases : List Datum} {phase signal r : Datum} {budget : Option Int}
variable {fuel index n : Nat} {v : Int}

/-- What the machine of a phase gives out on its way. -/
def outputs (program : List Datum) (budget : Option Int) (fuel : Nat) (phase signal : Datum) :
    List Int :=
  match Machine.boot program none with
  | .error _ => []
  | .ok m => m.runOutputs [phase, signal] budget fuel

/-- What each of the machines gives out on its way, the last output of one being
the signal for the next. -/
def said (program : List Datum) (budget : Option Int) (fuel : Nat) :
    List Datum → Datum → List (List Int)
  | [], _ => []
  | phase :: phases, signal =>
    let own := outputs program budget fuel phase signal
    own :: match own.getLast? with
      | some value => said program budget fuel phases (.int value)
      | none => []

/-- A machine hands on the last value that it gives out on its way to the
halt. -/
theorem station_ok (h : station program budget fuel index phase signal = some (.ok v)) :
    ∃ fresh out m', Machine.boot program none = .ok fresh ∧
      fresh.run [phase, signal] budget fuel = (some (.ok out), m') ∧
      outputs program budget fuel phase signal = out ∧ out.getLast? = some v := by
  unfold station at h
  unfold outputs
  cases hb : Machine.boot program none with
  | error f =>
    rw [hb] at h
    cases h
  | ok fresh =>
    simp only [hb] at h ⊢
    rcases hr : fresh.run [phase, signal] budget fuel with ⟨_ | f | out, m'⟩ <;>
      simp only [hr] at h
    · cases h
    · cases h
    · cases hl : out.getLast? with
      | none =>
        rw [hl] at h
        cases h
      | some w =>
        rw [hl] at h
        cases h
        exact ⟨fresh, out, m', rfl, hr, run_outputs hr, hl⟩

theorem said_cons (h : station program budget fuel index phase signal = some (.ok v)) :
    said program budget fuel (phase :: phases) signal =
      outputs program budget fuel phase signal :: said program budget fuel phases (.int v) := by
  obtain ⟨fresh, out, m', -, -, hout, hlast⟩ := station_ok h
  rw [said]
  simp only [hout, hlast]

/-- A machine of the series that gives out one value gives it out in its first
turn in a ring, and comes to its halt from there. -/
theorem station_once (h : station program budget fuel index phase signal = some (.ok v))
    (once : (outputs program budget fuel phase signal).length = 1) (hn : fuel ≤ n) :
    ∃ fresh fed told, Machine.boot program none = .ok fresh ∧
      fresh.feed [phase] = (.ok (), fed) ∧ fed.status = .running ∧
      (∀ round i, Ring.turn budget n round i signal fed = some (.ok (some v, told))) ∧
      told.Closing (allowance budget n) ∧ InCell v := by
  obtain ⟨fresh, out, m', hb, hr, hout, hlast⟩ := station_ok h
  rw [hout] at once
  obtain ⟨w, rfl⟩ := List.length_eq_one_iff.1 once
  obtain rfl : v = w := by simpa using hlast.symm
  have hs := Ring.boot_running hb
  obtain ⟨start, told, hf, speaks, closing⟩ := run_once hs hr (allowance_mono budget hn)
  obtain ⟨fed, hfirst, hfed, hsecond⟩ := feed_twice hs hf
  have hv : InCell v := by
    apply (inRange_boot hb).1.runOutputs [phase, signal] budget fuel
    rw [run_outputs hr]
    exact List.mem_singleton_self _
  refine ⟨fresh, fed, told, hb, hfirst, hfed, fun round i => ?_, closing, hv⟩
  have live : start.status ≠ .halted := (feed_live (by rw [hfed]; decide) hsecond).1
  simp only [Ring.turn, hsecond, speaks.tick live]

/-- In its first round a ring does what the series does: the signal comes to what
the series makes of it. Its machines then come to their halts. -/
theorem first_round (hr : run program budget fuel index phases signal = some (.ok r))
    (once : ∀ out ∈ said program budget fuel phases signal, out.length = 1) (hn : fuel ≤ n)
    (round i : Nat) : ∃ ms ms' turns, Ring.stations program phases = .ok ms ∧
      Ring.Sweep budget n round i signal ms ms' r turns ∧ (∀ m ∈ ms, m.status = .running) ∧
      (∀ m ∈ ms', m.Closing (allowance budget n)) ∧ ms.length = phases.length ∧
      (phases ≠ [] → ∃ v, r = .int v ∧ InCell v) := by
  induction phases generalizing index signal i with
  | nil =>
    cases hr
    exact ⟨[], [], [], rfl, .done i _, by simp, by simp, rfl, fun h => absurd rfl h⟩
  | cons phase phases ih =>
    rw [run] at hr
    rcases hs : station program budget fuel index phase signal with _ | f | v <;>
      simp only [hs] at hr
    · cases hr
    · cases hr
    rw [said_cons hs] at once
    obtain ⟨own, rest⟩ := List.forall_mem_cons.1 once
    obtain ⟨fresh, fed, told, hb, hf, hfed, taken, closing, hv⟩ := station_once hs own hn
    obtain ⟨ms, ms', turns, hms, sweep, running, hclosing, hlength, hsignal⟩ := ih hr rest (i + 1)
    refine ⟨fed :: ms, told :: ms', _, ?_, .takes (by rw [hfed]; decide) (taken round i) sweep,
      List.forall_mem_cons.2 ⟨hfed, running⟩, List.forall_mem_cons.2 ⟨closing, hclosing⟩,
      congrArg (· + 1) hlength, fun _ => ?_⟩
    · rw [Ring.stations, hb, hms]
      simp only [bind, Except.bind, hf]
      rfl
    · cases phases with
      | nil =>
        cases hr
        exact ⟨v, rfl, hv⟩
      | cons next more => exact hsignal (List.cons_ne_nil next more)

/-- If a series returns a signal and each of its machines gives out one value on
its way, then a ring of the same machines, with the same signal and budget,
returns this signal as well. -/
theorem ring_returns (returned : run program budget fuel 0 phases signal = some (.ok r))
    (once : ∀ out ∈ said program budget fuel phases signal, out.length = 1) (hn : fuel ≤ n)
    (hrounds : 2 ≤ n) :
    ∃ ring, Ring.run program phases signal budget n = some (.ok ring) ∧ ring.signal = r := by
  obtain ⟨ms, ms', turns, hms, sweep, running, closing, hlength, hsignal⟩ :=
    first_round returned once hn 1 0
  have hrun : Ring.run program phases signal budget n =
      Ring.spin budget n n ⟨ms, signal, 0, #[]⟩ := by
    rw [Ring.run, Ring.assemble, hms]
    rfl
  rw [hrun]
  by_cases hphases : phases = []
  · -- there is no machine, and no round
    subst hphases
    cases returned
    refine ⟨_, Ring.spin_finished (Ring.finished_halted ?_) budget n n, rfl⟩
    rw [List.eq_nil_of_length_eq_zero hlength]
    exact List.forall_mem_nil _
  · obtain ⟨v, rfl, hv⟩ := hsignal hphases
    obtain ⟨k, rfl⟩ : ∃ k, n = k + 2 := ⟨n - 2, by omega⟩
    have hne : ms ≠ [] := by
      rw [← List.length_pos_iff, hlength]
      exact List.length_pos_iff.2 hphases
    exact Ring.spin_two running hne sweep closing hv

/-- Two machines of a program that takes two values, gives out their sum and
halts, with a budget for just these five instructions. -/
theorem ring_returns_two :
    let program : List Datum := [3, 11, 3, 12, 1, 11, 12, 11, 4, 11, 99].map .int
    let phases : List Datum := [.int 1, .int 2]
    run program (some 5) 0 0 phases (.int 5) = some (.ok (.int 8)) ∧
      said program (some 5) 0 phases (.int 5) = [[6], [8]] ∧
      ∃ ring, Ring.run program phases (.int 5) (some 5) 2 = some (.ok ring) ∧
        ring.signal = .int 8 := by
  intro program phases
  have returned : run program (some 5) 0 0 phases (.int 5) = some (.ok (.int 8)) := by
    decide +kernel
  have hsaid : said program (some 5) 0 phases (.int 5) = [[6], [8]] := by decide +kernel
  refine ⟨returned, hsaid, ring_returns returned ?_ (Nat.zero_le 2) (Nat.le_refl 2)⟩
  rw [hsaid]
  decide

end Series
end Intcode
