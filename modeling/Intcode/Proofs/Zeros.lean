/-
# Zeros past the end do not show

Past its end a memory is zero, and whoever reads there makes it longer. So two
machines may differ in nothing but in how far their memories have grown, the one
being the other with zeros behind its cells (`Machine.Lengthened`). A program with
zeros at its end leads to such a machine, and so does a look at a cell.

Nothing that a machine is asked can tell the two apart, nor does anything that it
is asked make more of their difference. Zeros go through a step
(`Machine.step_pad`), so they go through the drives, which are made of steps, and
through every other call (`Machine.call_pad`). Only a limit could get in the way,
and it does not as long as it allows all the cells that the zeros fill
(`Memory.Permits`), which no call changes.

Key definitions: `Machine.stepped`, `Machine.Lengthened`, `Machine.Peeked`.
Key theorems: `Machine.call_pad`, `Machine.callAll_pad`, `Machine.Peeked.same`,
`Machine.Steps.of_pad`, `Machine.boot_zeros`, `Machine.zeros_unobservable`.
-/
import Intcode.Proofs.Reachable
import Intcode.Proofs.Schedule

namespace Intcode
namespace Machine

/-- The machine after `k` calls of a step, whatever they answer. -/
def stepped : Nat → Machine → Machine
  | 0, m => m
  | k + 1, m => stepped k m.step.2

/-- The second machine is the first with zeros behind the cells of its memory, or
with none. -/
structure Lengthened (m m' : Machine) : Prop where
  registers : m'.toRegisters = m.toRegisters
  limit : m'.memory.limit = m.memory.limit
  cells : ∃ n, m'.memory.cells = m.memory.cells ++ Array.replicate n 0

/-- `Peeked m calls answers m'` says that the machine `m` was asked these calls in
their order, and that it gave these answers and is `m'` now. Before and after each
call there may have been reads of cells that succeeded. -/
inductive Peeked : Machine → List (Nat × Call) → List (Attempt Reply) → Machine → Prop where
  | done (m : Machine) : Peeked m [] [] m
  | call {m m₁ m' : Machine} {fuel : Nat} {c : Call} {calls : List (Nat × Call)}
      {answer : Attempt Reply} {answers : List (Attempt Reply)}
      (first : m.call fuel c = (answer, m₁)) (rest : Peeked m₁ calls answers m') :
      Peeked m ((fuel, c) :: calls) (answer :: answers) m'
  | peek {m m₁ m' : Machine} {a v : Int} {calls : List (Nat × Call)}
      {answers : List (Attempt Reply)} (read : m.peek a = (.ok v, m₁))
      (rest : Peeked m₁ calls answers m') : Peeked m calls answers m'

variable {m m' : Machine} {n : Nat}

theorem lengthened_pad (m : Machine) (n : Nat) : m.Lengthened (m.pad n) :=
  ⟨rfl, rfl, n - m.memory.size, rfl⟩

/-- What a limit allows it allows whatever is asked. -/
theorem kept_permits (n : Nat) : Kept fun m => m.memory.Permits n := by
  intro m m' act h
  have same : m'.memory.refusal? = m.memory.refusal? := kept_refusal m.memory.refusal? act rfl
  exact h.congr same

/-! ### Zeros go through the calls -/

theorem feed_pad (m : Machine) (n : Nat) (values : List Datum) :
    (m.pad n).feed values = ((m.feed values).1, (m.feed values).2.pad n) := by
  have hs : (m.pad n).status = m.status := rfl
  unfold feed
  rw [hs]
  by_cases hv : values = []
  · simp only [hv, if_true]
  by_cases hh : m.status = .halted
  · simp only [hv, hh, if_true, if_false]
  simp only [hv, hh, if_false]
  rcases Datum.toCells (fun _ => .input) 0 values with f | xs
  · rfl
  · by_cases hw : m.status = .awaitingInput
    · simp only [hw, pad, if_true]
    · simp only [hw, pad, if_false]

theorem provide_pad (h : m.memory.Permits n) (value : Datum) :
    (m.pad n).provide value = ((m.provide value).1, (m.provide value).2.pad n) := by
  unfold provide
  simp only [pad, Memory.write_pad h]
  split
  · rename_i dst _ _
    rcases m.memory.write dst value with ⟨f | ⟨⟩, memory⟩ <;> rfl
  · rfl

theorem peek_pad (h : m.memory.Permits n) (a : Int) :
    (m.pad n).peek a = ((m.peek a).1, (m.peek a).2.pad n) := by
  simp only [peek, pad, Memory.read_pad h]

theorem poke_pad (h : m.memory.Permits n) (a : Int) (value : Datum) :
    (m.pad n).poke a value = ((m.poke a value).1, (m.poke a value).2.pad n) := by
  simp only [poke, pad, Memory.write_pad h]

theorem advance_pad (h : m.memory.Permits n) (k : Nat) :
    (m.pad n).advance k = ((m.advance k).1, (m.advance k).2.pad n) := by
  induction k generalizing m with
  | zero => rfl
  | succ k ih =>
    have hnext : m.step.2.memory.Permits n := (kept_permits n).lasting.step h
    have hstep := step_pad h
    rcases hs : m.step with ⟨f | _ | event, m'⟩ <;> rw [hs] at hnext hstep <;>
      simp only [advance, hs, hstep]
    exact ih hnext

theorem tick_pad (h : m.memory.Permits n) (budget : Option Int) (fuel : Nat) :
    (m.pad n).tick budget fuel = ((m.tick budget fuel).1, (m.tick budget fuel).2.pad n) := by
  by_cases hh : m.status = .halted
  · rw [tick_halted hh, tick_halted (m := m.pad n) hh]
  · have hh' : (m.pad n).status ≠ .halted := hh
    simp only [tick, hh, hh', if_false, advance_pad h]
    rcases m.advance (allowance budget fuel) with ⟨_ | answer, m'⟩ <;> rfl

/-- The stretch with zeros added to the memory of its machine. -/
def Stretch.pad (n : Nat) (s : Stretch) : Stretch := ⟨s.outputs, s.ending, s.machine.pad n⟩

theorem collect_pad (h : m.memory.Permits n) (window : Nat) (outputs : List Int) (k : Nat) :
    (m.pad n).collect window outputs k = (m.collect window outputs k).pad n := by
  induction k generalizing m window outputs with
  | zero => rfl
  | succ k ih =>
    have hnext : m.step.2.memory.Permits n := (kept_permits n).lasting.step h
    have hstep := step_pad h
    rcases hs : m.step with ⟨f | _ | v | a | _, m'⟩ <;> rw [hs] at hnext hstep <;>
      simp only [collect, hs, hstep]
    · rfl
    · exact ih hnext window outputs
    · exact ih hnext k (v :: outputs)
    · rfl
    · rfl

theorem run_pad (h : m.memory.Permits n) (inputs : List Datum) (budget : Option Int) (fuel : Nat) :
    (m.pad n).run inputs budget fuel =
      ((m.run inputs budget fuel).1, (m.run inputs budget fuel).2.pad n) := by
  by_cases hh : m.status = .halted
  · rw [run_halted hh, run_halted (m := m.pad n) hh]
  have hh' : (m.pad n).status ≠ .halted := hh
  have hfed := m.feed_pad n inputs
  have hstart := (kept_permits n).lasting.feed inputs h
  rcases hf : m.feed inputs with ⟨f | ⟨⟩, start⟩ <;> rw [hf] at hfed hstart
  · simp only [run, hh, hh', if_false, hf, hfed]
  · have hanswer (s : Stretch) : (s.pad n).answer budget = s.answer budget := by
      obtain ⟨outputs, ending, machine⟩ := s
      cases ending <;> rfl
    rw [run_fed hh hf, run_fed hh' hfed, collect_pad hstart, hanswer]
    rfl

theorem runToOutput_pad (h : m.memory.Permits n) (inputs : List Datum) (budget : Option Int)
    (fuel : Nat) : (m.pad n).runToOutput inputs budget fuel =
      ((m.runToOutput inputs budget fuel).1, (m.runToOutput inputs budget fuel).2.pad n) := by
  have hs : (m.pad n).status = m.status := rfl
  have hfed := m.feed_pad n inputs
  have hstart := (kept_permits n).lasting.feed inputs h
  unfold runToOutput
  rw [hs]
  by_cases hh : m.status = .halted
  · simp only [hh, if_true]
  simp only [hh, if_false]
  rcases hf : m.feed inputs with ⟨f | ⟨⟩, start⟩ <;> rw [hf] at hfed hstart
  · simp only [hfed]
  · simp only [hfed, tick_pad hstart]
    rcases start.tick budget fuel with ⟨_ | f | v | a | _, m'⟩ <;> rfl

/-- Zeros in the memory go through every call, if the memory may have them. -/
theorem call_pad (h : m.memory.Permits n) (fuel : Nat) (c : Call) :
    (m.pad n).call fuel c = ((m.call fuel c).1, (m.call fuel c).2.pad n) := by
  cases c with
  | run inputs budget => simp only [call, run_pad h]; rfl
  | runToOutput inputs budget => simp only [call, runToOutput_pad h]; rfl
  | tick budget => simp only [call, tick_pad h]; rfl
  | step => simp only [call, step_pad h]; rfl
  | feed values => simp only [call, feed_pad]; rfl
  | provide value => simp only [call, provide_pad h]; rfl
  | peek a => simp only [call, peek_pad h]; rfl
  | poke a value => simp only [call, poke_pad h]; rfl

theorem callAll_pad (h : m.memory.Permits n) (calls : List (Nat × Call)) :
    (m.pad n).callAll calls = ((m.callAll calls).1, (m.callAll calls).2.pad n) := by
  induction calls generalizing m with
  | nil => rfl
  | cons asked calls ih =>
    obtain ⟨fuel, c⟩ := asked
    have hnext := (kept_permits n).call fuel c h
    simp only [callAll, call_pad h, ih hnext]

/-- Reads of cells between the calls change no answer, and of the machine nothing
but how far its memory has grown. -/
theorem Peeked.same {calls : List (Nat × Call)} {answers : List (Attempt Reply)}
    (h : Peeked m calls answers m') :
    (m.callAll calls).1 = answers ∧ ∃ n, m' = (m.callAll calls).2.pad n := by
  induction h with
  | done m => exact ⟨rfl, 0, (pad_zero m).symm⟩
  | call first _ ih =>
    obtain ⟨hanswers, n, hm⟩ := ih
    simp only [callAll, first, hanswers, true_and]
    exact ⟨n, hm⟩
  | @peek m _ _ a _ calls _ read _ ih =>
    obtain ⟨hpermits, rfl⟩ := peek_ok read
    obtain ⟨hanswers, n, hm⟩ := ih
    rw [callAll_pad hpermits] at hanswers hm
    exact ⟨hanswers, max (a.toNat + 1) n, by rw [hm, pad_pad]⟩

/-! ### Zeros go through the steps -/

theorem stepped_pad (h : m.memory.Permits n) (k : Nat) :
    (m.pad n).stepped k = (m.stepped k).pad n ∧ (m.stepped k).memory.Permits n := by
  induction k generalizing m with
  | zero => exact ⟨rfl, h⟩
  | succ k ih =>
    have hnext : m.step.2.memory.Permits n := (kept_permits n).lasting.step h
    simp only [stepped, step_pad h]
    exact ih hnext

/-- A run with more zeros is a run without them. -/
theorem Steps.of_pad {k : Nat} {out : List Int} (h : Steps k (m.pad n) out m')
    (permits : m.memory.Permits n) : ∃ m₁, Steps k m out m₁ ∧ m' = m₁.pad n := by
  generalize hm : m.pad n = start at h
  induction h generalizing m with
  | refl =>
    subst hm
    exact ⟨m, .refl m, rfl⟩
  | silent first _ ih | output first _ ih =>
    subst hm
    have hnext : m.step.2.memory.Permits n := (kept_permits n).lasting.step permits
    rw [step_pad permits, Prod.mk.injEq] at first
    obtain ⟨m₁, rest, hm₁⟩ := ih hnext first.2
    refine ⟨m₁, ?_, hm₁⟩
    first
      | exact .silent (Prod.ext first.1 rfl) rest
      | exact .output (Prod.ext first.1 rfl) rest

/-! ### Programs with zeros at the end -/

/-- To add zeros to a program is to add them to the memory of its machine. -/
theorem boot_zeros {program : List Datum} {limit : Option Int} (boot : boot program limit = .ok m)
    (n : Nat) : Machine.boot (program ++ List.replicate n (.int 0)) limit =
      .ok (m.pad (program.length + n)) := by
  obtain ⟨xs, rfl, fits, rfl⟩ := boot_fresh boot
  have zeros : ∀ x ∈ List.replicate n (0 : Int), InCell x := fun x hx => by
    rw [List.eq_of_mem_replicate hx]
    exact inCell_zero
  have values : xs.map Datum.int ++ List.replicate n (.int 0) =
      (xs ++ List.replicate n 0).map .int := by
    rw [List.map_append, List.map_replicate]
  have cells : (xs ++ List.replicate n 0).toArray = xs.toArray ++ Array.replicate n 0 := by
    simp
  rw [values, boot_ints (List.forall_mem_append.2 ⟨fits, zeros⟩)]
  simp only [fresh, pad, Memory.pad, Memory.size, cells, List.size_toArray, List.length_map,
    Nat.add_sub_cancel_left]

/-- A program and the same program with zeros at its end, under no limit or under one
that allows the longer of the two, make the same run from the same inputs, step for
step: every step answers the same, and leaves machines that agree in all registers
and, but for zeros behind them, in their cells. Within whatever budget they are run,
both give the same outputs or fail by the same fault. Reads of cells that succeed,
anywhere among the calls that the machine is asked, change no answer to these, and
leave nothing behind but zeros. -/
theorem zeros_unobservable {program : List Datum} {limit : Option Int} {m : Machine} {n : Nat}
    (boot : boot program limit = .ok m)
    (allowed : ∀ l, limit = some l → ((program.length + n : Nat) : Int) ≤ l) :
    ∃ m', Machine.boot (program ++ List.replicate n (.int 0)) limit = .ok m' ∧
      (∀ inputs k,
        let s := (m.feed inputs).2.stepped k
        let s' := (m'.feed inputs).2.stepped k
        s'.step.1 = s.step.1 ∧ s.Lengthened s') ∧
      (∀ inputs budget fuel,
        (m'.run inputs budget fuel).1 = (m.run inputs budget fuel).1 ∧
        (m.run inputs budget fuel).2.Lengthened (m'.run inputs budget fuel).2) ∧
      ∀ calls answers peeked, Peeked m calls answers peeked →
        (m.callAll calls).1 = answers ∧ (m.callAll calls).2.Lengthened peeked := by
  have permits : m.memory.Permits (program.length + n) := by
    refine Memory.permits_iff.2 (.inr fun l hl => allowed l ?_)
    rw [← hl, (inRange_boot boot).2.2]
  refine ⟨m.pad (program.length + n), boot_zeros boot n, fun inputs k => ?_,
    fun inputs budget fuel => ?_, fun calls answers peeked h => ?_⟩
  · have fed := (kept_permits _).lasting.feed inputs permits
    obtain ⟨hstepped, hlast⟩ := stepped_pad fed k
    simp only [feed_pad, hstepped, step_pad hlast, true_and]
    exact lengthened_pad _ _
  · simp only [run_pad permits, true_and]
    exact lengthened_pad _ _
  · obtain ⟨hanswers, k, rfl⟩ := h.same
    exact ⟨hanswers, lengthened_pad _ _⟩

/-- A program whose last instruction has two of its operands past the end. It puts
its input behind itself, gives out five, and overwrites its first cell; then the input
that it has put there halts it. It does the same with five zeros more, under a limit of
twelve cells, and if a cell is read while it waits. -/
theorem zeros_unobservable_operands :
    let program : List Datum := [3, 8, 104, 5, 1101, 99].map .int
    let m : Machine := { memory := ⟨#[3, 8, 104, 5, 1101, 99], some 12⟩ }
    let calls : List (Nat × Call) := [(0, .tick (some 4)), (0, .run [.int 99] (some 4))]
    let ended : Machine :=
      { pointer := 8, status := .halted, lastOutput := some 5, steps := 4,
        memory := ⟨#[99, 8, 104, 5, 1101, 99, 0, 0, 99, 0, 0], some 12⟩ }
    boot program (some 12) = .ok m ∧
      (∀ l, some (12 : Int) = some l → ((program.length + 5 : Nat) : Int) ≤ l) ∧
      (∃ m', boot (program ++ List.replicate 5 (.int 0)) (some 12) = .ok m' ∧
        (m'.run [.int 99] (some 4) 0).1 = some (.ok [5]) ∧
        (m.run [.int 99] (some 4) 0).2.Lengthened (m'.run [.int 99] (some 4) 0).2) ∧
      ∃ answers, Peeked m calls answers ended ∧ (m.callAll calls).1 = answers ∧
        (m.callAll calls).2.Lengthened ended := by
  intro program m calls ended
  have boots : boot program (some 12) = .ok m := boot_ints (by decide) (some 12)
  have allowed : ∀ l, some (12 : Int) = some l → ((program.length + 5 : Nat) : Int) ≤ l := by
    rintro l hl
    cases hl
    decide
  obtain ⟨m', boots', -, runs, peeks⟩ := zeros_unobservable boots allowed
  have halts : (m.run [.int 99] (some 4) 0).1 = some (.ok [5]) := by decide +kernel
  let asked : Machine := { m with status := .awaitingInput, awaited := some 8 }
  have asks : m.call 0 (.tick (some 4)) = (some (.ok (.event (some (.awaiting 8)))), asked) := by
    decide +kernel
  have reads : asked.peek 10 = (.ok 0, asked.pad 11) := by decide +kernel
  have ends : (asked.pad 11).call 0 (.run [.int 99] (some 4)) =
      (some (.ok (.outputs [5])), ended) := by decide +kernel
  have peeked : Peeked m calls _ ended := .call asks (.peek reads (.call ends (.done ended)))
  refine ⟨boots, allowed, ⟨m', boots', ?_, (runs [.int 99] (some 4) 0).2⟩, _, peeked,
    peeks calls _ ended peeked⟩
  rw [(runs [.int 99] (some 4) 0).1, halts]

end Machine
end Intcode
