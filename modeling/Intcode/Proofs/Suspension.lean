/-
# A suspended machine sits on its input instruction

A machine that waits keeps two things for the answer: the address that it is to
go to, and, in its pointer, where to go on. An answer is put straight at the
address and the pointer moved on by two cells, while values that are queued let
the instruction be decoded again. The two come to the same as long as the
instruction is still the one that was decoded when the wait began.

Nothing but a poke can change that (`Machine.Undisturbed`). Every other call
keeps a machine sound: if it waits, it waits on the instruction that it awaits a
value for (`Machine.Sound`), its queue is empty, and decoding needs no growth
(`Machine.Waiting`).

Key definition: `Machine.Undisturbed`.
Key theorems: `Machine.lasting_sound`, `Machine.Undisturbed.sound`, `Machine.Waiting.tick`,
`Machine.Waiting.answered`, `Machine.Undisturbed.suspended`.
-/
import Intcode.Proofs.Reachable
import Intcode.Proofs.Schedule

namespace Intcode
namespace Machine

/-- The machines that calls other than pokes can make of a machine. A call may
fail, and a drive without a budget may be given up before it ends. -/
inductive Undisturbed (m₀ : Machine) : Machine → Prop where
  | start : Undisturbed m₀ m₀
  | call {m : Machine} (before : Undisturbed m₀ m) (fuel : Nat) (c : Call)
      (quiet : ∀ a value, c ≠ .poke a value) : Undisturbed m₀ (m.call fuel c).2

variable {m m' : Machine}

/-! ### Soundness lasts -/

theorem Sound.step (h : m.Sound) : m.step.2.Sound := by
  by_cases hh : m.status = .halted
  · rwa [step_halted hh]
  by_cases hw : m.status = .awaitingInput
  · obtain ⟨dst, waiting⟩ := h.waiting hw
    rwa [waiting.step]
  have hr : m.status = .running := by
    cases hs : m.status with
    | running => rfl
    | awaitingInput => exact absurd hs hw
    | halted => exact absurd hs hh
  rcases hs : m.step with ⟨answer, m'⟩
  show m'.Sound
  cases Move.of_step hh hs with
  | fails | stores | emits | goes | rebases => exact .of_running hr (h.running hr)
  | takes => exact .of_running rfl rfl
  | waits => exact (Waiting.of_step hs).sound
  | halts => exact .of_halted rfl

theorem Sound.feed (h : m.Sound) (values : List Datum) : (m.feed values).2.Sound := by
  rcases hf : m.feed values with ⟨f | ⟨⟩, m'⟩
  · rwa [feed_error hf]
  obtain ⟨xs, -, -, ⟨hnone, rfl⟩ | ⟨-, rfl⟩⟩ := feed_taken hf
  · show (m.enqueue xs).Sound
    by_cases hw : m.status = .awaitingInput
    · rwa [hnone hw, enqueue_nil]
    · exact ⟨fun hw' => absurd hw' hw, h.running⟩
  · exact .of_running rfl rfl

theorem lasting_sound : Lasting Sound := ⟨Sound.step, fun values h => h.feed values⟩

theorem Sound.provide (h : m.Sound) (value : Datum) : (m.provide value).2.Sound := by
  rcases hp : m.provide value with ⟨f | ⟨⟩, m'⟩
  · rwa [provide_error hp]
  · obtain ⟨-, -, hs, ha, -⟩ := provide_ok hp
    exact .of_running hs ha

/-- A cell that is read adds zeros at most, and decoding goes alike with them. -/
theorem Sound.peek (h : m.Sound) (a : Int) : (m.peek a).2.Sound := by
  obtain ⟨n, hn, hgrown⟩ := Memory.read_grown m.memory a
  have hm : (m.peek a).2 = m.pad n := by
    show ({ m with memory := (m.memory.read a).2 } : Machine) = _
    rw [hgrown]
    rfl
  rw [hm]
  refine ⟨fun hw => ?_, h.running⟩
  obtain ⟨dst, waiting⟩ := h.waiting hw
  exact ⟨dst, waiting.pad hn⟩

theorem Undisturbed.sound {m₀ : Machine} (h : Undisturbed m₀ m) (h₀ : m₀.Sound) : m.Sound := by
  induction h with
  | start => exact h₀
  | call _ fuel c quiet ih =>
    apply lasting_sound.call fuel c ih
    · intro value _
      exact ih.provide value
    · intro a _
      exact ih.peek a
    · intro a value hc
      exact absurd hc (quiet a value)

/-! ### What a waiting machine does -/

/-- A drive to the next event finds the wait, if it may look for it. -/
theorem Waiting.tick {dst : Int} (h : m.Waiting dst) {budget : Option Int} {fuel : Nat}
    (hn : 0 < allowance budget fuel) :
    m.tick budget fuel = (some (.ok (.awaiting dst)), m) := by
  obtain ⟨n, hn⟩ : ∃ n, allowance budget fuel = n + 1 := ⟨allowance budget fuel - 1, by omega⟩
  have hh : m.status ≠ .halted := by
    rw [h.status]
    decide
  rw [Machine.tick, if_neg hh, hn, advance, h.step]

/-- An answer that is taken leads to the machine that queues the value and makes
a step. -/
theorem Waiting.answered {dst : Int} (h : m.Waiting dst) {value : Datum}
    (hp : m.provide value = (.ok (), m')) :
    ∃ fed, m.feed [value] = (.ok (), fed) ∧ fed.step = (.ok none, m') := by
  obtain ⟨v, rfl, hv⟩ := provide_int hp
  refine ⟨m.resume [v], ?_, ?_⟩
  · have fits : ∀ x ∈ [v], InCell x := List.forall_mem_singleton.2 hv
    have hlive : m.status ≠ .halted := by
      rw [h.status]
      exact Status.noConfusion
    have hfed := feed_ints (List.cons_ne_nil v []) fits hlive
    rw [if_pos h.status, h.empty] at hfed
    exact hfed
  · calc (m.resume [v]).step = (.ok none, m'.enqueue []) := by rw [h.provide v [], hp]
      _ = (.ok none, m') := by rw [enqueue_nil]

/-- A machine that waits, after any calls but pokes, sits on its input
instruction: its queue is empty, and decoding at its pointer yields that
instruction, for the address that it awaits a value for, and needs no growth. A
step, and a drive to the next event without a budget or with a positive one, tell
the same wait again and change nothing at all. An answer that is taken leads to
just the machine that queues the value and then makes a step. -/
theorem Undisturbed.suspended {program : List Datum} {limit : Option Int} {m₀ m : Machine}
    (boot : boot program limit = .ok m₀) (undisturbed : Undisturbed m₀ m)
    (waits : m.status = .awaitingInput) :
    ∃ dst, m.awaited = some dst ∧ m.inputs = [] ∧
      m.fetch = (.ok (.input dst, m.pointer + 2), m.memory) ∧
      m.step = (.ok (some (.awaiting dst)), m) ∧
      (∀ fuel, m.tick none (fuel + 1) = (some (.ok (.awaiting dst)), m)) ∧
      (∀ budget fuel, 0 < budget → m.tick (some budget) fuel = (some (.ok (.awaiting dst)), m)) ∧
      ∀ value m', m.provide value = (.ok (), m') →
        ∃ fed, m.feed [value] = (.ok (), fed) ∧ fed.step = (.ok none, m') := by
  obtain ⟨memory, rfl⟩ := boot_ok boot
  have sound : m.Sound := undisturbed.sound (.of_running rfl rfl)
  obtain ⟨dst, waiting⟩ := sound.waiting waits
  refine ⟨dst, waiting.awaited, waiting.empty, waiting.fetched, waiting.step, fun fuel => ?_,
    fun budget fuel hb => ?_, fun value m' hp => waiting.answered hp⟩
  · exact waiting.tick (Nat.succ_pos fuel)
  · exact waiting.tick (show 0 < budget.toNat by omega)

/-- A program that gives out its input and begins again, seven cells long under a
limit of eight. It is run to its output, and then until it starves. It is refused
an answer that does not fit and a read past the limit, and its last cell is read.
The answer that it then takes overwrites the very instruction that asked. -/
theorem Undisturbed.suspended_echo :
    let m₀ : Machine := { memory := ⟨#[3, 0, 4, 0, 1105, 1, 0], some 8⟩ }
    let m : Machine :=
      { pointer := 0, status := .awaitingInput, awaited := some 0, lastOutput := some 3, steps := 3,
        memory := ⟨#[3, 0, 4, 0, 1105, 1, 0, 0], some 8⟩ }
    let m' : Machine :=
      { m with
        pointer := 2, status := .running, awaited := none, steps := 4
        memory := ⟨#[99, 0, 4, 0, 1105, 1, 0, 0], some 8⟩ }
    Machine.boot ([3, 0, 4, 0, 1105, 1, 0].map .int) (some 8) = .ok m₀ ∧ Undisturbed m₀ m ∧
      m.status = .awaitingInput ∧ m.fetch = (.ok (.input 0, 2), m.memory) ∧
      m.provide (.int 99) = (.ok (), m') ∧
      ∃ fed, m.feed [.int 99] = (.ok (), fed) ∧ fed.step = (.ok none, m') := by
  intro m₀ m m'
  let told : Machine :=
    { pointer := 4, lastOutput := some 3, steps := 2,
      memory := ⟨#[3, 0, 4, 0, 1105, 1, 0], some 8⟩ }
  let asked : Machine :=
    { m with memory := ⟨#[3, 0, 4, 0, 1105, 1, 0], some 8⟩ }
  have tells : (m₀.call 0 (.runToOutput [.int 3] (some 2))).2 = told := by decide +kernel
  have starves : (told.call 2 (.run [] none)).2 = asked := by decide +kernel
  have refuses : (asked.call 0 (.provide (.int (cellMax + 1)))).2 = asked := by decide +kernel
  have stops : (asked.call 0 (.peek 8)).2 = asked := by decide +kernel
  have reads : (asked.call 0 (.peek 7)).2 = m := by decide +kernel
  have undisturbed : Undisturbed m₀ m := by
    rw [← reads, ← stops, ← refuses, ← starves, ← tells]
    refine .call (.call (.call (.call (.call .start _ _ ?_) _ _ ?_) _ _ ?_) _ _ ?_) _ _ ?_ <;>
      exact fun a value => Call.noConfusion
  have boots : Machine.boot ([3, 0, 4, 0, 1105, 1, 0].map .int) (some 8) = .ok m₀ :=
    boot_ints (by decide) (some 8)
  have answered : m.provide (.int 99) = (.ok (), m') := rfl
  obtain ⟨dst, awaited, -, fetched, -, -, -, same⟩ := Undisturbed.suspended boots undisturbed rfl
  cases awaited
  exact ⟨boots, undisturbed, rfl, fetched, answered, same (.int 99) m' answered⟩

end Machine
end Intcode
