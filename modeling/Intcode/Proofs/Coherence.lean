/-
# Which machines report an awaited address

A machine keeps the address that it awaits a value for apart from its status.
The two go together if it reports an address just while it waits
(`Machine.Coherent`). Whatever ends a wait by its input clears the address too:
values that are queued, an answer, and an input instruction that completes. The
halt does not.

So every step keeps a machine coherent but the halt of a machine that waits
(`Machine.Coherent.step`). A machine that waits sits on its input instruction,
and only a poke can bring it to halt there. It then reports the address that it
awaited when it halted, and does so for good (`Machine.Stuck`). No other machine
that calls can lead to is incoherent (`Machine.Reachable.coherent_or_stuck`).

Key definitions: `Machine.Coherent`, `Machine.Stuck`.
Key theorems: `Machine.Coherent.step`, `Machine.Undisturbed.coherent`,
`Machine.Reachable.coherent_or_stuck`, `Machine.coherent_unless_stuck`.
-/
import Intcode.Proofs.Halted
import Intcode.Proofs.Suspension

namespace Intcode
namespace Machine

/-- A machine reports an awaited address just while it waits. -/
def Coherent (m : Machine) : Prop := m.awaited ≠ none ↔ m.status = .awaitingInput

instance (m : Machine) : Decidable m.Coherent :=
  inferInstanceAs (Decidable (m.awaited ≠ none ↔ m.status = .awaitingInput))

/-- A machine that has halted while it waited, and still reports the address that
it awaited then. -/
structure Stuck (m₀ m : Machine) : Prop where
  halted : m.status = .halted
  reports : m.awaited ≠ none
  /-- The machine that waited, and then made the step that halted it. -/
  waited : ∃ w, Reachable m₀ w ∧ w.status = .awaitingInput ∧
    w.step.1 = .ok (some .halted) ∧ w.awaited = m.awaited ∧ Reachable w.step.2 m

variable {m m' m₀ : Machine}

namespace Coherent

theorem of_idle (hs : m.status ≠ .awaitingInput) (ha : m.awaited = none) : m.Coherent := by
  unfold Coherent
  simp [hs, ha]

/-- Coherence is a matter of the status and the awaited address alone. -/
theorem congr (h : m.Coherent) (hs : m'.status = m.status) (ha : m'.awaited = m.awaited) :
    m'.Coherent := by
  unfold Coherent at *
  rwa [hs, ha]

/-- A step keeps a machine coherent, unless it halts a machine that waits. -/
theorem step (h : m.Coherent)
    (hw : m.status = .awaitingInput → m.step.1 ≠ .ok (some .halted)) : m.step.2.Coherent := by
  by_cases hh : m.status = .halted
  · rwa [step_halted hh]
  rcases hs : m.step with ⟨answer, m'⟩
  rw [hs] at hw
  show m'.Coherent
  cases Move.of_step hh hs with
  | fails | stores | emits | goes | rebases => exact h.congr rfl rfl
  | waits => simp [Coherent]
  | takes => exact of_idle Status.noConfusion rfl
  | halts =>
    have ha : m.awaited = none := by
      by_contra ha
      exact hw (h.1 ha) rfl
    exact of_idle Status.noConfusion ha

/-- Values that are queued on a machine that waits end its wait, and with it the
report of an address. -/
theorem feed (h : m.Coherent) (values : List Datum) : (m.feed values).2.Coherent := by
  rcases hf : m.feed values with ⟨f | ⟨⟩, m'⟩
  · rwa [feed_error hf]
  · obtain ⟨xs, -, -, ⟨-, rfl⟩ | ⟨-, rfl⟩⟩ := feed_taken hf
    · exact h.congr rfl rfl
    · exact of_idle Status.noConfusion rfl

theorem provide (h : m.Coherent) (value : Datum) : (m.provide value).2.Coherent := by
  rcases hp : m.provide value with ⟨f | ⟨⟩, m'⟩
  · rwa [provide_error hp]
  · obtain ⟨-, -, hs, ha, -⟩ := provide_ok hp
    apply of_idle _ ha
    simp [hs]

theorem peek (h : m.Coherent) (a : Int) : (m.peek a).2.Coherent := h.congr rfl rfl

theorem poke (h : m.Coherent) (a : Int) (value : Datum) : (m.poke a value).2.Coherent :=
  h.congr rfl rfl

end Coherent

/-! ### Without pokes -/

/-- A machine that waits on its input instruction does not halt. -/
theorem Sound.not_halts (h : m.Sound) (hw : m.status = .awaitingInput) :
    m.step.1 ≠ .ok (some .halted) := by
  obtain ⟨dst, waiting⟩ := h.waiting hw
  rw [waiting.step]
  simp

theorem lasting_coherent : Lasting fun m => m.Sound ∧ m.Coherent where
  step h := ⟨h.1.step, h.2.step h.1.not_halts⟩
  feed values h := ⟨h.1.feed values, h.2.feed values⟩

/-- As long as no cell is poked, a machine reports an awaited address just while it
waits. -/
theorem Undisturbed.coherent (h : Undisturbed m₀ m) (sound : m₀.Sound) (coherent : m₀.Coherent) :
    m.Coherent := by
  suffices m.Sound ∧ m.Coherent from this.2
  induction h with
  | start => exact ⟨sound, coherent⟩
  | call _ fuel c quiet ih =>
    apply lasting_coherent.call fuel c ih
    · intro value _
      exact ⟨ih.1.provide value, ih.2.provide value⟩
    · intro a _
      exact ⟨ih.1.peek a, ih.2.peek a⟩
    · intro a value hc
      exact absurd hc (quiet a value)

/-! ### With pokes -/

/-- A stuck machine stays stuck. -/
theorem Stuck.call (h : Stuck m₀ m) (fuel : Nat) (c : Call) : Stuck m₀ (m.call fuel c).2 := by
  have ha : (m.call fuel c).2.awaited = m.awaited :=
    congrArg (·.awaited) (call_halted h.halted fuel c)
  obtain ⟨w, reachable, waits, halts, awaited, after⟩ := h.waited
  refine ⟨call_stays_halted h.halted fuel c, ?_, w, reachable, waits, halts, awaited.trans ha.symm, ?_⟩
  · rw [ha]
    exact h.reports
  · exact .call after fuel c

/-- The halt of a machine that waits leaves it stuck. -/
theorem Stuck.of_halt (reachable : Reachable m₀ m) (coherent : m.Coherent)
    (hw : m.status = .awaitingInput) (hs : m.step.1 = .ok (some .halted)) :
    Stuck m₀ m.step.2 := by
  have hh : m.status ≠ .halted := by
    rw [hw]
    decide
  have hafter : m.step.2.status = .halted ∧ m.step.2.awaited = m.awaited := by
    have hm := step_move hh
    rw [hs] at hm
    generalize m.step.2 = m' at hm
    cases hm with
    | halts => exact ⟨rfl, rfl⟩
  refine ⟨hafter.1, ?_, m, reachable, hw, hs, hafter.2.symm, .start⟩
  rw [hafter.2]
  exact coherent.2 hw

theorem lasting_coherent_or_stuck (m₀ : Machine) :
    Lasting fun m => Reachable m₀ m ∧ (m.Coherent ∨ Stuck m₀ m) where
  step {m} h := by
    refine ⟨.call h.1 0 .step, ?_⟩
    rcases h.2 with coherent | stuck
    · by_cases halts : m.status = .awaitingInput ∧ m.step.1 = .ok (some .halted)
      · exact .inr (.of_halt h.1 coherent halts.1 halts.2)
      · exact .inl (coherent.step fun hw hs => halts ⟨hw, hs⟩)
    · exact .inr (stuck.call 0 .step)
  feed values h :=
    ⟨.call h.1 0 (.feed values), h.2.imp (·.feed values) (·.call 0 (.feed values))⟩

/-- Whatever is asked of a machine, it reports an awaited address just while it
waits, or else it has halted while it waited. -/
theorem Reachable.coherent_or_stuck (h : Reachable m₀ m) (coherent : m₀.Coherent) :
    m.Coherent ∨ Stuck m₀ m := by
  suffices Reachable m₀ m ∧ (m.Coherent ∨ Stuck m₀ m) from this.2
  induction h with
  | start => exact ⟨.start, .inl coherent⟩
  | @call m _ fuel c ih =>
    apply (lasting_coherent_or_stuck m₀).call fuel c ih
    · intro value _
      exact ⟨.call ih.1 0 (.provide value), ih.2.imp (·.provide value) (·.call 0 (.provide value))⟩
    · intro a _
      exact ⟨.call ih.1 0 (.peek a), ih.2.imp (·.peek a) (·.call 0 (.peek a))⟩
    · intro a value _
      exact ⟨.call ih.1 0 (.poke a value), ih.2.imp (·.poke a value) (·.call 0 (.poke a value))⟩

/-- A machine that has not halted reports an awaited address just while it waits,
whatever was asked of it. So does a machine that has halted, if no cell was poked.
A machine that does not was brought to its halt by a step that it made while it
waited, and the address that it reports is the one that it awaited then. -/
theorem coherent_unless_stuck {program : List Datum} {limit : Option Int}
    (boot : boot program limit = .ok m₀) (reachable : Reachable m₀ m) :
    (m.status ≠ .halted → (m.awaited ≠ none ↔ m.status = .awaitingInput)) ∧
    (Undisturbed m₀ m → (m.awaited ≠ none ↔ m.status = .awaitingInput)) ∧
    (¬ m.Coherent → Stuck m₀ m) := by
  obtain ⟨memory, rfl⟩ := boot_ok boot
  have fresh : Coherent { memory := memory } := .of_idle Status.noConfusion rfl
  have h := reachable.coherent_or_stuck fresh
  refine ⟨fun live => ?_, fun undisturbed => ?_, fun incoherent => ?_⟩
  · rcases h with coherent | stuck
    · exact coherent
    · exact absurd stuck.halted live
  · exact undisturbed.coherent (.of_running rfl rfl) fresh
  · exact h.resolve_left incoherent

/-- A machine that waits for its input at address 0. Its input instruction is
overwritten with a halt, and the step that is made then leaves it halted and still
awaiting a value for address 0. -/
theorem coherent_unless_stuck_halt :
    let m₀ : Machine := { memory := ⟨#[3, 0, 99], none⟩ }
    let asked : Machine := { m₀ with status := .awaitingInput, awaited := some 0 }
    let m : Machine :=
      { status := .halted, awaited := some 0, steps := 1, memory := ⟨#[99, 0, 99], none⟩ }
    Machine.boot ([3, 0, 99].map .int) none = .ok m₀ ∧
      Undisturbed m₀ asked ∧ (asked.awaited ≠ none ↔ asked.status = .awaitingInput) ∧
      Reachable m₀ m ∧ Stuck m₀ m := by
  intro m₀ asked m
  have asks : (m₀.call 0 (.tick (some 1))).2 = asked := by decide +kernel
  have pokes : (asked.call 0 (.poke 0 (.int 99))).2 =
      { asked with memory := ⟨#[99, 0, 99], none⟩ } := by decide +kernel
  have halts : (Machine.call 0 .step { asked with memory := ⟨#[99, 0, 99], none⟩ }).2 = m := by
    decide +kernel
  have boots : Machine.boot ([3, 0, 99].map .int) none = .ok m₀ := boot_ints (by decide) none
  have undisturbed : Undisturbed m₀ asked := by
    rw [← asks]
    exact .call .start 0 _ fun a value => Call.noConfusion
  have waits : Reachable m₀ asked := by
    rw [← asks]
    exact .call .start 0 _
  have reachable : Reachable m₀ m := by
    rw [← halts, ← pokes]
    exact .call (.call waits 0 _) 0 _
  obtain ⟨-, quiet, -⟩ := coherent_unless_stuck boots waits
  obtain ⟨-, -, stuck⟩ := coherent_unless_stuck boots reachable
  exact ⟨boots, undisturbed, quiet undisturbed, reachable, stuck (by decide)⟩

/-- A poke can bring a machine to report an awaited address after it has halted. -/
theorem halted_awaiting : ¬ ∀ (program : List Datum) (limit : Option Int) (m₀ m : Machine),
    boot program limit = .ok m₀ → Reachable m₀ m →
      (m.awaited ≠ none ↔ m.status = .awaitingInput) := by
  intro always
  let m₀ : Machine := { memory := ⟨#[3, 0, 99], none⟩ }
  have reachable : Reachable m₀
      { m₀ with status := .halted, awaited := some 0, steps := 1, memory := ⟨#[99, 0, 99], none⟩ } := by
    have calls : (((m₀.call 0 (.tick (some 1))).2.call 0 (.poke 0 (.int 99))).2.call 0 .step).2 =
        { m₀ with
          status := .halted, awaited := some 0, steps := 1, memory := ⟨#[99, 0, 99], none⟩ } := by
      decide +kernel
    rw [← calls]
    exact .call (.call (.call .start 0 _) 0 _) 0 _
  have boots : boot ([3, 0, 99].map .int) none = .ok m₀ := boot_ints (by decide) none
  have coherent := always _ _ m₀ _ boots reachable
  cases coherent.1 (by simp)

end Machine
end Intcode
