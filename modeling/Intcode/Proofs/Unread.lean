/-
# Values that are queued and never read

A driver may queue more values than a program reads. A machine with more values
queued behind its own does what the machine without them does, up to the moment
at which that one finds its queue empty (`Machine.Asks`). Until then the values
stay in their order at the end of the queue.

A step that does not ask takes at most the first of its own values, and a failed
one takes none, so the values behind go through it (`Machine.step_unread`). From
there they go through steps in a row and through each drive, unless the drive
ends by asking.

Key definition: `Machine.Asks`.
Key theorems: `Machine.step_unread`, `Machine.collect_unread`, `Machine.run_unread`,
`Machine.unread_unobservable`.
-/
import Intcode.Proofs.Zeros

namespace Intcode
namespace Machine

/-- The next step of the machine asks for an input, and none is queued. -/
def Asks (m : Machine) : Prop :=
  m.inputs = [] ∧ ∃ address, m.step.1 = .ok (some (.awaiting address))

instance (m : Machine) : Decidable m.Asks :=
  have : Decidable (∃ address, m.step.1 = .ok (some (.awaiting address))) :=
    match m.step.1 with
    | .ok (some (.awaiting address)) => .isTrue ⟨address, rfl⟩
    | .error _ | .ok none | .ok (some (.output _)) | .ok (some .halted) => .isFalse nofun
  inferInstanceAs (Decidable (_ ∧ _))

variable {m : Machine}

/-! ### Steps -/

/-- A step that does not ask does the same with more values queued, and leaves
them where they are. -/
theorem step_unread (h : ¬ m.Asks) (xs : List Int) :
    (m.enqueue xs).step = (m.step.1, m.step.2.enqueue xs) := by
  refine step_enqueue rfl (fun a ha => h ⟨?_, a, ha⟩) xs
  exact (step_awaiting (Prod.ext ha rfl)).2.1

theorem stepped_unread {k : Nat} (h : ∀ j < k, ¬ (m.stepped j).Asks) (xs : List Int) :
    (m.enqueue xs).stepped k = (m.stepped k).enqueue xs := by
  induction k generalizing m with
  | zero => rfl
  | succ k ih =>
    have first : ¬ m.Asks := h 0 (Nat.succ_pos k)
    rw [stepped, stepped, step_unread first]
    exact ih fun j hj => h (j + 1) (Nat.succ_lt_succ hj)

/-! ### Drives -/

/-- A drive that does not end by asking does the same with more values queued. -/
theorem advance_unread {n : Nat} (h : ∀ a, (m.advance n).1 ≠ some (.ok (.awaiting a)))
    (xs : List Int) : (m.enqueue xs).advance n = ((m.advance n).1, (m.advance n).2.enqueue xs) := by
  induction n generalizing m with
  | zero => rfl
  | succ n ih =>
    rcases hs : m.step with ⟨f | _ | event, m'⟩ <;> simp only [advance, hs] at h ⊢
    · rw [step_enqueue hs (fun a ha => by cases ha)]
    · rw [step_enqueue hs (fun a ha => by cases ha)]
      exact ih h
    · rw [step_enqueue hs (fun a ha => h a (by cases ha; rfl))]

theorem tick_unread {budget : Option Int} {fuel : Nat}
    (h : ∀ a, (m.tick budget fuel).1 ≠ some (.ok (.awaiting a))) (xs : List Int) :
    (m.enqueue xs).tick budget fuel =
      ((m.tick budget fuel).1, (m.tick budget fuel).2.enqueue xs) := by
  by_cases hh : m.status = .halted
  · rw [tick_halted hh, tick_halted (m := m.enqueue xs) hh]
  have hh' : (m.enqueue xs).status ≠ .halted := hh
  have quiet (a : Int) : (m.advance (allowance budget fuel)).1 ≠ some (.ok (.awaiting a)) := by
    intro ha
    apply h a
    rcases hm : m.advance (allowance budget fuel) with ⟨answer, m'⟩
    rw [hm] at ha
    simp only at ha
    simp only [tick, hh, if_false, hm, ha]
  simp only [tick, hh, hh', if_false, advance_unread quiet xs]
  rcases m.advance (allowance budget fuel) with ⟨_ | answer, m'⟩ <;> rfl

/-- The stretch with more values queued on its machine. -/
def Stretch.enqueue (xs : List Int) (s : Stretch) : Stretch :=
  ⟨s.outputs, s.ending, s.machine.enqueue xs⟩

theorem collect_unread {window n : Nat} {outputs : List Int}
    (h : ∀ a, (m.collect window outputs n).ending ≠ .awaiting a) (xs : List Int) :
    (m.enqueue xs).collect window outputs n = (m.collect window outputs n).enqueue xs := by
  induction n generalizing m window outputs with
  | zero => rfl
  | succ n ih =>
    rcases hs : m.step with ⟨f | _ | v | a | _, m'⟩ <;> simp only [collect, hs] at h ⊢
    · rw [step_enqueue hs (fun a ha => by cases ha)]
      rfl
    · rw [step_enqueue hs (fun a ha => by cases ha)]
      exact ih h
    · rw [step_enqueue hs (fun a ha => by cases ha)]
      exact ih h
    · exact absurd rfl (h a)
    · rw [step_enqueue hs (fun a ha => by cases ha)]
      rfl

/-- A run to the halt that starts with more values queued, and whose counterpart
without them does not ask for more, goes as its counterpart does. -/
theorem run_unread {m' start : Machine} {inputs inputs' : List Datum} {xs : List Int}
    {budget : Option Int} {fuel : Nat} (hh : m.status ≠ .halted) (hh' : m'.status ≠ .halted)
    (hf : m.feed inputs = (.ok (), start)) (hf' : m'.feed inputs' = (.ok (), start.enqueue xs))
    (h : ∀ f, (m.run inputs budget fuel).1 = some (.error f) → f.kind ≠ .inputExhausted) :
    m'.run inputs' budget fuel =
        ((m.run inputs budget fuel).1, (m.run inputs budget fuel).2.enqueue xs) ∧
      m'.runOutputs inputs' budget fuel = m.runOutputs inputs budget fuel := by
  let n := allowance budget fuel
  have quiet (a : Int) : (start.collect n [] n).ending ≠ .awaiting a := by
    intro ha
    rw [run_fed hh hf] at h
    exact h (.runStarved a (start.collect n [] n).machine.pointer)
      (by simp only [Stretch.answer]; rw [ha]) rfl
  have same := collect_unread quiet xs
  refine ⟨?_, ?_⟩
  · rw [run_fed hh hf, run_fed hh' hf', same]
    rfl
  · rw [runOutputs_fed hh hf, runOutputs_fed hh' hf', same]
    rfl

/-- A machine and the same machine with more values queued behind its own make the
same steps: after each, they agree in everything but the queue, and the queue of the
second is that of the first with the values behind it. So it goes on as long as the
first has not asked for an input with its queue empty, also over steps that fail.

A drive to the next event that does not end by asking, and a run to the halt that does
not fail for want of an input, answers the same with the values queued, be it by the
halt, by a fault or by a step limit. It gives out the same outputs, also if it fails,
and leaves the values unread. It is the same whether they are in the queue beforehand
or given to the run after inputs of its own. -/
theorem unread_unobservable (m : Machine) (extra : List Int) :
    (∀ k, (∀ j < k, ¬ (m.stepped j).Asks) →
      (m.enqueue extra).stepped k = (m.stepped k).enqueue extra ∧
      (¬ (m.stepped k).Asks → ((m.enqueue extra).stepped k).step.1 = (m.stepped k).step.1)) ∧
    (∀ budget fuel, (∀ a, (m.tick budget fuel).1 ≠ some (.ok (.awaiting a))) →
      (m.enqueue extra).tick budget fuel =
        ((m.tick budget fuel).1, (m.tick budget fuel).2.enqueue extra)) ∧
    (∀ budget fuel,
      (∀ f, (m.run [] budget fuel).1 = some (.error f) → f.kind ≠ .inputExhausted) →
      (m.enqueue extra).run [] budget fuel =
          ((m.run [] budget fuel).1, (m.run [] budget fuel).2.enqueue extra) ∧
        (m.enqueue extra).runOutputs [] budget fuel = m.runOutputs [] budget fuel) ∧
    ((∀ x ∈ extra, InCell x) → m.status = .running →
      ∀ inputs : List Int, (∀ x ∈ inputs, InCell x) → ∀ budget fuel,
        (∀ f, (m.run (inputs.map .int) budget fuel).1 = some (.error f) →
          f.kind ≠ .inputExhausted) →
        m.run ((inputs ++ extra).map .int) budget fuel =
            ((m.run (inputs.map .int) budget fuel).1,
              (m.run (inputs.map .int) budget fuel).2.enqueue extra) ∧
          m.runOutputs ((inputs ++ extra).map .int) budget fuel =
            m.runOutputs (inputs.map .int) budget fuel) := by
  refine ⟨fun k quiet => ?_, fun budget fuel quiet => tick_unread quiet extra,
    fun budget fuel quiet => ?_, fun fits running inputs valid budget fuel quiet => ?_⟩
  · have same := stepped_unread quiet extra
    refine ⟨same, fun last => ?_⟩
    rw [same, step_unread last]
  · by_cases hh : m.status = .halted
    · have hh' : (m.enqueue extra).status = .halted := hh
      rw [run_halted hh, run_halted hh', runOutputs, runOutputs, if_pos hh, if_pos hh']
      exact ⟨rfl, rfl⟩
    · exact run_unread hh hh (feed_nil m) (feed_nil _) quiet
  · have live : m.status ≠ .halted := by
      rw [running]
      decide
    have all := feed_running running (List.forall_mem_append.2 ⟨valid, fits⟩)
    rw [← enqueue_enqueue] at all
    exact run_unread live live (feed_running running valid) all quiet

/-- A program that takes two values, gives out their sum and halts, with a third value
queued, or given to it. It never asks for it. -/
theorem unread_unobservable_sum :
    let m : Machine :=
      { inputs := [2, 5], memory := ⟨#[3, 11, 3, 12, 1, 11, 12, 11, 4, 11, 99], none⟩ }
    let start : Machine := { m with inputs := [] }
    (∀ j < 5, ¬ (m.stepped j).Asks) ∧
      (m.enqueue [9]).stepped 5 = (m.stepped 5).enqueue [9] ∧
      (m.tick (some 4) 0).1 = some (.ok (.output 7)) ∧
      ((m.enqueue [9]).tick (some 4) 0).1 = some (.ok (.output 7)) ∧
      (m.run [] (some 5) 0).1 = some (.ok [7]) ∧
      ((m.enqueue [9]).run [] (some 5) 0).1 = some (.ok [7]) ∧
      (∀ x ∈ [(9 : Int)], InCell x) ∧ start.status = .running ∧ (∀ x ∈ [2, 5], InCell x) ∧
      (start.run ([2, 5].map .int) (some 5) 0).1 = some (.ok [7]) ∧
      (start.run ([2, 5, 9].map .int) (some 5) 0).1 = some (.ok [7]) := by
  intro m start
  obtain ⟨steps, ticks, runs, -⟩ := unread_unobservable m [9]
  obtain ⟨-, -, -, runs'⟩ := unread_unobservable start [9]
  have quiet : ∀ j < 5, ¬ (m.stepped j).Asks := by decide +kernel
  have told : (m.tick (some 4) 0).1 = some (.ok (.output 7)) := by decide +kernel
  have halts : (m.run [] (some 5) 0).1 = some (.ok [7]) := by decide +kernel
  have halts' : (start.run ([2, 5].map .int) (some 5) 0).1 = some (.ok [7]) := by decide +kernel
  have fits : ∀ x ∈ [(9 : Int)], InCell x := by decide
  have valid : ∀ x ∈ [(2 : Int), 5], InCell x := by decide
  have tick := ticks (some 4) 0 (by rw [told]; nofun)
  have run := (runs (some 5) 0 (by rw [halts]; nofun)).1
  have run' := (runs' fits rfl [2, 5] valid (some 5) 0 (by rw [halts']; nofun)).1
  refine ⟨quiet, (steps 5 quiet).1, told, ?_, halts, ?_, fits, rfl, valid, halts', ?_⟩
  · rw [tick, told]
  · rw [run, halts]
  · exact (congrArg Prod.fst run').trans halts'

end Machine
end Intcode
