/-
# A run goes on where it was interrupted

A run to the halt that is cut off by its budget, or that finds the queue empty,
leaves a machine that can be run again. The second run, with more inputs, is the
rest of the one run that has the inputs of both from the start (`Machine.run_resumes`).

That run has the later inputs queued all along, behind the others
(`Machine.supplied`), and they go through the instructions of the first run
(`Machine.Steps.supplied`). Where the first run was cut off, both are at the same
machine. Where it found the queue empty, it has left a machine that waits, with its
instruction decoded. That machine, fed the later inputs, has the same next step as the
one that had them queued (`Machine.Continues`), and from a common step on they are
the same (`Machine.Continues.run`).

Key definition: `Machine.Continues`.
Key theorems: `Machine.Steps.supplied`, `Machine.interrupted`, `Machine.Continues.run`,
`Machine.Continues.runs_iff`, `Machine.run_resumes`.
-/
import Intcode.Proofs.Budget
import Intcode.Proofs.Coherence

namespace Intcode
namespace Machine

variable {m m' m'' start : Machine}

/-! ### Inputs that are supplied late -/

theorem supplied_inputs (m : Machine) (xs : List Int) :
    (m.supplied xs).inputs = m.inputs ++ xs := by
  unfold supplied
  split <;> rfl

theorem supplied_steps (m : Machine) (xs : List Int) : (m.supplied xs).steps = m.steps := by
  unfold supplied
  split <;> rfl

theorem supplied_append (m : Machine) (xs ys : List Int) :
    (m.supplied xs).supplied ys = m.supplied (xs ++ ys) := by
  by_cases hw : m.status = .awaitingInput
  · have hr : (m.resume (m.inputs ++ xs)).status ≠ .awaitingInput := Status.noConfusion
    rw [supplied_eq_resume hw, supplied_eq_resume hw, supplied_eq_enqueue hr, ← List.append_assoc]
    rfl
  · have hr : (m.enqueue xs).status ≠ .awaitingInput := hw
    rw [supplied_eq_enqueue hw, supplied_eq_enqueue hw, supplied_eq_enqueue hr, enqueue_enqueue]

/-- Inputs that are fed are supplied. -/
theorem feed_supplied {xs : List Int} (hne : xs ≠ []) (hx : ∀ x ∈ xs, InCell x)
    (hh : m.status ≠ .halted) : m.feed (xs.map .int) = (.ok (), m.supplied xs) := by
  rw [feed_ints hne hx hh]
  unfold supplied
  split <;> rfl

/-- Inputs that are fed later are supplied to the machine that was fed the first
ones. -/
theorem feed_later {xs ys : List Int} (hne : ys ≠ []) (hx : ∀ x ∈ xs, InCell x)
    (hy : ∀ y ∈ ys, InCell y) (hh : m.status ≠ .halted)
    (hf : m.feed (xs.map .int) = (.ok (), start)) :
    m.feed ((xs ++ ys).map .int) = (.ok (), start.supplied ys) := by
  rw [feed_supplied (List.append_ne_nil_of_right_ne_nil xs hne)
    (List.forall_mem_append.2 ⟨hx, hy⟩) hh, ← supplied_append]
  by_cases hnil : xs = []
  · subst hnil
    cases hf
    by_cases hw : m.status = .awaitingInput
    · rw [supplied_append, List.nil_append]
    · rw [supplied_eq_enqueue hw [], enqueue_nil]
  · rw [feed_supplied hnil hx hh] at hf
    cases hf
    rfl

/-- A step that completes an instruction does so with more inputs supplied, also if
the machine that makes it is held to wait. -/
theorem step_supplied {answer : Option Event} (h : m.step = (.ok answer, m'))
    (ha : answer = none ∨ ∃ v, answer = some (.output v)) (xs : List Int) :
    (m.supplied xs).step = (.ok answer, m'.supplied xs) := by
  have live := (step_live h ha).1
  by_cases hw : m.status = .awaitingInput
  · have hr : (m.resume (m.inputs ++ xs)).status ≠ .halted := Status.noConfusion
    have held (m₁ : Machine) (h₁ : m₁.status = m.status) :
        m₁.resume (m₁.inputs ++ xs) = m₁.supplied xs := (supplied_eq_resume (h₁.trans hw) xs).symm
    rw [supplied_eq_resume hw]
    cases Move.of_step live h with
    | stores hf he hwrite =>
      rw [step_fetched hr hf, he, ← held _ (by rfl)]
      simp only [carryOut, hwrite]
      rfl
    | takes hf hq hwrite =>
      rw [step_fetched hr hf, supplied_eq_enqueue Status.noConfusion]
      simp only [Instruction.effect, carryOut, resume, hq, List.cons_append, hwrite]
      rfl
    | emits hf he | goes hf he =>
      rw [step_fetched hr hf, he, ← held _ (by rfl)]
      rfl
    | rebases hf he fits =>
      rw [step_fetched hr hf, he, ← held _ (by rfl)]
      simp only [carryOut, resume, Datum.toCell_int fits]
    | waits | halts => rcases ha with ha | ⟨v, ha⟩ <;> cases ha
  · have hr : m.status = .running := by
      cases hs : m.status with
      | running => rfl
      | awaitingInput => exact absurd hs hw
      | halted => exact absurd hs live
    have hr' : m'.status ≠ .awaitingInput := by
      rw [(step_completed h ha).2.1 hr]
      decide
    rw [supplied_eq_enqueue hw, supplied_eq_enqueue hr']
    refine step_enqueue h (fun a hwaits => ?_) xs
    rcases ha with rfl | ⟨v, rfl⟩ <;> cases hwaits

/-- Inputs that are supplied late could have been supplied at the start. -/
theorem Steps.supplied {n : Nat} {out : List Int} (h : Steps n m out m') (xs : List Int) :
    Steps n (m.supplied xs) out (m'.supplied xs) := by
  induction h with
  | refl m => exact .refl _
  | silent first _ ih => exact .silent (step_supplied first (.inl rfl) xs) ih
  | output first _ ih => exact .output (step_supplied first (.inr ⟨_, rfl⟩) xs) ih

/-! ### Where a run is interrupted -/

theorem Steps.coherent {n : Nat} {out : List Int} (h : Steps n m out m') (coherent : m.Coherent) :
    m'.Coherent := by
  induction h with
  | refl => exact coherent
  | silent first _ ih | output first _ ih =>
    have hnext := coherent.step fun _ => by rw [first]; nofun
    rw [first] at hnext
    exact ih hnext

/-- A run that is cut off has completed some instructions and made no step more. A run
that fails for want of an input has then made the step that asks for it. -/
theorem interrupted {inputs : List Datum} {budget : Option Int} {fuel : Nat} {f : Fault}
    (hh : m.status ≠ .halted) (hf : m.feed inputs = (.ok (), start))
    (h : m.run inputs budget fuel = (some (.error f), m'))
    (cause : f.kind = .stepLimitExceeded ∨ f.kind = .inputExhausted) :
    ∃ n last, Steps n start (m.runOutputs inputs budget fuel) last ∧
      (m' = last ∨
        f.kind = .inputExhausted ∧ ∃ a, last.step = (.ok (some (.awaiting a)), m')) := by
  rw [run_fed hh hf] at h
  rw [runOutputs_fed hh hf]
  rcases collect_cases (allowance budget fuel) start (allowance budget fuel) [] with
    ⟨out, m₁, w, hr, hc⟩ | ⟨k, out, last, told, m₁, e, -, hr, hstep, he, hc⟩ <;> rw [hc] at h ⊢
  · cases budget <;> cases h
    exact ⟨_, _, hr, .inl rfl⟩
  · rcases told with g | _ | v | a | _ <;> cases he <;> cases h
    · -- a fault of a step is of neither kind
      have hk := step_fault hstep
      rcases cause with hcause | hcause <;> rw [hcause] at hk <;> exact absurd hk (by decide)
    · exact ⟨k, last, hr, .inr ⟨rfl, a, hstep⟩⟩

/-- A machine that asks for an input would have made, with inputs queued, the step that it
makes when they are fed to it. -/
theorem step_asked {a : Int} (h : m.step = (.ok (some (.awaiting a)), m')) (coherent : m.Coherent)
    (xs : List Int) : (m.supplied xs).step = (m'.supplied xs).step := by
  obtain ⟨live, hq, hf, hm⟩ := step_awaiting h
  have waiting := Waiting.of_step h
  rw [supplied_eq_resume waiting.status, waiting.empty, List.nil_append]
  by_cases hw : m.status = .awaitingInput
  · have hf' : (m'.resume xs).fetch = (.ok (.input a, m.pointer + 2), m'.memory) := by
      rw [hm]
      exact Memory.fetch_again hf
    rw [supplied_eq_resume hw, hq, List.nil_append, step_fetched Status.noConfusion hf',
      step_fetched (m := m.resume xs) Status.noConfusion hf, hm]
    rfl
  · have hr : m.status = .running := by
      cases hs : m.status with
      | running => rfl
      | awaitingInput => exact absurd hs hw
      | halted => exact absurd hs live
    have ha : m.awaited = none := by
      by_contra ha
      exact hw (coherent.1 ha)
    rw [supplied_eq_enqueue hw, step_awaiting_enqueue h hr ha]

/-! ### From a common step on -/

/-- The machine `resumed` goes on from where `start` comes to in `n` instructions, which
give out `before`. It has completed as many, has the same inputs queued, and makes the
same step. -/
def Continues (start : Machine) (n : Nat) (before : List Int) (resumed : Machine) : Prop :=
  ∃ mid, Steps n start before mid ∧ mid.steps = resumed.steps ∧ mid.inputs = resumed.inputs ∧
    mid.step = resumed.step

/-- What was given out before a stretch comes before what is given out in it, and makes no
other difference. -/
theorem collect_before (before outputs : List Int) (window window' n : Nat) (m : Machine) :
    let whole := m.collect window (outputs ++ before.reverse) n
    let rest := m.collect window' outputs n
    whole.answer none = (rest.answer none).map (·.map (before ++ ·)) ∧
      whole.machine = rest.machine := by
  induction n generalizing m window window' outputs with
  | zero => exact ⟨rfl, rfl⟩
  | succ n ih =>
    rcases hs : m.step with ⟨f | _ | v | a | _, m'⟩ <;>
      simp only [collect, hs, and_true]
    · rfl
    · exact ih outputs window window' m'
    · exact ih (v :: outputs) n n m'
    · rfl
    · rw [List.reverse_append, List.reverse_reverse]
      rfl

namespace Continues

variable {resumed : Machine} {n : Nat} {before : List Int} {inputs inputs' : List Datum}

/-- A run with as much more fuel as the instructions before take is the run that goes on. -/
theorem run (h : Continues start n before resumed) (hh : m.status ≠ .halted)
    (hf : m.feed inputs = (.ok (), start)) (hh' : m'.status ≠ .halted)
    (hf' : m'.feed inputs' = (.ok (), resumed)) (k : Nat) :
    m.run inputs none (n + (k + 1)) =
      ((m'.run inputs' none (k + 1)).1.map (·.map (before ++ ·)),
        (m'.run inputs' none (k + 1)).2) := by
  obtain ⟨mid, steps, -, -, same⟩ := h
  obtain ⟨w, hw⟩ := collect_steps steps (n + (k + 1)) [] (k + 1)
  have meet : mid.collect w before.reverse (k + 1) = resumed.collect w before.reverse (k + 1) := by
    rw [collect, collect, same]
  obtain ⟨hanswer, hmachine⟩ := collect_before before [] w (k + 1) (k + 1) resumed
  rw [run_fed hh hf, run_fed hh' hf']
  simp only [allowance]
  rw [hw, List.append_nil, meet]
  exact Prod.ext hanswer hmachine

/-- The run that goes on comes to an end just if the whole run does, and then to the same,
but for what was given out before. -/
theorem runs_iff (h : Continues start n before resumed) (hh : m.status ≠ .halted)
    (hf : m.feed inputs = (.ok (), start)) (hh' : m'.status ≠ .halted)
    (hf' : m'.feed inputs' = (.ok (), resumed)) (whole : Except Fault (List Int))
    (last : Machine) : m.Runs inputs whole last ↔
      ∃ answer, whole = answer.map (before ++ ·) ∧ m'.Runs inputs' answer last := by
  constructor
  · rintro ⟨k, hk⟩
    have hrun := (h.run hh hf hh' hf' k).symm.trans (hk (n + (k + 1)) (by omega))
    rcases hr : m'.run inputs' none (k + 1) with ⟨_ | answer, m₁⟩ <;> rw [hr] at hrun <;> cases hrun
    exact ⟨answer, rfl, k + 1, fun fuel hfuel => run_stable hh' hf' hfuel hr⟩
  · rintro ⟨answer, rfl, k, hk⟩
    refine ⟨n + (k + 1), fun fuel hfuel => ?_⟩
    obtain ⟨j, rfl⟩ : ∃ j, fuel = n + (j + 1) := ⟨fuel - n - 1, by omega⟩
    rw [h.run hh hf hh' hf' j, hk (j + 1) (by omega)]
    rfl

end Continues

/-- With more inputs fed, an interrupted run goes on where the run with all inputs comes to.
A run that was cut off goes on there also without them. -/
theorem interrupted_continues {xs ys : List Int} {budget : Option Int} {fuel : Nat} {f : Fault}
    (coherent : m.Coherent) (hh : m.status ≠ .halted) (hx : ∀ x ∈ xs, InCell x)
    (hy : ∀ y ∈ ys, InCell y) (h : m.run (xs.map .int) budget fuel = (some (.error f), m'))
    (cause : f.kind = .stepLimitExceeded ∨ f.kind = .inputExhausted ∧ ys ≠ []) :
    m'.status ≠ .halted ∧ m'.inputs <:+ m.inputs ++ xs ∧
      ∃ n start resumed, m.feed ((xs ++ ys).map .int) = (.ok (), start) ∧
        m'.feed (ys.map .int) = (.ok (), resumed) ∧ m'.steps = m.steps + n ∧
        Continues start n (m.runOutputs (xs.map .int) budget fuel) resumed := by
  have hfed := feed_ok hx hh
  have hcoherent := coherent.feed (xs.map .int)
  rcases hf : m.feed (xs.map .int) with ⟨fed, start⟩
  rw [hf] at hfed hcoherent
  obtain rfl : fed = .ok () := hfed
  obtain ⟨hlive, hsteps⟩ := feed_live hh hf
  obtain ⟨n, last, steps, left⟩ := interrupted hh hf h (cause.imp_right And.left)
  have live := steps.live hlive
  have counted : last.steps = m.steps + n := by rw [steps.completed.1, hsteps]
  have queue : last.inputs <:+ m.inputs ++ xs := by
    obtain ⟨zs, hzs, -, hstart⟩ := feed_taken hf
    obtain rfl : xs = zs := (List.map_inj_right fun x y hxy => by cases hxy; rfl).1 hzs
    have hinputs : start.inputs = m.inputs ++ xs := by
      rcases hstart with ⟨-, rfl⟩ | ⟨-, rfl⟩ <;> rfl
    rw [← hinputs]
    exact steps.inputs
  by_cases hnil : ys = []
  · -- nothing is added, so the run was cut off
    obtain rfl : m' = last := by
      rcases left with rfl | ⟨hk, -⟩
      · rfl
      · rcases cause with hcause | ⟨-, hne⟩
        · rw [hk] at hcause
          cases hcause
        · exact absurd hnil hne
    subst hnil
    rw [List.append_nil]
    exact ⟨live, queue, n, start, m', hf, rfl, counted, m', steps, rfl, rfl, rfl⟩
  · have all := feed_later hnil hx hy hh hf
    rcases left with rfl | ⟨-, a, asks⟩
    · exact ⟨live, queue, n, _, _, all, feed_supplied hnil hy live, counted, _, steps.supplied ys,
        rfl, rfl, rfl⟩
    · obtain ⟨-, -, -, hm⟩ := step_awaiting asks
      have live' : m'.status ≠ .halted := by
        rw [(Waiting.of_step asks).status]
        decide
      have hcount : m'.steps = last.steps := by rw [hm]
      have hqueue : m'.inputs = last.inputs := by rw [hm]
      refine ⟨live', hqueue ▸ queue, n, _, _, all, feed_supplied hnil hy live',
        hcount.trans counted, _, steps.supplied ys, ?_, ?_,
        step_asked asks (steps.coherent hcoherent) ys⟩
      · rw [supplied_steps, supplied_steps, hcount]
      · rw [supplied_inputs, supplied_inputs, hqueue]

/-- Whatever was asked of a machine before, it reports an awaited address just while it
waits, as long as it has not halted. -/
theorem Reachable.coherent {program : List Datum} {limit : Option Int} {m₀ : Machine}
    (reachable : Reachable m₀ m) (boot : boot program limit = .ok m₀) (live : m.status ≠ .halted) :
    m.Coherent := by
  obtain ⟨memory, rfl⟩ := boot_ok boot
  have fresh : Coherent { memory := memory } := .of_idle Status.noConfusion rfl
  exact (reachable.coherent_or_stuck fresh).resolve_right fun stuck => live stuck.halted

/-- If a run to the halt is cut off by its budget, or if it finds the queue empty and more
inputs are at hand, then a run with more inputs goes on as the rest of the one run with all
inputs. The one comes to an end just if the other does. Then they leave the same machine,
and they answer the same, but that the outputs of the one run are those given out before
the interruption and then those of the rest: they give these outputs, or fail by the same
fault.

The interrupted run has completed the first instructions of the one run, and no others. The
machine that is fed the second inputs has the same inputs queued as the one run has then,
and goes on with the same step. What it had left in its queue are the last of the inputs
that it had before the interruption. -/
theorem run_resumes {program : List Datum} {limit : Option Int} {m₀ m m' : Machine}
    {xs ys : List Int} {budget : Option Int} {fuel : Nat} {f : Fault}
    (boot : boot program limit = .ok m₀) (reachable : Reachable m₀ m)
    (first : ∀ x ∈ xs, InCell x) (second : ∀ y ∈ ys, InCell y)
    (stopped : m.run (xs.map .int) budget fuel = (some (.error f), m'))
    (cause : f.kind = .stepLimitExceeded ∨ f.kind = .inputExhausted ∧ ys ≠ []) :
    let before := m.runOutputs (xs.map .int) budget fuel
    (∀ whole last, m.Runs ((xs ++ ys).map .int) whole last ↔
      ∃ answer, whole = answer.map (before ++ ·) ∧ m'.Runs (ys.map .int) answer last) ∧
    (∃ n start resumed, m.feed ((xs ++ ys).map .int) = (.ok (), start) ∧
      m'.feed (ys.map .int) = (.ok (), resumed) ∧ m'.steps = m.steps + n ∧
      Continues start n before resumed) ∧
    m'.inputs <:+ m.inputs ++ xs := by
  have live : m.status ≠ .halted := by
    intro hh
    rw [run_halted hh] at stopped
    cases stopped
  obtain ⟨live', queue, n, start, resumed, hf, hf', counted, continues⟩ :=
    interrupted_continues (reachable.coherent boot live) live first second stopped cause
  exact ⟨continues.runs_iff live hf live' hf', ⟨n, start, resumed, hf, hf', counted, continues⟩,
    queue⟩

/-- A program that gives out two inputs and halts, on a machine that already waits for the
first. It is run with this one, and is cut off by its budget after two instructions, or finds
the queue empty at the third. Either way it is run again with the second input, and comes to
where the run with both comes to. -/
theorem run_resumes_echo :
    let m₀ : Machine := { memory := ⟨#[3, 0, 4, 0, 3, 0, 4, 0, 99], none⟩ }
    let m : Machine := { m₀ with status := .awaitingInput, awaited := some 0 }
    let cut : Machine :=
      { pointer := 4, lastOutput := some 7, steps := 2,
        memory := ⟨#[7, 0, 4, 0, 3, 0, 4, 0, 99], none⟩ }
    let asked : Machine := { cut with status := .awaitingInput, awaited := some 0 }
    let last : Machine :=
      { pointer := 8, status := .halted, lastOutput := some 8, steps := 5,
        memory := ⟨#[8, 0, 4, 0, 3, 0, 4, 0, 99], none⟩ }
    boot ([3, 0, 4, 0, 3, 0, 4, 0, 99].map .int) none = .ok m₀ ∧ Reachable m₀ m ∧
      (∀ x ∈ [(7 : Int)], InCell x) ∧ (∀ x ∈ [(8 : Int)], InCell x) ∧
      m.run ([7].map .int) (some 2) 0 = (some (.error (.stepLimit 0 4)), cut) ∧
      m.run ([7].map .int) none 9 = (some (.error (.runStarved 0 4)), asked) ∧
      cut.Runs ([8].map .int) (.ok [8]) last ∧ asked.Runs ([8].map .int) (.ok [8]) last ∧
      m.runOutputs ([7].map .int) (some 2) 0 = [7] ∧
      m.runOutputs ([7].map .int) none 9 = [7] ∧
      m.Runs ([7, 8].map .int) (.ok [7, 8]) last := by
  intro m₀ m cut asked last
  have boots : boot ([3, 0, 4, 0, 3, 0, 4, 0, 99].map .int) none = .ok m₀ :=
    boot_ints (by decide) none
  have reachable : Reachable m₀ m := by
    have asks : (m₀.call 0 (.tick (some 1))).2 = m := by decide +kernel
    rw [← asks]
    exact .call .start 0 _
  have seven : ∀ x ∈ [(7 : Int)], InCell x := by decide
  have eight : ∀ x ∈ [(8 : Int)], InCell x := by decide
  have limited : m.run ([7].map .int) (some 2) 0 = (some (.error (.stepLimit 0 4)), cut) := by
    decide +kernel
  have starved : m.run ([7].map .int) none 9 = (some (.error (.runStarved 0 4)), asked) := by
    decide +kernel
  have told : m.runOutputs ([7].map .int) (some 2) 0 = [7] := by decide +kernel
  have told' : m.runOutputs ([7].map .int) none 9 = [7] := by decide +kernel
  have cutEnds : cut.Runs ([8].map .int) (.ok [8]) last :=
    ⟨9, fun _ hfuel => run_stable Status.noConfusion (feed_running rfl eight) hfuel
      (by decide +kernel)⟩
  obtain ⟨whole, -⟩ := run_resumes boots reachable seven eight limited (.inl rfl)
  obtain ⟨whole', -⟩ := run_resumes boots reachable seven eight starved
    (.inr ⟨rfl, List.cons_ne_nil _ _⟩)
  have ends : m.Runs ([7, 8].map .int) (.ok [7, 8]) last :=
    (whole _ last).2 ⟨.ok [8], by rw [told]; rfl, cutEnds⟩
  -- the run of both inputs ends in one way, so it leads to the second half from the wait too
  obtain ⟨answer, hanswer, askedEnds⟩ := (whole' _ last).1 ends
  obtain rfl : answer = .ok [8] := by
    rw [told'] at hanswer
    rcases answer with f | out <;> cases hanswer
    rfl
  exact ⟨boots, reachable, seven, eight, limited, starved, cutEnds, askedEnds, told, told', ends⟩

end Machine
end Intcode
