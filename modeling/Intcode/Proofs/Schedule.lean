/-
# Any schedule leads to the same halt

A driver may deliver the inputs in groups of any size, or one by one as answers
to the waits, and may step, tick or run to the next output within any budget,
and read cells, all in any order (`Machine.Driven`). If it brings the machine to
its halt, then a run to the halt with all inputs queued beforehand ends in the
same way (`Machine.Driven.same_halt`).

The course of the machine is fixed: it is that of the machine with all inputs
queued (`Machine.Reaches`). A driven machine, with the inputs not yet delivered
queued behind its own and its wait called off (`Machine.supplied`), is always on
that course, but for zeros that reading cells has added to its memory
(`Machine.Tracks`). Each call of the driver moves it along the course or leaves
it where it is.

Key definitions: `Machine.Driven`, `Machine.supplied`, `Machine.Reaches`, `Machine.Tracks`.
Key theorems: `Machine.Tracks.step`, `Machine.Driven.tracks`, `Machine.Driven.same_halt`.
-/
import Intcode.Proofs.Run

namespace Intcode

/-- The values that an answer to a driver gives out. -/
def emitted : Except Fault (Option Event) → List Int
  | .ok (some (.output v)) => [v]
  | _ => []

theorem emitted_error (f : Fault) : emitted (.error f) = [] := rfl

theorem emitted_awaiting (address : Int) : emitted (.ok (some (.awaiting address))) = [] := rfl

theorem emitted_halted : emitted (.ok (some .halted)) = [] := rfl

namespace Machine

/-- What a driver can make of a machine: `Driven m₀ xs m rest out peeked` says
that `m₀` has become `m`, that of the inputs `xs` the `rest` is not yet
delivered, that the values `out` were given out, oldest first, and that cells
below `peeked` were read. A step, a tick or a run that fails may be followed by
others. -/
inductive Driven (m₀ : Machine) (xs : List Int) :
    Machine → List Int → List Int → Nat → Prop where
  | fresh : Driven m₀ xs m₀ xs [] 0
  | step {m m' : Machine} {rest out : List Int} {peeked : Nat}
      {answer : Except Fault (Option Event)} (before : Driven m₀ xs m rest out peeked)
      (call : m.step = (answer, m')) : Driven m₀ xs m' rest (out ++ emitted answer) peeked
  | tick {m m' : Machine} {rest out : List Int} {peeked : Nat} {budget : Option Int} {fuel : Nat}
      {answer : Except Fault Event} (before : Driven m₀ xs m rest out peeked)
      (call : m.tick budget fuel = (some answer, m')) :
      Driven m₀ xs m' rest (out ++ emitted (answer.map some)) peeked
  /-- A run to the next output delivers values, if the machine has not
  halted. -/
  | runToOutput {m m' : Machine} {values rest out : List Int} {peeked : Nat}
      {budget : Option Int} {fuel : Nat} {answer : Except Fault (Option Int)}
      (before : Driven m₀ xs m (values ++ rest) out peeked)
      (live : m.status = .halted → values = [])
      (call : m.runToOutput (values.map .int) budget fuel = (some answer, m')) :
      Driven m₀ xs m' rest (out ++ emitted (answer.map (·.map .output))) peeked
  | feed {m m' : Machine} {values rest out : List Int} {peeked : Nat}
      (before : Driven m₀ xs m (values ++ rest) out peeked)
      (call : m.feed (values.map .int) = (.ok (), m')) : Driven m₀ xs m' rest out peeked
  | provide {m m' : Machine} {v : Int} {rest out : List Int} {peeked : Nat}
      (before : Driven m₀ xs m (v :: rest) out peeked)
      (call : m.provide (.int v) = (.ok (), m')) : Driven m₀ xs m' rest out peeked
  | peek {m m' : Machine} {rest out : List Int} {peeked : Nat} {a v : Int}
      (before : Driven m₀ xs m rest out peeked) (call : m.peek a = (.ok v, m')) :
      Driven m₀ xs m' rest out (max peeked (a.toNat + 1))

/-! ### Zeros and waits -/

theorem pad_pad (m : Machine) (a b : Nat) : (m.pad a).pad b = m.pad (max a b) := by
  simp only [pad, Memory.pad_pad]

theorem pad_zero (m : Machine) : m.pad 0 = m := by
  simp only [pad, Memory.pad_zero]

/-- The machine whose memory has grown as far as decoding makes it grow. -/
def decoded (m : Machine) : Machine := { m with memory := m.fetch.2 }

theorem decoded_pad {m : Machine} {n : Nat} (h : m.memory.Permits n) :
    (m.pad n).decoded = m.decoded.pad n := by
  have hf : (m.pad n).fetch = (m.fetch.1, m.fetch.2.pad n) := Memory.fetch_pad h ..
  simp only [decoded, hf]
  rfl

/-- Decoding adds no more zeros than the step that follows it. -/
theorem decoded_eq_pad {m : Machine} (h : m.status ≠ .halted) :
    ∃ k, m.memory.Permits k ∧ k ≤ m.step.2.memory.size ∧ m.decoded = m.pad k := by
  obtain ⟨k, hk, hm⟩ : m.memory.Grown m.fetch.2 := Memory.fetch_grown ..
  have hsize := size_fetch_le_step h
  rw [hm, Memory.size_pad] at hsize
  refine ⟨k, hk, by omega, ?_⟩
  rw [decoded, hm]
  rfl

theorem step_error {m m' : Machine} {f : Fault} (h : m.step = (.error f, m')) :
    m.status ≠ .halted ∧ m' = m.decoded := by
  have hh : m.status ≠ .halted := by
    intro hh
    rw [step_halted hh] at h
    cases h
  cases Move.of_step hh h with
  | fails => exact ⟨hh, rfl⟩

/-- The machine as it were with the values of `rest` delivered and its wait, if
it waits, called off. -/
def supplied (rest : List Int) (m : Machine) : Machine :=
  if m.status = .awaitingInput then m.resume (m.inputs ++ rest) else m.enqueue rest

theorem supplied_eq_resume {m : Machine} (h : m.status = .awaitingInput) (rest : List Int) :
    m.supplied rest = m.resume (m.inputs ++ rest) := by
  rw [supplied, if_pos h]

theorem supplied_eq_enqueue {m : Machine} (h : m.status ≠ .awaitingInput) (rest : List Int) :
    m.supplied rest = m.enqueue rest := by
  rw [supplied, if_neg h]

/-- A machine that has not halted has not halted as supplied. -/
theorem supplied_live {m c : Machine} {rest : List Int} {n : Nat} (h : m.status ≠ .halted)
    (hm : m.supplied rest = c.pad n) : c.status ≠ .halted := by
  have hs : (m.supplied rest).status = c.status := by rw [hm]; rfl
  rw [← hs]
  unfold supplied
  split
  · simp [resume]
  · exact h

theorem supplied_memory (m : Machine) (rest : List Int) :
    (m.supplied rest).memory = m.memory := by
  unfold supplied
  split <;> rfl

theorem supplied_pad (m : Machine) (rest : List Int) (n : Nat) :
    (m.pad n).supplied rest = (m.supplied rest).pad n := by
  simp only [supplied, show (m.pad n).status = m.status from rfl]
  split <;> rfl

/-- A machine that waits sits on the instruction that it waits for, and one
that runs awaits nothing. -/
structure Sound (m : Machine) : Prop where
  waiting : m.status = .awaitingInput → ∃ dst, m.Waiting dst
  running : m.status = .running → m.awaited = none

theorem Sound.of_running {m : Machine} (hs : m.status = .running) (ha : m.awaited = none) :
    m.Sound :=
  ⟨fun h => (by rw [hs] at h; cases h), fun _ => ha⟩

theorem Sound.of_halted {m : Machine} (h : m.status = .halted) : m.Sound :=
  ⟨fun h' => (by rw [h] at h'; cases h'), fun h' => (by rw [h] at h'; cases h')⟩

theorem Waiting.pad {m : Machine} {dst : Int} (h : m.Waiting dst) {n : Nat}
    (hn : m.memory.Permits n) : (m.pad n).Waiting dst where
  status := h.status
  awaited := h.awaited
  empty := h.empty
  fetched := by
    have hf : (m.pad n).fetch = (m.fetch.1, m.fetch.2.pad n) := Memory.fetch_pad hn ..
    rw [hf, h.fetched]
    rfl

theorem Waiting.sound {m : Machine} {dst : Int} (h : m.Waiting dst) : m.Sound :=
  ⟨fun _ => ⟨dst, h⟩, fun h' => (by rw [h.status] at h'; cases h')⟩

/-- A cell that is read adds zeros up to it. -/
theorem peek_ok {m m' : Machine} {a v : Int} (h : m.peek a = (.ok v, m')) :
    m.memory.Permits (a.toNat + 1) ∧ m' = m.pad (a.toNat + 1) := by
  simp only [peek] at h
  cases hr : m.memory.refusal? a with
  | some f =>
    rw [Memory.read_of_refusal hr] at h
    cases h
  | none =>
    rw [Memory.read_eq hr] at h
    cases h
    exact ⟨.of_refusal? hr, rfl⟩

/-! ### The course of a machine -/

/-- Where a machine comes to by itself, with the values given out on the way:
along completed instructions, and over its halt. -/
inductive Reaches (start : Machine) : List Int → Machine → Prop where
  | going {n : Nat} {out : List Int} {c : Machine} (run : Steps n start out c) :
      Reaches start out c
  | halted {n : Nat} {out : List Int} {c c' : Machine} (run : Steps n start out c)
      (halt : c.step = (.ok (some .halted), c')) : Reaches start out c'

theorem Reaches.next {start c c' : Machine} {out : List Int} {answer : Option Event}
    (h : Reaches start out c) (hh : c.status ≠ .halted) (hs : c.step = (.ok answer, c'))
    (hw : ∀ a, answer ≠ some (.awaiting a)) : Reaches start (out ++ emitted (.ok answer)) c' := by
  cases h with
  | halted _ halt => exact absurd (step_halts halt).1 hh
  | going run =>
    rcases answer with _ | v | a | _
    · exact .going (run.trans (.one hs))
    · exact .going (run.trans (.output hs (.refl c')))
    · exact absurd rfl (hw a)
    · rw [emitted_halted, List.append_nil]
      exact .halted run hs

/-! ### A driven machine stays on its course -/

/-- A driven machine is on the course of `start`, but for zeros in its memory.
They are no more than the cells that were read ask for, or the next step. -/
structure Tracks (start m : Machine) (rest out : List Int) (peeked : Nat) : Prop where
  sound : m.Sound
  course : ∃ c n, Reaches start out c ∧ c.memory.Permits n ∧
    n ≤ max peeked c.step.2.memory.size ∧ m.supplied rest = c.pad n
  reached : peeked ≤ m.memory.size

namespace Tracks

variable {start m m' : Machine} {rest out values : List Int} {peeked : Nat}

theorem fresh (hs : m.status = .running) (ha : m.awaited = none) (xs : List Int) :
    Tracks (m.enqueue xs) m xs [] 0 where
  sound := .of_running hs ha
  course := by
    refine ⟨m.enqueue xs, 0, .going (.refl _), Memory.permits_zero _, Nat.zero_le _, ?_⟩
    rw [pad_zero, supplied_eq_enqueue (by rw [hs]; decide)]
  reached := Nat.zero_le _

/-- If the machine as supplied completes a step, the machine after it is
further along the course. -/
theorem advances (h : Tracks start m rest out peeked) {rest' : List Int} {answer : Option Event}
    (hh : m.status ≠ .halted) (sound : m'.Sound)
    (hstep : (m.supplied rest).step = (.ok answer, m'.supplied rest'))
    (hw : ∀ a, answer ≠ some (.awaiting a)) :
    Tracks start m' rest' (out ++ emitted (.ok answer)) peeked := by
  obtain ⟨c, n, hc, hp, hn, hm⟩ := h.course
  have hch : c.status ≠ .halted := supplied_live hh hm
  have hsize : m.memory.size ≤ m'.memory.size := by
    have := size_le_step (m.supplied rest)
    rwa [hstep, supplied_memory, supplied_memory] at this
  rw [hm, step_pad hp, Prod.mk.injEq] at hstep
  have hcs : c.step = (.ok answer, c.step.2) := by rw [← hstep.1]
  have hgrow := size_le_step c.step.2
  exact ⟨sound, ⟨c.step.2, n, hc.next hch hcs hw, hp.congr (refusal?_step c), by omega,
    hstep.2.symm⟩, Nat.le_trans h.reached hsize⟩

/-- If the machine as supplied only grows as decoding makes it, it stays where
it was on the course. -/
theorem stays (h : Tracks start m rest out peeked) (hh : m.status ≠ .halted) (sound : m'.Sound)
    (hm' : m'.supplied rest = (m.supplied rest).decoded)
    (hsize : m.memory.size ≤ m'.memory.size) : Tracks start m' rest out peeked := by
  obtain ⟨c, n, hc, hp, hn, hm⟩ := h.course
  have hch : c.status ≠ .halted := supplied_live hh hm
  obtain ⟨k, hk, hks, hd⟩ := decoded_eq_pad hch
  rw [hm, decoded_pad hp, hd, pad_pad] at hm'
  exact ⟨sound, ⟨c, max k n, hc, hk.max hp, by omega, hm'⟩, Nat.le_trans h.reached hsize⟩

/-- A step moves a driven machine along its course. -/
theorem step (h : Tracks start m rest out peeked) {answer : Except Fault (Option Event)}
    (hs : m.step = (answer, m')) : Tracks start m' rest (out ++ emitted answer) peeked := by
  by_cases hh : m.status = .halted
  · rw [step_halted hh] at hs
    cases hs
    rwa [emitted_halted, List.append_nil]
  by_cases hw : m.status = .awaitingInput
  · obtain ⟨dst, hw⟩ := h.sound.waiting hw
    rw [hw.step] at hs
    cases hs
    rwa [emitted_awaiting, List.append_nil]
  have hr : m.status = .running := by
    cases hst : m.status with
    | running => rfl
    | awaitingInput => exact absurd hst hw
    | halted => exact absurd hst hh
  have ha := h.sound.running hr
  have grown : m.memory.size ≤ m.fetch.2.size := (Memory.fetch_grown ..).size_le
  rcases answer with f | event
  · obtain ⟨-, rfl⟩ := step_error hs
    rw [emitted_error, List.append_nil]
    refine h.stays hh (.of_running hr ha) ?_ grown
    rw [supplied_eq_enqueue hw, supplied_eq_enqueue (m := m.decoded) hw]
    rfl
  have hnext (hw' : ∀ a, event ≠ some (.awaiting a)) : (m.enqueue rest).step =
      (.ok event, m'.enqueue rest) := step_enqueue hs (fun a h => hw' a (by cases h; rfl)) rest
  have moved (hw' : ∀ a, event ≠ some (.awaiting a)) (sound : m'.Sound)
      (hs' : m'.status ≠ .awaitingInput) :
      Tracks start m' rest (out ++ emitted (.ok event)) peeked := by
    refine h.advances hh sound ?_ hw'
    rw [supplied_eq_enqueue hw, supplied_eq_enqueue hs', hnext hw']
  rcases event with _ | v | a | _
  · obtain ⟨-, hr', ha'⟩ := step_completed hs (.inl rfl)
    exact moved (fun a h => by cases h) (.of_running (hr' hr) (ha' ha)) (by rw [hr' hr]; decide)
  · obtain ⟨-, hr', ha'⟩ := step_completed hs (.inr ⟨v, rfl⟩)
    exact moved (fun a h => by cases h) (.of_running (hr' hr) (ha' ha)) (by rw [hr' hr]; decide)
  · obtain ⟨-, hq, hf, hm⟩ := step_awaiting hs
    rw [emitted_awaiting, List.append_nil]
    refine h.stays hh (Waiting.of_step hs).sound ?_ ?_
    · have hf' : (m.enqueue rest).fetch = (.ok (.input a, m.pointer + 2), m'.memory) := hf
      rw [supplied_eq_resume (Waiting.of_step hs).status, supplied_eq_enqueue hw, decoded, hf', hm]
      simp only [resume, enqueue, hq, hr, ha, List.nil_append]
    · rwa [hf] at grown
  · exact moved (fun a h => by cases h) (.of_halted (step_halts hs).1)
      (by rw [(step_halts hs).1]; decide)

theorem steps {n : Nat} {more : List Int} (h : Tracks start m rest out peeked)
    (hr : Steps n m more m') : Tracks start m' rest (out ++ more) peeked := by
  induction hr generalizing out with
  | refl => rwa [List.append_nil]
  | silent hs _ ih =>
    have h' := h.step hs
    rw [show emitted (.ok none) = [] from rfl, List.append_nil] at h'
    exact ih h'
  | @output _ _ _ _ more v hs _ ih =>
    have h' := ih (h.step hs)
    rwa [List.append_assoc] at h'

theorem tick (h : Tracks start m rest out peeked) {budget : Option Int} {fuel : Nat}
    {answer : Except Fault Event} (ht : m.tick budget fuel = (some answer, m')) :
    Tracks start m' rest (out ++ emitted (answer.map some)) peeked := by
  by_cases hh : m.status = .halted
  · rw [tick_halted hh] at ht
    cases ht
    rwa [show emitted (Except.map some (.ok .halted)) = [] from rfl, List.append_nil]
  unfold Machine.tick at ht
  rw [if_neg hh] at ht
  rcases advance_cases (allowance budget fuel) m with
    ⟨m₁, hr, ha⟩ | ⟨k, m₁, told, m₂, -, hr, hs, ha⟩ <;> rw [ha] at ht
  · -- the budget is spent, and no value was given out
    cases budget with
    | none => cases ht
    | some k =>
      cases ht
      exact h.steps hr
  · cases ht
    have h' := h.steps hr
    rw [List.append_nil] at h'
    exact h'.step hs

/-- Values that are queued were to be delivered. -/
theorem feed (h : Tracks start m (values ++ rest) out peeked) (hx : ∀ x ∈ values, InCell x)
    (hf : m.feed (values.map .int) = (.ok (), m')) : Tracks start m' rest out peeked := by
  by_cases hv : values = []
  · subst hv
    cases hf
    exact h
  by_cases hh : m.status = .halted
  · simp only [Machine.feed, List.map_eq_nil_iff, hv, hh, if_true, if_false] at hf
    cases hf
  rw [feed_ints hv hx hh] at hf
  obtain ⟨c, n, hc, hp, hn, hm⟩ := h.course
  by_cases hw : m.status = .awaitingInput
  · rw [if_pos hw] at hf
    cases hf
    refine ⟨.of_running rfl rfl, ⟨c, n, hc, hp, hn, ?_⟩, h.reached⟩
    rw [← hm, supplied_eq_resume hw, ← List.append_assoc]
    rfl
  · rw [if_neg hw] at hf
    cases hf
    refine ⟨⟨fun h' => absurd h' hw, h.sound.running⟩, ⟨c, n, hc, hp, hn, ?_⟩, h.reached⟩
    rw [← hm, supplied_eq_enqueue hw, supplied_eq_enqueue (m := m.enqueue values) hw,
      enqueue_enqueue]

theorem runToOutput (h : Tracks start m (values ++ rest) out peeked)
    (hx : ∀ x ∈ values, InCell x) (live : m.status = .halted → values = [])
    {budget : Option Int} {fuel : Nat} {answer : Except Fault (Option Int)}
    (ht : m.runToOutput (values.map .int) budget fuel = (some answer, m')) :
    Tracks start m' rest (out ++ emitted (answer.map (·.map .output))) peeked := by
  by_cases hh : m.status = .halted
  · have hv := live hh
    subst hv
    simp only [Machine.runToOutput, hh, if_true] at ht
    cases ht
    exact h.steps (.refl m)
  simp only [Machine.runToOutput, hh, if_false] at ht
  rcases hf : m.feed (values.map .int) with ⟨fed, m₁⟩
  obtain rfl : fed = .ok () := by
    have := feed_ok hx hh
    rwa [hf] at this
  have h₁ := h.feed hx hf
  simp only [hf] at ht
  rcases htick : m₁.tick budget fuel with ⟨_ | f | v | a | _, m₂⟩ <;> simp only [htick] at ht <;>
    cases ht
  all_goals exact h₁.tick htick

/-- An answer is what the machine would have taken next. -/
theorem provide {v : Int} (h : Tracks start m (v :: rest) out peeked)
    (hp : m.provide (.int v) = (.ok (), m')) : Tracks start m' rest out peeked := by
  obtain ⟨hw, -, hr, ha, -⟩ := provide_ok hp
  obtain ⟨dst, waiting⟩ := h.sound.waiting hw
  have hstep := waiting.provide v rest
  rw [hp] at hstep
  have hlive : m.status ≠ .halted := by rw [hw]; decide
  have hsupplied : (m.supplied (v :: rest)).step = (.ok none, m'.supplied rest) := by
    rw [supplied_eq_resume hw, waiting.empty, List.nil_append, hstep,
      supplied_eq_enqueue (by rw [hr]; decide)]
  have h' := h.advances hlive (.of_running hr ha) hsupplied (fun a h => by cases h)
  rwa [show emitted (.ok none) = [] from rfl, List.append_nil] at h'

theorem peek (h : Tracks start m rest out peeked) {a v : Int} (hp : m.peek a = (.ok v, m')) :
    Tracks start m' rest out (max peeked (a.toNat + 1)) := by
  obtain ⟨hk, rfl⟩ := peek_ok hp
  obtain ⟨c, n, hc, hn, hle, hm⟩ := h.course
  have hmem : m.memory = c.memory.pad n := by
    rw [← supplied_memory m rest, hm]
    rfl
  have hck : c.memory.Permits (a.toNat + 1) := by
    rw [hmem] at hk
    exact hk.congr (Memory.refusal?_pad hn).symm
  refine ⟨⟨fun hw => ?_, h.sound.running⟩, ⟨c, max n (a.toNat + 1), hc, hn.max hck, by omega, ?_⟩, ?_⟩
  · obtain ⟨dst, hw⟩ := h.sound.waiting hw
    exact ⟨dst, hw.pad hk⟩
  · rw [supplied_pad, hm, pad_pad]
  · have := h.reached
    simp only [pad, Memory.size_pad]
    omega

end Tracks
/-! ### Drivers -/

namespace Driven

variable {program : List Datum} {limit : Option Int} {m₀ m : Machine} {xs rest out : List Int}
  {peeked : Nat}

/-- What is not yet delivered is the end of the inputs. -/
theorem undelivered (h : Driven m₀ xs m rest out peeked) : rest <:+ xs := by
  induction h with
  | fresh => exact List.suffix_refl _
  | step _ _ ih | tick _ _ ih | peek _ _ ih => exact ih
  | runToOutput _ _ _ ih | feed _ _ ih => exact (List.suffix_append ..).trans ih
  | provide _ _ ih => exact (List.suffix_cons ..).trans ih

/-- Whatever a driver does, the machine stays on its course. -/
theorem tracks (h : Driven m₀ xs m rest out peeked) (hs : m₀.status = .running)
    (ha : m₀.awaited = none) (hx : ∀ x ∈ xs, InCell x) :
    Tracks (m₀.enqueue xs) m rest out peeked := by
  induction h with
  | fresh => exact .fresh hs ha xs
  | step _ call ih => exact ih.step call
  | tick _ call ih => exact ih.tick call
  | runToOutput before live call ih =>
    exact ih.runToOutput (fun x h => hx x (before.undelivered.subset (List.mem_append_left _ h)))
      live call
  | feed before call ih =>
    exact ih.feed (fun x h => hx x (before.undelivered.subset (List.mem_append_left _ h))) call
  | provide _ call ih => exact ih.provide call
  | peek _ call ih => exact ih.peek call

/-- If a driver brings a fresh machine to its halt, a run with all inputs
queued halts too. It gives out the same values, and ends with the same
registers: the pointer, the relative base, the number of steps and the last
output. It has taken the same inputs: those that it has left are those that the
driver has left in the queue and those not delivered. It ends with the same
memory, but for the zeros up to the cells that the driver read. -/
theorem same_halt (boot : boot program limit = .ok m₀) (inputs : ∀ x ∈ xs, InCell x)
    (driven : Driven m₀ xs m rest out peeked) (halted : m.status = .halted) :
    ∃ m', m₀.Runs (xs.map .int) (.ok out) m' ∧ m'.status = .halted ∧
      m'.pointer = m.pointer ∧ m'.base = m.base ∧ m'.steps = m.steps ∧
      m'.lastOutput = m.lastOutput ∧ m'.inputs = m.inputs ++ rest ∧
      (∃ taken, xs = taken ++ m'.inputs) ∧ m.memory = m'.memory.pad peeked := by
  obtain ⟨memory, rfl⟩ := boot_ok boot
  have h := driven.tracks rfl rfl inputs
  obtain ⟨c, n, hc, hp, hn, hm⟩ := h.course
  rw [supplied_eq_enqueue (by rw [halted]; decide)] at hm
  have hmemory : m.memory = c.memory.pad n := congrArg Machine.memory hm
  have hinputs : m.inputs ++ rest = c.inputs := congrArg (·.inputs) hm
  have hch : c.status = .halted := by
    rw [← halted]
    exact congrArg (·.status) hm.symm
  cases hc with
  | going run =>
    have hr := run.completed.2.1 rfl
    rw [hch] at hr
    cases hr
  | @halted _ _ last _ run halt =>
    have hleft := step_inputs last
    rw [halt] at hleft
    obtain ⟨taken, htaken⟩ := hleft.trans run.inputs
    refine ⟨c, .of_steps rfl inputs run halt rfl rfl, hch, (congrArg (·.pointer) hm).symm,
      (congrArg (·.base) hm).symm, (congrArg (·.steps) hm).symm,
      (congrArg (·.lastOutput) hm).symm, hinputs.symm, ⟨taken, htaken.symm⟩, ?_⟩
    have hreached := h.reached
    have hsize : c.step.2 = c := by rw [step_halted hch]
    rw [hsize] at hn
    rw [hmemory, Memory.size_pad] at hreached
    rw [hmemory]
    exact Memory.pad_congr (by omega)

/-- A program that gives out its input. The driver waits for the program to
ask, reads a cell past its end, feeds one of two inputs, and goes on in a step,
two ticks, one of them with no budget left, and a run. -/
theorem same_halt_echo :
    let m₀ : Machine := { memory := ⟨#[3, 0, 4, 0, 99], none⟩ }
    let m : Machine :=
      { pointer := 4, status := .halted, lastOutput := some 7, steps := 3,
        memory := ⟨#[7, 0, 4, 0, 99, 0, 0], none⟩ }
    boot ([3, 0, 4, 0, 99].map .int) none = .ok m₀ ∧ (∀ x ∈ [7, 8], InCell x) ∧
      Driven m₀ [7, 8] m [8] [7] 7 ∧ m.status = .halted ∧
      ∃ m', m₀.Runs ([7, 8].map .int) (.ok [7]) m' ∧ m'.status = .halted ∧
        m'.pointer = m.pointer ∧ m'.base = m.base ∧ m'.steps = m.steps ∧
        m'.lastOutput = m.lastOutput ∧ m'.inputs = m.inputs ++ [8] ∧
        (∃ taken, [7, 8] = taken ++ m'.inputs) ∧ m.memory = m'.memory.pad 7 := by
  intro m₀ m
  let asked : Machine := { m₀ with status := .awaitingInput, awaited := some 0 }
  let told : Machine :=
    { pointer := 4, lastOutput := some 7, steps := 2, memory := ⟨#[7, 0, 4, 0, 99, 0, 0], none⟩ }
  have driven : Driven m₀ [7, 8] m [8] [7] 7 := by
    -- a word is split by well-founded recursion, which plain `rfl` does not unfold
    have asks : m₀.tick (some 5) 0 = (some (.ok (.awaiting 0)), asked) := by with_unfolding_all rfl
    have reads : asked.peek 6 = (.ok 0, asked.pad 7) := rfl
    have feeds : (asked.pad 7).feed ([7].map .int) = (.ok (), (m₀.pad 7).enqueue [7]) := rfl
    have steps : ((m₀.pad 7).enqueue [7]).step =
        (.ok none, { told with pointer := 2, lastOutput := none, steps := 1 }) := by
      with_unfolding_all rfl
    have tells : Machine.tick none 3 { told with pointer := 2, lastOutput := none, steps := 1 } =
        (some (.ok (.output 7)), told) := by with_unfolding_all rfl
    have stops : told.tick (some 0) 0 = (some (.error (.stepLimit 0 4)), told) := rfl
    have halts : told.runToOutput ([].map .int) (some 9) 0 = (some (.ok none), m) := by
      with_unfolding_all rfl
    have fed : Driven m₀ [7, 8] ((m₀.pad 7).enqueue [7]) [8] [] 7 :=
      .feed (.peek (.tick .fresh asks) reads) feeds
    exact .runToOutput (.tick (.tick (.step fed steps) tells) stops) (fun _ => rfl) halts
  have boots : boot ([3, 0, 4, 0, 99].map .int) none = .ok m₀ := boot_ints (by decide) none
  exact ⟨boots, by decide, driven, rfl, same_halt boots (by decide) driven rfl⟩

end Driven
end Machine
end Intcode
