/-
# What a step can do

`Machine.Move` lists what a step of a machine that has not halted can come to,
with everything that each case changes. What is said of steps here and
elsewhere is read off this list.

Values queued behind the others (`Machine.enqueue`) and zeros added to the
memory (`Machine.pad`) go through a step unchanged, unless the step was to find
the queue empty.

Key definitions: `Machine.fetch`, `Machine.Move`, `Machine.enqueue`, `Machine.pad`,
`Machine.Waiting`, `Machine.resume`.
Key theorems: `Machine.step_move`, `Machine.step_fault`, `Machine.step_enqueue`,
`Machine.step_pad`, `Machine.Waiting.provide`.
-/
import Intcode.Machine
import Intcode.Proofs.Memory

namespace Intcode
namespace Machine

/-- The instruction at the pointer and the address just past it, and the
memory that decoding leaves. -/
def fetch (m : Machine) : Except Fault (Instruction × Int) × Memory :=
  m.memory.fetch m.base m.pointer

/-- What a step of a machine that has not halted can come to: its answer and
the machine after it. -/
inductive Move (m : Machine) : Except Fault (Option Event) → Machine → Prop where
  /-- A fault changes no register, and no cell. -/
  | fails (f : Fault) : Move m (.error f) { m with memory := m.fetch.2 }
  | stores {i : Instruction} {next dst v : Int} {decoded memory : Memory}
      (fetched : m.fetch = (.ok (i, next), decoded)) (effect : i.effect next = .store dst v)
      (written : decoded.write dst (.int v) = (.ok (), memory)) :
      Move m (.ok none) { m with pointer := next, steps := m.steps + 1, memory := memory }
  | waits {dst : Int} {decoded : Memory}
      (fetched : m.fetch = (.ok (.input dst, m.pointer + 2), decoded)) (empty : m.inputs = []) :
      Move m (.ok (some (.awaiting dst)))
        { m with status := .awaitingInput, awaited := some dst, memory := decoded }
  | takes {dst v : Int} {rest : List Int} {decoded memory : Memory}
      (fetched : m.fetch = (.ok (.input dst, m.pointer + 2), decoded))
      (queued : m.inputs = v :: rest) (written : decoded.write dst (.int v) = (.ok (), memory)) :
      Move m (.ok none) { m with
        pointer := m.pointer + 2
        steps := m.steps + 1
        status := .running
        inputs := rest
        awaited := none
        memory := memory }
  | emits {i : Instruction} {next v : Int} {decoded : Memory}
      (fetched : m.fetch = (.ok (i, next), decoded)) (effect : i.effect next = .emit v) :
      Move m (.ok (some (.output v)))
        { m with pointer := next, steps := m.steps + 1, lastOutput := some v, memory := decoded }
  | goes {i : Instruction} {next target : Int} {decoded : Memory}
      (fetched : m.fetch = (.ok (i, next), decoded)) (effect : i.effect next = .goto target) :
      Move m (.ok none) { m with pointer := target, steps := m.steps + 1, memory := decoded }
  | rebases {i : Instruction} {next offset : Int} {decoded : Memory}
      (fetched : m.fetch = (.ok (i, next), decoded)) (effect : i.effect next = .rebase offset)
      (fits : InCell (m.base + offset)) :
      Move m (.ok none) { m with
        pointer := next
        steps := m.steps + 1
        base := m.base + offset
        memory := decoded }
  | halts {i : Instruction} {next : Int} {decoded : Memory}
      (fetched : m.fetch = (.ok (i, next), decoded)) (effect : i.effect next = .halt) :
      Move m (.ok (some .halted))
        { m with status := .halted, steps := m.steps + 1, memory := decoded }

theorem step_eq {m : Machine} (h : m.status ≠ .halted) : m.step = match m.fetch with
    | (.error f, memory) => (.error f, ⟨m.toRegisters, memory⟩)
    | (.ok (i, next), memory) => carryOut next (i.effect next) m.toRegisters memory := by
  simp only [step, h, if_false]
  rfl

theorem step_fetched {m : Machine} {i : Instruction} {next : Int} {decoded : Memory}
    (h : m.status ≠ .halted) (hf : m.fetch = (.ok (i, next), decoded)) :
    m.step = carryOut next (i.effect next) m.toRegisters decoded := by
  rw [step_eq h, hf]

/-- Only an input instruction takes an input, and it is two cells long. -/
theorem fetch_take {m : Machine} {i : Instruction} {next dst : Int} {decoded : Memory}
    (hf : m.fetch = (.ok (i, next), decoded)) (he : i.effect next = .take dst) :
    i = .input dst ∧ next = m.pointer + 2 := by
  have hn := Access.decode_next hf
  cases i <;> simp only [Instruction.effect, reduceCtorEq, Effect.take.injEq] at he
  subst he
  refine ⟨rfl, ?_⟩
  simp only [Instruction.opcode, Opcode.operands, List.length_cons, List.length_nil] at hn
  omega

theorem step_move {m : Machine} (h : m.status ≠ .halted) : Move m m.step.1 m.step.2 := by
  rcases hf : m.fetch with ⟨f | ⟨i, next⟩, decoded⟩
  · have hm : Move m (.error f) { m with memory := m.fetch.2 } := .fails f
    rw [step_eq h, hf]
    rwa [hf] at hm
  · have failed (f : Fault) : Move m (.error f) ⟨m.toRegisters, decoded⟩ := by
      have hm : Move m (.error f) { m with memory := m.fetch.2 } := .fails f
      rwa [hf] at hm
    rw [step_fetched h hf]
    cases he : i.effect next with
    | store dst v =>
      rcases hw : decoded.write dst (.int v) with ⟨f | ⟨⟩, memory⟩
      · cases Memory.write_error hw
        simpa only [carryOut, hw] using failed f
      · simpa only [carryOut, hw] using Move.stores hf he hw
    | take dst =>
      obtain ⟨rfl, rfl⟩ := fetch_take hf he
      rcases hq : m.inputs with _ | ⟨v, rest⟩
      · simpa only [carryOut, hq] using Move.waits hf hq
      · rcases hw : decoded.write dst (.int v) with ⟨f | ⟨⟩, memory⟩
        · cases Memory.write_error hw
          simpa only [carryOut, hq, hw] using failed f
        · simpa only [carryOut, hq, hw] using Move.takes hf hq hw
    | emit v => exact .emits hf he
    | goto target => exact .goes hf he
    | rebase offset =>
      by_cases hc : InCell (m.base + offset)
      · simpa only [carryOut, Datum.toCell, hc, if_true] using Move.rebases hf he hc
      · simpa only [carryOut, Datum.toCell, hc, if_false] using failed _
    | halt => exact .halts hf he

theorem Move.of_step {m m' : Machine} {answer : Except Fault (Option Event)}
    (h : m.status ≠ .halted) (hs : m.step = (answer, m')) : Move m answer m' := by
  have := step_move h
  rwa [hs] at this

/-! ### What every step keeps -/

/-- The memory after a move is the decoded memory, or that with one value
written. -/
theorem Move.memory {m m' : Machine} {answer : Except Fault (Option Event)}
    (h : Move m answer m') : m'.memory = m.fetch.2 ∨
      ∃ dst v, m.fetch.2.write dst (.int v) = (.ok (), m'.memory) := by
  cases h with
  | fails f => exact .inl rfl
  | stores hf _ hw | takes hf _ hw => exact .inr ⟨_, _, by rw [hf]; exact hw⟩
  | waits hf _ | emits hf _ | goes hf _ | rebases hf _ _ | halts hf _ => exact .inl (by rw [hf])

/-- A step does not change what is refused. -/
theorem refusal?_step (m : Machine) : m.step.2.memory.refusal? = m.memory.refusal? := by
  by_cases h : m.status = .halted
  · rw [step_halted h]
  · have hf : m.fetch.2.refusal? = m.memory.refusal? := (Memory.fetch_grown ..).refusal?
    rcases (step_move h).memory with hm | ⟨dst, v, hw⟩
    · rw [hm, hf]
    · have := Memory.refusal?_write m.fetch.2 dst (.int v)
      rwa [hw, hf] at this

/-- A step never shortens the memory. -/
theorem size_le_step (m : Machine) : m.memory.size ≤ m.step.2.memory.size := by
  by_cases h : m.status = .halted
  · exact Nat.le_of_eq (by rw [step_halted h])
  · have hf : m.memory.size ≤ m.fetch.2.size := (Memory.fetch_grown ..).size_le
    rcases (step_move h).memory with hm | ⟨dst, v, hw⟩
    · rwa [hm]
    · have := Memory.size_le_write m.fetch.2 dst (.int v)
      rw [hw] at this
      exact Nat.le_trans hf this

/-- A step takes inputs from the front. -/
theorem step_inputs (m : Machine) : m.step.2.inputs <:+ m.inputs := by
  by_cases h : m.status = .halted
  · simp only [step_halted h, List.suffix_refl]
  · have hm := step_move h
    generalize m.step.1 = answer, m.step.2 = m' at hm
    cases hm with
    | takes _ hq _ =>
      rw [hq]
      exact List.suffix_cons ..
    | fails | stores | waits | emits | goes | rebases | halts => exact List.suffix_refl _

/-- A machine that decodes has grown as far as its step makes it grow, unless
that writes further up. -/
theorem size_fetch_le_step {m : Machine} (h : m.status ≠ .halted) :
    m.fetch.2.size ≤ m.step.2.memory.size := by
  rcases (step_move h).memory with hm | ⟨dst, v, hw⟩
  · exact Nat.le_of_eq (by rw [hm])
  · have := Memory.size_le_write m.fetch.2 dst (.int v)
    rwa [hw] at this

/-- The classes of the faults that a step can end in. -/
def stepFaults : List Fault.Kind :=
  [.invalidInstruction, .invalidMode, .addressError, .cellOverflow, .memoryLimitExceeded]

theorem write_fault {memory memory' : Memory} {dst v : Int} {f : Fault}
    (h : memory.write dst (.int v) = (.error f, memory')) : f.kind ∈ stepFaults := by
  by_cases hv : InCell v
  · rw [Memory.write_int hv] at h
    cases hr : memory.refusal? dst <;> rw [hr] at h <;> cases h
    rcases Memory.refusal?_kind hr with hk | hk <;> simp [hk, stepFaults]
  · rw [Memory.write_overflow hv] at h
    cases h
    simp [Fault.kind, stepFaults]

theorem step_fault {m m' : Machine} {f : Fault} (h : m.step = (.error f, m')) :
    f.kind ∈ stepFaults := by
  have hh : m.status ≠ .halted := by
    intro hh
    rw [step_halted hh] at h
    cases h
  rw [step_eq hh] at h
  rcases hf : m.fetch with ⟨g | ⟨i, next⟩, decoded⟩ <;> rw [hf] at h
  · cases h
    rcases Memory.fetch_fault hf with hk | hk | hk | hk <;> simp [hk, stepFaults]
  · simp only [carryOut] at h
    split at h
    · split at h <;> cases h
      exact write_fault ‹_›
    · split at h
      · cases h
      · split at h <;> cases h
        exact write_fault ‹_›
    · cases h
    · cases h
    · split at h
      · rename_i hc
        cases h
        simp only [Datum.toCell] at hc
        split at hc <;> cases hc
        simp [Fault.kind, stepFaults]
      · cases h
    · cases h

/-! ### More inputs -/

/-- The machine with more values queued behind the others. -/
def enqueue (xs : List Int) (m : Machine) : Machine := { m with inputs := m.inputs ++ xs }

theorem enqueue_nil (m : Machine) : m.enqueue [] = m := by
  simp only [enqueue, List.append_nil]

theorem enqueue_enqueue (m : Machine) (xs ys : List Int) :
    (m.enqueue xs).enqueue ys = m.enqueue (xs ++ ys) := by
  simp only [enqueue, List.append_assoc]

theorem carryOut_enqueue (next : Int) (effect : Effect) (r : Registers) (memory : Memory)
    (xs : List Int) (h : ∀ dst, effect = .take dst → r.inputs ≠ []) :
    carryOut next effect { r with inputs := r.inputs ++ xs } memory =
      ((carryOut next effect r memory).1, (carryOut next effect r memory).2.enqueue xs) := by
  cases effect with
  | store dst v =>
    simp only [carryOut]
    rcases memory.write dst (.int v) with ⟨f | ⟨⟩, memory⟩ <;> rfl
  | take dst =>
    rcases hq : r.inputs with _ | ⟨v, rest⟩
    · exact absurd hq (h dst rfl)
    · simp only [carryOut, hq, List.cons_append]
      rcases memory.write dst (.int v) with ⟨f | ⟨⟩, memory⟩
      · simp only [enqueue, hq, List.cons_append]
      · rfl
  | emit v | goto target | halt => rfl
  | rebase offset =>
    simp only [carryOut]
    rcases (Datum.int (r.base + offset)).toCell .relativeBase with f | base <;> rfl

/-- Values queued behind the others go through a step that does not wait. -/
theorem step_enqueue {m m' : Machine} {answer : Except Fault (Option Event)}
    (h : m.step = (answer, m')) (hw : ∀ a, answer ≠ .ok (some (.awaiting a))) (xs : List Int) :
    (m.enqueue xs).step = (answer, m'.enqueue xs) := by
  by_cases hh : m.status = .halted
  · rw [step_halted hh] at h
    cases h
    exact step_halted hh
  · rw [step_eq hh] at h
    rw [step_eq (m := m.enqueue xs) hh, show (m.enqueue xs).fetch = m.fetch from rfl]
    rcases hf : m.fetch with ⟨f | ⟨i, next⟩, decoded⟩ <;> simp only [hf] at h ⊢
    · cases h
      rfl
    · have ht (dst : Int) (he : i.effect next = .take dst) : m.inputs ≠ [] := by
        intro hq
        simp only [carryOut, he, hq, Prod.mk.injEq] at h
        exact hw dst h.1.symm
      have hc := carryOut_enqueue next (i.effect next) m.toRegisters decoded xs ht
      rw [h] at hc
      exact hc

/-! ### More zeros -/

/-- The machine with zeros added to its memory. -/
def pad (n : Nat) (m : Machine) : Machine := { m with memory := m.memory.pad n }

theorem carryOut_pad (next : Int) (effect : Effect) (r : Registers) {memory : Memory} {n : Nat}
    (h : memory.Permits n) : carryOut next effect r (memory.pad n) =
      ((carryOut next effect r memory).1, (carryOut next effect r memory).2.pad n) := by
  cases effect with
  | store dst v =>
    simp only [carryOut, Memory.write_pad h]
    rcases memory.write dst (.int v) with ⟨f | ⟨⟩, memory⟩ <;> rfl
  | take dst =>
    rcases hq : r.inputs with _ | ⟨v, rest⟩
    · simp only [carryOut, hq]
      rfl
    · simp only [carryOut, hq, Memory.write_pad h]
      rcases memory.write dst (.int v) with ⟨f | ⟨⟩, memory⟩ <;> rfl
  | emit v | goto target | halt => rfl
  | rebase offset =>
    simp only [carryOut]
    rcases (Datum.int (r.base + offset)).toCell .relativeBase with f | base <;> rfl

/-- Zeros in the memory go through a step. -/
theorem step_pad {m : Machine} {n : Nat} (h : m.memory.Permits n) :
    (m.pad n).step = (m.step.1, m.step.2.pad n) := by
  by_cases hh : m.status = .halted
  · rw [step_halted hh, step_halted (m := m.pad n) hh]
  · have hf : (m.pad n).fetch = (m.fetch.1, m.fetch.2.pad n) := Memory.fetch_pad h ..
    rw [step_eq hh, step_eq (m := m.pad n) hh, hf]
    have hd : m.fetch.2.Permits n := by
      obtain ⟨k, hk, hmk⟩ : m.memory.Grown m.fetch.2 := Memory.fetch_grown ..
      rw [hmk]
      exact hk.pad h
    rcases hm : m.fetch with ⟨f | ⟨i, next⟩, decoded⟩
    · rfl
    · rw [hm] at hd
      exact carryOut_pad next (i.effect next) m.toRegisters hd

/-! ### Waiting and going on -/

/-- The machine sits on an input instruction that found no input: the queue
is empty, and decoding the instruction once more needs no growth. -/
structure Waiting (m : Machine) (dst : Int) : Prop where
  status : m.status = .awaitingInput
  awaited : m.awaited = some dst
  empty : m.inputs = []
  fetched : m.fetch = (.ok (.input dst, m.pointer + 2), m.memory)

/-- The machine running again, with these values queued. -/
def resume (xs : List Int) (m : Machine) : Machine :=
  { m with status := .running, awaited := none, inputs := xs }

/-- A step that waits has found the queue empty, and changes nothing but the
status and what goes with it. -/
theorem step_awaiting {m m' : Machine} {dst : Int} (h : m.step = (.ok (some (.awaiting dst)), m')) :
    m.status ≠ .halted ∧ m.inputs = [] ∧
      m.fetch = (.ok (.input dst, m.pointer + 2), m'.memory) ∧
      m' = { m with status := .awaitingInput, awaited := some dst, memory := m'.memory } := by
  have hh : m.status ≠ .halted := by
    intro hh
    rw [step_halted hh] at h
    cases h
  cases Move.of_step hh h with
  | waits hf hq => exact ⟨hh, hq, hf, rfl⟩

theorem Waiting.of_step {m m' : Machine} {dst : Int}
    (h : m.step = (.ok (some (.awaiting dst)), m')) : m'.Waiting dst := by
  obtain ⟨-, hq, hf, hm⟩ := step_awaiting h
  have hf' : m'.memory.fetch m.base m.pointer = (.ok (.input dst, m.pointer + 2), m'.memory) :=
    Memory.fetch_again hf
  rw [hm]
  exact ⟨rfl, rfl, hq, hf'⟩

/-- A waiting machine waits, and is not changed by trying. -/
theorem Waiting.step {m : Machine} {dst : Int} (h : m.Waiting dst) :
    m.step = (.ok (some (.awaiting dst)), m) := by
  have hh : m.status ≠ .halted := by rw [h.status]; decide
  rw [step_fetched hh h.fetched]
  obtain ⟨⟨pointer, base, status, inputs, awaited, lastOutput, steps⟩, memory⟩ := m
  obtain ⟨rfl, rfl, rfl, -⟩ := h
  rfl

/-- An answer to a waiting machine comes to the same as the step that it
makes with the answer queued. -/
theorem Waiting.provide {m : Machine} {dst : Int} (h : m.Waiting dst) (v : Int) (rest : List Int) :
    (m.resume (v :: rest)).step = match m.provide (.int v) with
      | (.error f, _) => (.error f, m.resume (v :: rest))
      | (.ok _, m') => (.ok none, m'.enqueue rest) := by
  have hf : (m.resume (v :: rest)).fetch = (.ok (.input dst, m.pointer + 2), m.memory) := h.fetched
  rw [step_fetched (by simp [resume]) hf]
  obtain ⟨⟨pointer, base, status, inputs, awaited, lastOutput, steps⟩, memory⟩ := m
  obtain ⟨rfl, rfl, rfl, -⟩ := h
  simp only [Instruction.effect, carryOut, resume, Machine.provide]
  rcases hw : memory.write dst (.int v) with ⟨f | ⟨⟩, memory'⟩
  · cases Memory.write_error hw
    rfl
  · rfl

/-- With values queued, a step that would have waited is the step of the
machine it would have left. -/
theorem step_awaiting_enqueue {m m' : Machine} {dst : Int}
    (h : m.step = (.ok (some (.awaiting dst)), m')) (hs : m.status = .running)
    (ha : m.awaited = none) (xs : List Int) : (m.enqueue xs).step = (m'.resume xs).step := by
  obtain ⟨hh, hq, hf, hm⟩ := step_awaiting h
  have hf' : (m'.resume xs).fetch = (.ok (.input dst, m.pointer + 2), m'.memory) := by
    rw [hm]
    exact Memory.fetch_again hf
  rw [step_fetched (m := m.enqueue xs) hh hf, step_fetched (by simp [resume]) hf', hm]
  simp only [enqueue, resume, hq, hs, ha, List.nil_append]

/-- Only a machine that waits takes an answer. It then runs, and the answer has
completed one instruction. -/
theorem provide_ok {m m' : Machine} {value : Datum} (h : m.provide value = (.ok (), m')) :
    m.status = .awaitingInput ∧ m'.steps = m.steps + 1 ∧ m'.status = .running ∧
      m'.awaited = none ∧ m'.inputs = m.inputs := by
  unfold provide at h
  dsimp only at h
  split at h
  · rename_i hs _
    split at h <;> cases h
    exact ⟨hs, rfl, rfl, rfl, rfl⟩
  · cases h

/-- An answer that is taken is an integer that fits. -/
theorem provide_int {m m' : Machine} {value : Datum} (h : m.provide value = (.ok (), m')) :
    ∃ v, value = .int v ∧ InCell v := by
  unfold provide at h
  dsimp only at h
  split at h
  · split at h
    · cases h
    · rename_i hw
      obtain ⟨v, rfl, hv⟩ := Memory.write_ok_int hw
      exact ⟨v, rfl, (Memory.write_ok hv).1⟩
  · cases h

/-- An answer that is refused changes nothing. -/
theorem provide_error {m m' : Machine} {value : Datum} {f : Fault}
    (h : m.provide value = (.error f, m')) : m' = m := by
  unfold provide at h
  dsimp only at h
  split at h
  · split at h
    · rename_i hw
      cases Memory.write_error hw
      cases h
      rfl
    · cases h
  · cases h
    rfl

theorem feed_ints {m : Machine} {xs : List Int} (h : xs ≠ []) (hx : ∀ x ∈ xs, InCell x)
    (hh : m.status ≠ .halted) : m.feed (xs.map .int) =
      (.ok (), if m.status = .awaitingInput then m.resume (m.inputs ++ xs) else m.enqueue xs) := by
  have hc : Datum.toCells (fun _ => .input) 0 (xs.map .int) = .ok xs := Datum.toCells_ints hx
  simp only [feed, List.map_eq_nil_iff, h, hh, if_false, hc]
  split <;> rfl

theorem feed_running {m : Machine} (hs : m.status = .running) {xs : List Int}
    (hx : ∀ x ∈ xs, InCell x) : m.feed (xs.map .int) = (.ok (), m.enqueue xs) := by
  by_cases h : xs = []
  · rw [h, enqueue_nil]
    rfl
  · rw [feed_ints h hx (by rw [hs]; decide), if_neg (by rw [hs]; decide)]

theorem feed_one {m : Machine} (hs : m.status = .running) {x : Int} (hx : InCell x) :
    m.feed [.int x] = (.ok (), m.enqueue [x]) :=
  feed_running hs (List.forall_mem_singleton.2 hx)

/-- Values that fit can be queued on any machine that has not halted. -/
theorem feed_ok {m : Machine} {xs : List Int} (hx : ∀ x ∈ xs, InCell x)
    (hh : m.status ≠ .halted) : (m.feed (xs.map .int)).1 = .ok () := by
  by_cases h : xs = []
  · rw [h]
    rfl
  · rw [feed_ints h hx hh]

/-- Values that are refused change nothing. -/
theorem feed_error {m m' : Machine} {values : List Datum} {f : Fault}
    (h : m.feed values = (.error f, m')) : m' = m := by
  unfold feed at h
  split at h
  · cases h
  · split at h
    · cases h
      rfl
    · split at h
      · cases h
        rfl
      · dsimp only at h
        split at h <;> cases h

/-- A machine that has not halted refuses only what does not fit its queue. -/
theorem feed_fault {m m' : Machine} {values : List Datum} {f : Fault} (hh : m.status ≠ .halted)
    (h : m.feed values = (.error f, m')) : f.kind = .typeError ∨ f.kind = .cellOverflow := by
  unfold feed at h
  split at h
  · cases h
  · split at h
    · rename_i hc
      cases h
      exact Datum.toCells_fault hc
    · dsimp only at h
      split at h <;> cases h

/-- A machine takes only integers that fit a cell. It queues them, and if it
waits for them it runs again. -/
theorem feed_taken {m m' : Machine} {values : List Datum} (h : m.feed values = (.ok (), m')) :
    ∃ xs : List Int, values = xs.map .int ∧ (∀ x ∈ xs, InCell x) ∧
      ((m.status = .awaitingInput → xs = []) ∧ m' = m.enqueue xs ∨
        m.status = .awaitingInput ∧ m' = m.resume (m.inputs ++ xs)) := by
  by_cases hv : values = []
  · subst hv
    cases h
    exact ⟨[], rfl, List.forall_mem_nil _, .inl ⟨fun _ => rfl, (enqueue_nil m).symm⟩⟩
  by_cases hh : m.status = .halted
  · simp only [feed, hv, hh, if_true, if_false] at h
    cases h
  cases hc : Datum.toCells (fun _ => .input) 0 values with
  | error f =>
    simp only [feed, hv, hh, if_false, hc] at h
    cases h
  | ok xs =>
    obtain ⟨rfl, hx⟩ := Datum.toCells_ok hc
    refine ⟨xs, rfl, hx, ?_⟩
    rw [feed_ints (fun hxs => hv (by rw [hxs]; rfl)) hx hh] at h
    by_cases hw : m.status = .awaitingInput
    · rw [if_pos hw] at h
      cases h
      exact .inr ⟨hw, rfl⟩
    · rw [if_neg hw] at h
      cases h
      exact .inl ⟨fun h => absurd h hw, rfl⟩

/-- A running machine takes only integers that fit a cell, and queues them. -/
theorem feed_accepted {m m' : Machine} {values : List Datum} (hs : m.status = .running)
    (h : m.feed values = (.ok (), m')) :
    ∃ xs : List Int, values = xs.map .int ∧ (∀ x ∈ xs, InCell x) ∧ m' = m.enqueue xs := by
  obtain ⟨xs, hxs, hx, ⟨-, hm⟩ | ⟨hw, -⟩⟩ := feed_taken h
  · exact ⟨xs, hxs, hx, hm⟩
  · rw [hs] at hw
    cases hw

end Machine
end Intcode
