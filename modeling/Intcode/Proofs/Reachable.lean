/-
# What holds whatever is asked of a machine

A user may call a machine in any order and with any arguments, calls that fail
among them (`Machine.Reachable`). Every call comes down to steps, feedings,
answers, reads and writes of cells, and `Machine.Act` lists what one of these
can make of a machine. What every act keeps, every call keeps
(`Machine.Kept.call`).

So it is enough to look at the acts. They keep all values in range and the queue
of a waiting machine empty (`Machine.InRange`), they do not change which
addresses are refused, and they never shorten the memory nor take back a step.

Key definitions: `Machine.Reachable`, `Machine.callOutputs`, `Machine.Act`,
`Machine.Lasting`, `Machine.Kept`, `Machine.InRange`.
Key theorems: `Machine.Kept.call`, `Machine.kept_inRange`, `Machine.kept_refusal`,
`Machine.kept_growing`, `Machine.Reachable.in_range`.
-/
import Intcode.Machine.Call
import Intcode.Proofs.Refinement
import Intcode.Proofs.Run

namespace Intcode
namespace Machine

/-- The machines that calls can make of a machine. A call may fail, and a drive
without a budget may be given up before it ends. -/
inductive Reachable (m₀ : Machine) : Machine → Prop where
  | start : Reachable m₀ m₀
  | call {m : Machine} (before : Reachable m₀ m) (fuel : Nat) (c : Call) :
      Reachable m₀ (m.call fuel c).2

/-- Answers calls one after another, each with its own fuel. -/
def callAll : List (Nat × Call) → Machine → List (Attempt Reply) × Machine
  | [], m => ([], m)
  | (fuel, c) :: calls, m =>
    let (answer, m) := m.call fuel c
    let (answers, m) := callAll calls m
    (answer :: answers, m)

/-- The values that a run gives out, oldest first, also if it fails and so does
not answer with them. -/
def runOutputs (inputs : List Datum) (budget : Option Int) (fuel : Nat) (m : Machine) : List Int :=
  if m.status = .halted then []
  else match m.feed inputs with
    | (.error _, _) => []
    | (.ok _, m) => (m.collect (allowance budget fuel) [] (allowance budget fuel)).outputs

/-- The value that a reply tells to have been given out. -/
def output? : Reply → Option Int
  | .value v => v
  | .event (some (.output v)) => some v
  | _ => none

/-- The values that an answer to a call tells to have been given out. -/
def told : Attempt Reply → List Int
  | some (.ok r) => (output? r).toList
  | _ => []

/-- The values that a call gives out, oldest first. -/
def callOutputs (fuel : Nat) (c : Call) (m : Machine) : List Int :=
  match c with
  | .run inputs budget => m.runOutputs inputs budget fuel
  | c => told (m.call fuel c).1

/-! ### The acts -/

/-- What an act of a user can make of a machine. -/
inductive Act (m : Machine) : Machine → Prop where
  /-- An act that is refused changes nothing. -/
  | stays : Act m m
  | steps : Act m m.step.2
  | queues {xs : List Int} (fit : ∀ x ∈ xs, InCell x) (awake : m.status ≠ .awaitingInput) :
      Act m (m.enqueue xs)
  | resumes {xs : List Int} (fit : ∀ x ∈ xs, InCell x) (waiting : m.status = .awaitingInput) :
      Act m (m.resume (m.inputs ++ xs))
  | answers {dst v : Int} {memory : Memory} (waiting : m.status = .awaitingInput)
      (awaited : m.awaited = some dst)
      (written : m.memory.write dst (.int v) = (.ok (), memory)) :
      Act m { m with
        pointer := m.pointer + 2
        steps := m.steps + 1
        status := .running
        awaited := none
        memory := memory }
  /-- A read of a cell adds zeros to the memory at most. -/
  | reads {memory : Memory} (grown : m.memory.Grown memory) : Act m { m with memory := memory }
  | writes {a v : Int} {memory : Memory}
      (written : m.memory.write a (.int v) = (.ok (), memory)) : Act m { m with memory := memory }

theorem feed_act (m : Machine) (values : List Datum) : m.Act (m.feed values).2 := by
  rcases hf : m.feed values with ⟨f | ⟨⟩, m'⟩
  · cases feed_error hf
    exact .stays
  · obtain ⟨xs, -, hx, ⟨hnone, rfl⟩ | ⟨hw, rfl⟩⟩ := feed_taken hf
    · by_cases hw : m.status = .awaitingInput
      · rw [hnone hw, enqueue_nil]
        exact .stays
      · exact .queues hx hw
    · exact .resumes hx hw

theorem provide_act (m : Machine) (value : Datum) : m.Act (m.provide value).2 := by
  unfold provide
  dsimp only
  split
  · rename_i dst hs ha
    rcases hw : m.memory.write dst value with ⟨f | ⟨⟩, memory⟩
    · cases Memory.write_error hw
      exact .stays
    · obtain ⟨v, -, hv⟩ := Memory.write_ok_int hw
      exact .answers hs ha hv
  · exact .stays

theorem peek_act (m : Machine) (a : Int) : m.Act (m.peek a).2 :=
  .reads (Memory.read_grown m.memory a)

theorem poke_act (m : Machine) (a : Int) (value : Datum) : m.Act (m.poke a value).2 := by
  rcases hw : m.memory.write a value with ⟨f | ⟨⟩, memory⟩ <;> simp only [poke, hw]
  · cases Memory.write_error hw
    exact .stays
  · obtain ⟨v, -, hv⟩ := Memory.write_ok_int hw
    exact .writes hv

/-! ### From the acts to the calls -/

/-- A property of machines that no step and no feeding ends. -/
structure Lasting (P : Machine → Prop) : Prop where
  step : ∀ {m : Machine}, P m → P m.step.2
  feed : ∀ {m : Machine} (values : List Datum), P m → P (m.feed values).2

namespace Lasting

variable {P : Machine → Prop} {m : Machine}

theorem advance (h : Lasting P) (n : Nat) (hm : P m) : P (m.advance n).2 := by
  induction n generalizing m with
  | zero => exact hm
  | succ n ih =>
    have hstep := h.step hm
    rw [Machine.advance]
    rcases hs : m.step with ⟨f | _ | event, m'⟩ <;> rw [hs] at hstep
    · exact hstep
    · exact ih hstep
    · exact hstep

theorem collect (h : Lasting P) (window : Nat) (outputs : List Int) (n : Nat) (hm : P m) :
    P (m.collect window outputs n).machine := by
  induction n generalizing m window outputs with
  | zero => exact hm
  | succ n ih =>
    have hstep := h.step hm
    rw [Machine.collect]
    rcases hs : m.step with ⟨f | _ | v | a | _, m'⟩ <;> rw [hs] at hstep
    · exact hstep
    · exact ih window outputs hstep
    · exact ih n (v :: outputs) hstep
    · exact hstep
    · exact hstep

theorem tick (h : Lasting P) (budget : Option Int) (fuel : Nat) (hm : P m) :
    P (m.tick budget fuel).2 := by
  have hadvance := h.advance (allowance budget fuel) hm
  unfold Machine.tick
  split
  · exact hm
  · rcases ha : m.advance (allowance budget fuel) with ⟨_ | answer, m'⟩ <;> rw [ha] at hadvance <;>
      exact hadvance

theorem run (h : Lasting P) (inputs : List Datum) (budget : Option Int) (fuel : Nat) (hm : P m) :
    P (m.run inputs budget fuel).2 := by
  have hfeed := h.feed inputs hm
  unfold Machine.run
  split
  · exact hm
  · rcases hf : m.feed inputs with ⟨f | ⟨⟩, m'⟩ <;> rw [hf] at hfeed
    · exact hfeed
    · exact h.collect _ _ _ hfeed

theorem runToOutput (h : Lasting P) (inputs : List Datum) (budget : Option Int) (fuel : Nat)
    (hm : P m) : P (m.runToOutput inputs budget fuel).2 := by
  have hfeed := h.feed inputs hm
  unfold Machine.runToOutput
  split
  · exact hm
  · rcases hf : m.feed inputs with ⟨f | ⟨⟩, m'⟩ <;> rw [hf] at hfeed
    · exact hfeed
    · have htick := h.tick budget fuel hfeed
      rcases ht : m'.tick budget fuel with ⟨_ | f | v | a | _, m''⟩ <;> rw [ht] at htick <;>
        simp only [ht] <;> exact htick

/-- What steps and feedings keep, a call keeps, if it does when it is an answer, a
read or a write. -/
theorem call (h : Lasting P) (fuel : Nat) (c : Call) (hm : P m)
    (answered : ∀ value, c = .provide value → P (m.provide value).2)
    (read : ∀ a, c = .peek a → P (m.peek a).2)
    (written : ∀ a value, c = .poke a value → P (m.poke a value).2) : P (m.call fuel c).2 := by
  cases c with
  | run inputs budget => exact h.run inputs budget fuel hm
  | runToOutput inputs budget => exact h.runToOutput inputs budget fuel hm
  | tick budget => exact h.tick budget fuel hm
  | step => exact h.step hm
  | feed values => exact h.feed values hm
  | provide value => exact answered value rfl
  | peek a => exact read a rfl
  | poke a value => exact written a value rfl

end Lasting

/-- A property of machines that no act of a user ends. -/
def Kept (P : Machine → Prop) : Prop := ∀ ⦃m m' : Machine⦄, m.Act m' → P m → P m'

namespace Kept

variable {P : Machine → Prop} {m : Machine}

theorem lasting (h : Kept P) : Lasting P :=
  ⟨fun hm => h .steps hm, fun values hm => h (feed_act _ values) hm⟩

/-- What every act keeps, every call keeps, whether it answers or fails. -/
theorem call (h : Kept P) (fuel : Nat) (c : Call) (hm : P m) : P (m.call fuel c).2 := by
  apply h.lasting.call fuel c hm
  · intro value _
    exact h (m.provide_act value) hm
  · intro a _
    exact h (m.peek_act a) hm
  · intro a value _
    exact h (m.poke_act a value) hm

theorem reachable (h : Kept P) {m₀ : Machine} (hm : P m₀) (reachable : Reachable m₀ m) : P m := by
  induction reachable with
  | start => exact hm
  | call _ fuel c ih => exact h.call fuel c ih

end Kept

/-! ### Addresses, lengths and steps -/

/-- No act changes which addresses are refused. -/
theorem kept_refusal (refusal : Int → Option Fault) :
    Kept fun m => m.memory.refusal? = refusal := by
  intro m m' act h
  cases act with
  | stays | queues | resumes => exact h
  | steps => rw [refusal?_step, h]
  | @answers dst v _ _ _ written | @writes dst v _ written =>
    have hw := Memory.refusal?_write m.memory dst (.int v)
    rwa [written, h] at hw
  | reads grown => exact grown.refusal?.trans h

/-- A step is counted at most once. -/
theorem steps_le_step (m : Machine) : m.steps ≤ m.step.2.steps := by
  by_cases h : m.status = .halted
  · rw [step_halted h]
  · have hm := step_move h
    generalize m.step.1 = answer, m.step.2 = m' at hm
    cases hm with
    | fails | waits => exact Nat.le_refl _
    | stores | takes | emits | goes | rebases | halts => exact Nat.le_succ _

/-- No act shortens the memory or takes a step back. -/
theorem kept_growing (length steps : Nat) :
    Kept fun m => length ≤ m.memory.size ∧ steps ≤ m.steps := by
  intro m m' act h
  cases act with
  | stays | queues | resumes => exact h
  | steps => exact ⟨Nat.le_trans h.1 (size_le_step m), Nat.le_trans h.2 (steps_le_step m)⟩
  | @answers dst v _ _ _ written =>
    have hsize := Memory.size_le_write m.memory dst (.int v)
    rw [written] at hsize
    exact ⟨Nat.le_trans h.1 hsize, Nat.le_succ_of_le h.2⟩
  | reads grown => exact ⟨Nat.le_trans h.1 grown.size_le, h.2⟩
  | @writes a v _ written =>
    have hsize := Memory.size_le_write m.memory a (.int v)
    rw [written] at hsize
    exact ⟨Nat.le_trans h.1 hsize, h.2⟩

/-- A memory that refuses what another refuses has no more cells than that one
has, or may have. -/
theorem size_le_limit {m m₀ : Memory} {l : Int} (hr : m.refusal? = m₀.refusal?)
    (hl : m₀.limit = some l) : (m.size : Int) ≤ max (m₀.size : Int) l := by
  -- a longer memory has a cell at this address, which the other memory refuses
  by_contra hlong
  have haccess : m.refusal? (max (m₀.size : Int) l) = none :=
    Memory.refusal?_eq_none_iff.2 ⟨by omega, .inl (by omega)⟩
  rw [hr, Memory.refusal?_eq_none_iff] at haccess
  rcases haccess.2 with hlt | hlt
  · omega
  · have := hlt l hl
    omega

/-! ### Values in range -/

/-- All values that a machine holds are signed 64-bit integers, and if it waits,
its queue is empty and it awaits a value for an address that is not negative. -/
structure InRange (m : Machine) : Prop where
  cells : ∀ a, InCell (m.memory.cell a)
  base : InCell m.base
  inputs : ∀ v ∈ m.inputs, InCell v
  lastOutput : ∀ v, m.lastOutput = some v → InCell v
  waiting : m.status = .awaitingInput → m.inputs = [] ∧ ∃ a, m.awaited = some a ∧ 0 ≤ a

/-- The operands that are read are literals or cells. -/
theorem inCell_value {m : Machine} (h : ∀ a, InCell (m.memory.cell a)) (i : Nat) :
    InCell (m.tape.value i) := by
  unfold Tape.value
  split <;> exact h _

/-- A value that is given out fits if all cells do. -/
theorem inCell_emit {m : Machine} {i : Instruction} {next v : Int} {decoded : Memory}
    (hf : m.fetch = (.ok (i, next), decoded)) (he : i.effect next = .emit v)
    (h : ∀ a, InCell (m.memory.cell a)) : InCell v := by
  obtain ⟨op, -, rfl⟩ := fetch_operands hf
  cases op <;> cases he
  exact inCell_value h 0

/-- An input instruction that is decoded has no negative address. -/
theorem input_nonneg {m : Machine} {next dst : Int} {decoded : Memory}
    (hf : m.fetch = (.ok (.input dst, next), decoded)) : 0 ≤ dst := by
  obtain ⟨op, hfirst, hi⟩ := fetch_operands hf
  cases op <;> cases hi
  exact address_nonneg hfirst

/-- Cells that fit still do after a value that fits is written. -/
theorem inCell_written {memory memory' : Memory} {a v : Int} (h : ∀ a, InCell (memory.cell a))
    (hw : memory.write a (.int v) = (.ok (), memory')) (b : Nat) : InCell (memory'.cell b) := by
  obtain ⟨hv, -, hcell⟩ := Memory.write_ok hw
  rw [hcell b]
  split
  · exact hv
  · exact h b

theorem InRange.step {m : Machine} (h : m.InRange) : m.step.2.InRange := by
  by_cases hh : m.status = .halted
  · rwa [step_halted hh]
  have hfetch (a : Nat) : InCell (m.fetch.2.cell a) := by
    rw [fetch_cells]
    exact h.cells a
  have hm := step_move hh
  generalize m.step.1 = answer, m.step.2 = m' at hm
  cases hm with
  | fails f => exact { h with cells := hfetch }
  | stores hf _ hw =>
    rw [hf] at hfetch
    exact { h with cells := inCell_written hfetch hw }
  | waits hf hq =>
    rw [hf] at hfetch
    exact { h with cells := hfetch, waiting := fun _ => ⟨hq, _, rfl, input_nonneg hf⟩ }
  | takes hf hq hw =>
    rw [hf] at hfetch
    refine { h with
      cells := inCell_written hfetch hw
      inputs := fun v hv => h.inputs v (by rw [hq]; exact List.mem_cons_of_mem _ hv)
      waiting := fun hs => by cases hs }
  | emits hf he =>
    have hv := inCell_emit hf he h.cells
    rw [hf] at hfetch
    exact { h with cells := hfetch, lastOutput := fun v hv' => by cases hv'; exact hv }
  | goes hf _ =>
    rw [hf] at hfetch
    exact { h with cells := hfetch }
  | rebases hf _ fits =>
    rw [hf] at hfetch
    exact { h with cells := hfetch, base := fits }
  | halts hf _ =>
    rw [hf] at hfetch
    exact { h with cells := hfetch, waiting := fun hs => by cases hs }

/-- Every act keeps all values in range. -/
theorem kept_inRange : Kept InRange := by
  intro m m' act h
  have joined {xs : List Int} (hx : ∀ x ∈ xs, InCell x) : ∀ v ∈ m.inputs ++ xs, InCell v :=
    List.forall_mem_append.2 ⟨h.inputs, hx⟩
  cases act with
  | stays => exact h
  | steps => exact h.step
  | queues fit awake => exact { h with inputs := joined fit, waiting := fun hs => absurd hs awake }
  | resumes fit => exact { h with inputs := joined fit, waiting := nofun }
  | answers _ _ written =>
    exact { h with cells := inCell_written h.cells written, waiting := nofun }
  | reads grown =>
    obtain ⟨n, -, rfl⟩ := grown
    exact { h with cells := fun b => by rw [Memory.cell_pad]; exact h.cells b }
  | writes written => exact { h with cells := inCell_written h.cells written }

theorem inRange_boot {program : List Datum} {limit : Option Int} {m : Machine}
    (h : boot program limit = .ok m) :
    m.InRange ∧ m.memory.size = program.length ∧ m.memory.limit = limit := by
  obtain ⟨xs, rfl, hx, rfl⟩ := boot_fresh h
  refine ⟨⟨fun a => ?_, inCell_zero, nofun, nofun, nofun⟩, by simp [fresh, Memory.size], rfl⟩
  have hcell : (fresh xs limit).memory.cell a = xs.getD a 0 := by
    simp [fresh, Memory.cell, Array.getD_eq_getD_getElem?, List.getD_eq_getElem?_getD]
  rw [hcell, List.getD_eq_getElem?_getD]
  cases hxa : xs[a]? with
  | none => exact inCell_zero
  | some x => exact hx x (List.mem_of_getElem? hxa)

/-! ### Values given out -/

theorem step_output {m m' : Machine} {v : Int} (h : m.step = (.ok (some (.output v)), m')) :
    m'.lastOutput = some v := by
  have hh : m.status ≠ .halted := by
    intro hh
    rw [step_halted hh] at h
    cases h
  cases Move.of_step hh h with
  | emits => rfl

theorem tick_output {m m' : Machine} {budget : Option Int} {fuel : Nat} {v : Int}
    (h : m.tick budget fuel = (some (.ok (.output v)), m')) : m'.lastOutput = some v := by
  by_cases hh : m.status = .halted
  · rw [tick_halted hh] at h
    cases h
  obtain ⟨_, _, -, hs⟩ := tick_ok hh h
  exact step_output hs

theorem runToOutput_output {m m' : Machine} {inputs : List Datum} {budget : Option Int}
    {fuel : Nat} {v : Int} (h : m.runToOutput inputs budget fuel = (some (.ok (some v)), m')) :
    m'.lastOutput = some v := by
  unfold runToOutput at h
  split at h
  · cases h
  · rcases hf : m.feed inputs with ⟨f | ⟨⟩, m₁⟩ <;> simp only [hf] at h
    · cases h
    · rcases ht : m₁.tick budget fuel with ⟨_ | f | w | a | _, m₂⟩ <;> simp only [ht] at h <;>
        cases h
      exact tick_output ht

theorem reply_ok {α : Type} {make : α → Reply} {answered : Attempt α × Machine} {r : Reply}
    {m : Machine} (h : reply make answered = (some (.ok r), m)) :
    ∃ a, answered = (some (.ok a), m) ∧ r = make a := by
  obtain ⟨_ | f | a, m₁⟩ := answered <;> cases h
  exact ⟨a, rfl, rfl⟩

/-- A value that a reply tells to have been given out is the last output. -/
theorem call_output {m m' : Machine} {fuel : Nat} {c : Call} {r : Reply} {v : Int}
    (h : m.call fuel c = (some (.ok r), m')) (hv : output? r = some v) :
    m'.lastOutput = some v := by
  unfold call at h
  cases c with
  | run | feed | provide | peek | poke =>
    obtain ⟨_, -, rfl⟩ := reply_ok h
    cases hv
  | runToOutput =>
    obtain ⟨w, ht, rfl⟩ := reply_ok h
    cases hv
    exact runToOutput_output ht
  | tick =>
    obtain ⟨_ | _ | _, ht, rfl⟩ := reply_ok h <;> cases hv
    exact tick_output ht
  | step =>
    obtain ⟨_ | _ | _ | _, hs, rfl⟩ := reply_ok h <;> cases hv
    simp only [Prod.mk.injEq, Option.some.injEq] at hs
    exact step_output (Prod.ext hs.1 hs.2)

theorem runOutputs_fed {m start : Machine} {inputs : List Datum} {budget : Option Int} {fuel : Nat}
    (hh : m.status ≠ .halted) (hf : m.feed inputs = (.ok (), start)) :
    m.runOutputs inputs budget fuel =
      (start.collect (allowance budget fuel) [] (allowance budget fuel)).outputs := by
  simp only [runOutputs, hh, if_false, hf]

/-- What a run answers with is what it gives out. -/
theorem run_outputs {m m' : Machine} {inputs : List Datum} {budget : Option Int} {fuel : Nat}
    {out : List Int} (h : m.run inputs budget fuel = (some (.ok out), m')) :
    m.runOutputs inputs budget fuel = out := by
  unfold run at h
  unfold runOutputs
  split at h
  · rename_i hh
    cases h
    rw [if_pos hh]
  · rename_i hh
    rw [if_neg hh]
    rcases hf : m.feed inputs with ⟨f | ⟨⟩, m₁⟩ <;> simp only [hf] at h ⊢
    · cases h
    · simp only [Prod.mk.injEq] at h
      split at h
      · obtain ⟨h, -⟩ := h
        cases h
        rfl
      · cases h.1
      · cases h.1
      · cases budget <;> cases h.1

namespace InRange

variable {m m' : Machine} {v : Int}

theorem steps {n : Nat} {out : List Int} (h : m.InRange) (run : Steps n m out m') :
    ∀ v ∈ out, InCell v := by
  induction run with
  | refl => simp
  | @silent _ m₁ _ _ _ first _ ih =>
    have hnext := h.step
    rw [first] at hnext
    exact ih hnext
  | output first _ ih =>
    have hnext := h.step
    rw [first] at hnext
    intro v hv
    rcases List.mem_cons.1 hv with rfl | hv
    · exact hnext.lastOutput v (step_output first)
    · exact ih hnext v hv

theorem runOutputs (h : m.InRange) (inputs : List Datum) (budget : Option Int) (fuel : Nat) :
    ∀ v ∈ m.runOutputs inputs budget fuel, InCell v := by
  have hfeed := kept_inRange (m.feed_act inputs) h
  unfold Machine.runOutputs
  split
  · simp
  · rcases hf : m.feed inputs with ⟨f | ⟨⟩, m₁⟩ <;> rw [hf] at hfeed
    · simp
    · rcases collect_cases (allowance budget fuel) m₁ (allowance budget fuel) [] with
        ⟨out, m₂, w, hr, hc⟩ | ⟨k, out, m₂, answer, m₃, e, -, hr, -, -, hc⟩
      · simp only [hc, List.reverse_nil, List.nil_append]
        exact hfeed.steps hr
      · simp only [hc, List.reverse_nil, List.nil_append]
        exact hfeed.steps hr

theorem told (h : m.InRange) (fuel : Nat) (c : Call) :
    ∀ v ∈ told (m.call fuel c).1, InCell v := by
  have hcall := kept_inRange.call fuel c h
  rcases hc : m.call fuel c with ⟨_ | f | r, m'⟩ <;> rw [hc] at hcall <;> intro v hv
  · cases hv
  · cases hv
  · exact hcall.lastOutput v (call_output hc (Option.mem_toList.1 hv))

/-- What a call gives out fits a cell, also if the call fails. -/
theorem callOutputs (h : m.InRange) (fuel : Nat) (c : Call) :
    ∀ v ∈ m.callOutputs fuel c, InCell v := by
  cases c with
  | run inputs budget => exact h.runOutputs inputs budget fuel
  | runToOutput | tick | step | feed | provide | peek | poke => exact h.told fuel _

end InRange

/-- Whatever is asked of a machine, all its values are in range, and all values
that a call gives out are, even if the call fails. Its memory is no longer than
the program and the limit allow, and a call never shortens it, nor takes a step
back. -/
theorem Reachable.in_range {program : List Datum} {limit : Option Int} {m₀ m : Machine}
    (boot : boot program limit = .ok m₀) (reachable : Reachable m₀ m) :
    m.InRange ∧ (∀ l, limit = some l → (m.memory.size : Int) ≤ max (program.length : Int) l) ∧
      ∀ fuel c, (∀ v ∈ m.callOutputs fuel c, InCell v) ∧
        m.memory.size ≤ (m.call fuel c).2.memory.size ∧ m.steps ≤ (m.call fuel c).2.steps := by
  obtain ⟨hfresh, hsize, hlimit⟩ := inRange_boot boot
  have hm : m.InRange := kept_inRange.reachable hfresh reachable
  refine ⟨hm, fun l hl => ?_, fun fuel c => ⟨hm.callOutputs fuel c, ?_⟩⟩
  · have hrefusal : m.memory.refusal? = m₀.memory.refusal? :=
      (kept_refusal m₀.memory.refusal?).reachable rfl reachable
    rw [← hsize]
    exact size_le_limit hrefusal (hlimit.trans hl)
  · exact (kept_growing m.memory.size m.steps).call fuel c ⟨Nat.le_refl _, Nat.le_refl _⟩

/-- A program that gives out its input, of five cells under a limit of six. It
waits, is refused an answer that does not fit and a write past the limit, is
read at its last address, and is then run on the greatest input. -/
theorem Reachable.in_range_echo :
    let m₀ : Machine := { memory := ⟨#[3, 0, 4, 0, 99], some 6⟩ }
    let m : Machine :=
      { status := .awaitingInput, awaited := some 0, memory := ⟨#[3, 0, 4, 0, 99, 0], some 6⟩ }
    Machine.boot ([3, 0, 4, 0, 99].map .int) (some 6) = .ok m₀ ∧ Reachable m₀ m ∧ m.InRange ∧
      m.callOutputs 3 (.run [.int cellMax] none) = [cellMax] ∧ InCell cellMax := by
  intro m₀ m
  let asked : Machine := { m₀ with status := .awaitingInput, awaited := some 0 }
  have asks : (m₀.call 0 (.tick (some 5))).2 = asked := by with_unfolding_all rfl
  have refuses : (asked.call 0 (.provide (.int (cellMax + 1)))).2 = asked := rfl
  have stays : (asked.call 0 (.poke 6 (.int 1))).2 = asked := rfl
  have reads : (asked.call 0 (.peek 5)).2 = m := rfl
  have reachable : Reachable m₀ m := by
    rw [← reads, ← stays, ← refuses, ← asks]
    exact .call (.call (.call (.call .start ..) ..) ..) ..
  have boots : Machine.boot ([3, 0, 4, 0, 99].map .int) (some 6) = .ok m₀ :=
    boot_ints (by decide) (some 6)
  have outputs : m.callOutputs 3 (.run [.int cellMax] none) = [cellMax] := by decide +kernel
  obtain ⟨range, -, calls⟩ := Reachable.in_range boots reachable
  refine ⟨boots, reachable, range, outputs, ?_⟩
  exact (calls 3 (.run [.int cellMax] none)).1 cellMax (by rw [outputs]; exact List.mem_cons_self)

end Machine
end Intcode
