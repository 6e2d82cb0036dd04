/-
# What the code of an expression touches

The code of an expression is made of the codes of its parts, each at an address of
its own and run on a stack of some height, on which the parts before it have left
their values. So what it does is said for every address and every height
(`Expr.code_frame`): it pushes the value, takes the inputs that the evaluation
reads, gives nothing out, and leaves every cell below the stack pointer as it finds
it, that is the code around it, and the values that wait on the stack.

`Expr.code_pushes` says this of a machine whose memory reaches up to the stack and
whose queue is the one that is evaluated. Neither is needed. A memory reads zero
past its end, so it may as well reach up to the stack, and zeros go through a run
(`Machine.Steps.of_pad`). Nor does a run that never asks in vain notice what stands
behind the inputs that it takes (`Machine.Steps.enqueue`).

Key theorems: `Machine.Steps.lastOutput`, `Expr.ready_pad`, `Expr.code_frame`.
-/
import Intcode.Proofs.Compile
import Intcode.Proofs.Zeros

namespace Intcode

/-! ### Cells of a memory that is made longer -/

namespace Memory

variable {m m' : Memory} {p n a : Nat} {xs : List Int}

/-- Up to where a memory is made longer it has the cells that it read there. -/
theorem getElem?_pad (h : a < n) : (m.pad n).cells[a]? = some (m.cell a) := by
  have hsize : a < (m.pad n).size := by
    rw [size_pad]
    omega
  rw [getElem?_of_lt_size hsize, cell_pad]

theorem holds_pad (h : ∀ i x, xs[i]? = some x → m.cell (p + i) = x) (hn : p + xs.length ≤ n) :
    (m.pad n).Holds p xs := by
  induction xs generalizing p with
  | nil => trivial
  | cons x xs ih =>
    rw [List.length_cons] at hn
    have first : m.cell p = x := h 0 x rfl
    refine ⟨by rw [getElem?_pad (by omega), first], ih (fun i y hy => ?_) (by omega)⟩
    rw [Nat.add_assoc, Nat.add_comm 1 i]
    exact h (i + 1) y hy

theorem SameBelow.cell_pad (h : SameBelow n (m.pad n) m') (ha : a < n) : m'.cell a = m.cell a :=
  cell_of_getElem? ((h a ha).trans (getElem?_pad ha))

end Memory

namespace Machine

/-- The last output stays what it is while nothing is given out. -/
theorem Steps.lastOutput {m m' : Machine} {n : Nat} (h : Steps n m [] m') :
    m'.lastOutput = m.lastOutput := by
  generalize houtputs : ([] : List Int) = out at h
  induction h with
  | refl => rfl
  | @silent _ m m₁ _ _ first _ ih =>
    refine (ih houtputs).trans ?_
    have live : m.status ≠ .halted := (step_live first (.inl rfl)).1
    cases Move.of_step live first <;> rfl
  | output => cases houtputs

end Machine

namespace Expr

open Machine Memory

variable {e : Expr} {m : Machine} {b sp : Nat} {xs more : List Int} {v : Int}

/-- With its memory up to the stack, a machine that has the code of an expression before
it is ready for it. -/
theorem ready_pad (stands : m.At b sp)
    (code : ∀ i x, (e.code b)[i]? = some x → m.memory.cell (b + i) = x)
    (above : b + (e.code b).length ≤ sp) (room : sp + e.peak m.inputs < 2 ^ 63)
    (permits : ∀ n, m.memory.Permits n) (fits : ∀ x ∈ m.inputs, InCell x) :
    e.Ready (m.pad sp) b sp where
  stands := ⟨stands.running, stands.pointer, stands.base⟩
  code := holds_pad code above
  above := by rwa [← length_code e b]
  size := by
    show sp ≤ (m.memory.pad sp).size
    rw [size_pad]
    exact Nat.le_max_right ..
  permits := (permits sp).pad (permits _)
  room := by
    show ((sp + e.peak m.inputs : Nat) : Int) ≤ cellMax
    unfold cellMax
    omega
  inputs := fits

/-- A machine that runs under no limit, and has before it the code of an expression,
above that code its stack pointer, and first in its queue inputs on which the
evaluation gives a value, runs through the code. It gives nothing out and comes to
stand behind the code, with the value pushed. No cell below the stack has changed,
and what the evaluation reads, no more and no less, is gone from the queue. Only the
peak of the stack must not be past the addresses that fit a cell. -/
theorem code_frame (stands : m.At b sp)
    (code : ∀ i x, (e.code b)[i]? = some x → m.memory.cell (b + i) = x)
    (above : b + (e.code b).length ≤ sp) (room : sp + e.peak xs < 2 ^ 63)
    (unlimited : m.memory.limit = none) (queue : m.inputs = xs ++ more)
    (fits : ∀ x ∈ xs, InCell x) (value : e.evaluate xs = .ok v) :
    ∃ taken rest m', xs = taken ++ rest ∧ e.eval xs = .ok (v, rest) ∧
      Steps (e.cost xs) m [] m' ∧ m'.At (b + (e.code b).length) (sp + 1) ∧
      m'.memory.cell sp = v ∧ (∀ a, a < sp → m'.memory.cell a = m.memory.cell a) ∧
      m'.inputs = rest ++ more ∧ m'.lastOutput = m.lastOutput := by
  obtain ⟨rest, he⟩ := evaluate_ok.1 value
  obtain ⟨taken, hxs⟩ := eval_suffix he
  have permits (k : Nat) : m.memory.Permits k :=
    permits_iff.2 (.inr fun l hl => by rw [unlimited] at hl; cases hl)
  -- the machine whose queue is that of the evaluation alone
  let m₀ : Machine := { m with inputs := xs }
  have whole : m₀.enqueue more = m := by
    obtain ⟨r, memory⟩ := m
    simp only [enqueue, m₀, ← queue]
  have ready : e.Ready (m₀.pad sp) b sp :=
    ready_pad ⟨stands.running, stands.pointer, stands.base⟩ code above room permits fits
  obtain ⟨m₂, h₂⟩ := (e.code_pushes ready).1 v rest he
  obtain ⟨m₁, steps, rfl⟩ := Steps.of_pad h₂.steps (permits sp)
  have steps := whole ▸ steps.enqueue more
  have cells (a : Nat) : (m₁.pad sp).memory.cell a = m₁.memory.cell a := cell_pad m₁.memory sp a
  refine ⟨taken, rest, m₁.enqueue more, hxs.symm, he, steps, ?_, ?_, fun a ha => ?_, ?_,
    steps.lastOutput⟩
  · rw [length_code]
    exact ⟨h₂.stands.running, h₂.stands.pointer, h₂.stands.base⟩
  · exact (cells sp).symm.trans (cell_of_getElem? h₂.top)
  · exact (cells a).symm.trans (h₂.below.cell_pad ha)
  · show m₁.inputs ++ more = rest ++ more
    rw [show m₁.inputs = rest from h₂.inputs]

/-- A choice whose code stands at the address two, and whose stack is at forty, past the
end of the memory. It takes its first branch, and there a product, and leaves the input
that its second branch would read. -/
theorem code_frame_choice :
    let e : Expr := .select .input (.binary .multiply .input (.const ⟨3, by decide⟩)) .input
    let m : Machine :=
      { pointer := 2, base := 40, inputs := [1, 7, 9], lastOutput := some 5,
        memory := ⟨([8, 8] ++ e.code 2).toArray, none⟩ }
    m.At 2 40 ∧ (∀ i x, (e.code 2)[i]? = some x → m.memory.cell (2 + i) = x) ∧
      2 + (e.code 2).length ≤ 40 ∧ 40 + e.peak [1, 7] < 2 ^ 63 ∧ e.evaluate [1, 7] = .ok 21 ∧
      ∃ m', Steps 11 m [] m' ∧ m'.At 34 41 ∧ m'.memory.cell 40 = 21 ∧
        (∀ a, a < 40 → m'.memory.cell a = m.memory.cell a) ∧ m'.inputs = [9] ∧
        m'.lastOutput = some 5 := by
  intro e m
  have stands : m.At 2 40 := ⟨rfl, rfl, rfl⟩
  have code (i : Nat) (x : Int) (h : (e.code 2)[i]? = some x) : m.memory.cell (2 + i) = x := by
    apply cell_of_getElem?
    rw [List.getElem?_toArray, List.getElem?_append_right (Nat.le_add_right 2 i)]
    rwa [List.length_cons, List.length_singleton, Nat.add_sub_cancel_left]
  have above : 2 + (e.code 2).length ≤ 40 := by decide
  have room : 40 + e.peak [1, 7] < 2 ^ 63 := by decide
  have value : e.evaluate [1, 7] = .ok 21 := by decide
  have queue : m.inputs = [1, 7] ++ [9] := rfl
  obtain ⟨-, rest, m', -, he, steps, after, top, below, inputs, told⟩ :=
    code_frame stands code above room rfl queue (by decide) value
  obtain rfl : rest = [] := by
    rw [show e.eval [1, 7] = .ok (21, []) by decide] at he
    cases he
    rfl
  exact ⟨stands, code, above, room, value, m', steps, after, top, below, inputs, told⟩

end Expr
end Intcode
