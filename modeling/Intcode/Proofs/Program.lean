/-
# The program of an expression

The program of an expression, on a fresh machine, gives out the value of the
expression and halts, or it fails as the evaluation fails
(`program_computes`). How many instructions it completes and how many cells it
reaches are those that the evaluation costs (`program_halts`), so both are
known beforehand for a limit of the memory or a budget (`program_cost`).

Key theorems: `Expr.boot_program`, `Expr.program_halts`, `Expr.program_fails`,
`Expr.program_computes`, `Expr.program_cost`.
-/
import Intcode.Proofs.Compile

namespace Intcode

namespace Expr

open Machine Memory

/-- All cells of a code fit, where its addresses do. -/
theorem inCell_code (e : Expr) {p : Nat} (h : ((p + e.codeLength : Nat) : Int) ≤ cellMax) :
    ∀ x ∈ e.code p, InCell x := by
  induction e generalizing p with
  | const c =>
    have := c.inCell
    simp only [code, List.mem_cons, List.not_mem_nil, or_false]
    rintro x (rfl | rfl | rfl | rfl | rfl | rfl) <;> first | assumption | decide
  | input =>
    simp only [code, List.mem_cons, List.not_mem_nil, or_false]
    rintro x (rfl | rfl | rfl | rfl) <;> decide
  | binary op left right hl hr =>
    rw [codeLength] at h
    rw [code_binary]
    intro x hx
    rcases List.mem_append.1 hx with hx | hx
    · exact hl (by omega) x hx
    · rcases List.mem_append.1 hx with hx | hx
      · exact hr (by omega) x hx
      · simp only [List.mem_cons, List.not_mem_nil, or_false] at hx
        rcases hx with rfl | rfl | rfl | rfl | rfl | rfl
        · cases op <;> decide
        all_goals decide
  | select condition first second hc hf hs =>
    have hend := end_select condition first second p
    have hfirst : firstAt condition p + first.codeLength + 3 = secondAt condition first p := rfl
    have hcondition : p + condition.codeLength + 5 = firstAt condition p := rfl
    have address {n : Nat} (hn : n ≤ p + (select condition first second).codeLength) :
        InCell (n : Int) := by
      unfold cellMax at h
      rw [inCell_iff]
      omega
    rw [code_select]
    intro x hx
    rcases List.mem_append.1 hx with hx | hx
    · exact hc (by omega) x hx
    rcases List.mem_append.1 hx with hx | hx
    · simp only [List.cons_append, List.nil_append, List.mem_cons, List.not_mem_nil,
        or_false] at hx
      rcases hx with rfl | rfl | rfl | rfl | rfl
      all_goals first | decide | exact address (by omega)
    rcases List.mem_append.1 hx with hx | hx
    · exact hf (by omega) x hx
    rcases List.mem_append.1 hx with hx | hx
    · simp only [List.mem_cons, List.not_mem_nil, or_false] at hx
      rcases hx with rfl | rfl | rfl
      all_goals first | decide | exact address (Nat.le_refl _)
    · exact hs (by omega) x hx

theorem program_eq (e : Expr) : e.program =
    [moveStack, (e.program.length : Int)] ++ (e.code (2 : Nat) ++
      ([outputTop, -1] ++ [(Opcode.halt.code : Int)])) := by
  rw [length_program]
  simp only [program, length_code]
  push_cast
  simp only [List.cons_append, List.nil_append]
  congr 2
  omega

theorem inCell_program (e : Expr) (h : (e.program.length : Int) ≤ cellMax) :
    ∀ x ∈ e.program, InCell x := by
  have hlength := e.length_program
  rw [program_eq]
  intro x hx
  rcases List.mem_append.1 hx with hx | hx
  · simp only [List.mem_cons, List.not_mem_nil, or_false] at hx
    rcases hx with rfl | rfl
    · decide
    · unfold cellMax at h
      rw [inCell_iff]
      omega
  rcases List.mem_append.1 hx with hx | hx
  · exact e.inCell_code (by omega) x hx
  · simp only [List.cons_append, List.nil_append, List.mem_cons, List.not_mem_nil,
      or_false] at hx
    rcases hx with rfl | rfl | rfl <;> decide

theorem boot_program (e : Expr) (h : (e.program.length : Int) ≤ cellMax) (limit : Option Int) :
    boot (e.program.map .int) limit = .ok (fresh e.program limit) :=
  boot_ints (e.inCell_program h) limit

/-! ### The run of a program -/

/-- A memory has room for the stack of a program. -/
structure Roomy (e : Expr) (xs : List Int) (limit : Option Int) : Prop where
  address : ((e.program.length + e.peak xs : Nat) : Int) ≤ cellMax
  limit : ∀ l, limit = some l → ((e.program.length + e.peak xs : Nat) : Int) ≤ l

variable {e : Expr} {xs : List Int} {limit : Option Int}

theorem program_holds (e : Expr) (limit : Option Int) :
    let memory : Memory := ⟨e.program.toArray, limit⟩
    memory.Holds 0 [moveStack, (e.program.length : Int)] ∧ memory.Holds 2 (e.code (2 : Nat)) ∧
      memory.Holds (2 + e.codeLength) [outputTop, -1] ∧
      memory.Holds (2 + e.codeLength + 2) [(Opcode.halt.code : Int)] := by
  intro memory
  have h : memory.Holds 0 e.program := holds_toArray [] e.program limit
  rw [program_eq] at h
  obtain ⟨c0, h⟩ := holds_append.1 h
  obtain ⟨c1, h⟩ := holds_append.1 h
  obtain ⟨c2, c3⟩ := holds_append.1 h
  rw [length_code] at c2 c3
  exact ⟨c0, c1, c2, c3⟩

/-- The first instruction of a program sets the stack up past its end. -/
theorem program_starts (h : e.Roomy xs limit) (hx : ∀ x ∈ xs, InCell x) :
    ∃ m₁, Steps 1 ((fresh e.program limit).enqueue xs) [] m₁ ∧
      e.Ready m₁ 2 e.program.length ∧ m₁.inputs = xs ∧
      m₁.memory = ⟨e.program.toArray, limit⟩ := by
  have hlength := e.length_program
  have haddress := h.address
  obtain ⟨c0, c1, -⟩ := e.program_holds limit
  have stands : ((fresh e.program limit).enqueue xs).At 0 0 := ⟨rfl, rfl, rfl⟩
  have hcell : InCell (((0 : Nat) : Int) + (e.program.length : Int)) := by
    unfold cellMax at haddress
    rw [inCell_iff]
    omega
  have s := step_moveStack stands c0 hcell
  refine ⟨_, .one s, ⟨⟨rfl, rfl, by simp⟩, c1, by omega, ?_, ?_, h.address, hx⟩, rfl, rfl⟩
  · simp [size, fresh, enqueue]
  · exact permits_iff.2 (.inr h.limit)

/-- Where the evaluation gives a value, the program gives it out and halts. It
completes three instructions more than the evaluation costs, reaches as many
cells past its end as that needs, and does not change itself. -/
theorem program_halts (h : e.Roomy xs limit) (hx : ∀ x ∈ xs, InCell x) {v : Int}
    (he : e.evaluate xs = .ok v) :
    ∃ m' m'', Steps (e.cost xs + 2) ((fresh e.program limit).enqueue xs) [v] m' ∧
      m'.step = (.ok (some .halted), m'') ∧ m''.status = .halted ∧ m''.steps = e.cost xs + 3 ∧
      m''.memory.size = e.program.length + e.peak xs ∧
      SameBelow e.program.length ⟨e.program.toArray, limit⟩ m''.memory := by
  obtain ⟨m₁, s₁, ready, hi, hm⟩ := program_starts h hx
  obtain ⟨rest, hev⟩ := evaluate_ok.1 he
  obtain ⟨m₂, h₂⟩ := (e.code_pushes ready).1 v rest (by rw [hi, hev])
  have hlength := e.length_program
  have below : SameBelow e.program.length ⟨e.program.toArray, limit⟩ m₂.memory := by
    rw [← hm]
    exact h₂.below
  obtain ⟨-, -, c2, c3⟩ := e.program_holds limit
  have s₂ := step_outputTop h₂.stands (c2.mono below (by simp; omega)) h₂.top
  let m₃ : Machine := { m₂ with
    pointer := ((2 + e.codeLength : Nat) : Int) + 2
    steps := m₂.steps + 1
    lastOutput := some v }
  have stands : m₃.At (2 + e.codeLength + 2) (e.program.length + 1) :=
    ⟨h₂.stands.running, rfl, h₂.stands.base⟩
  have s₃ := step_haltWord stands (c3.mono below (by simp; omega))
  have steps := (s₁.trans h₂.steps).trans (.output s₂ (.refl m₃))
  rw [hi, show 1 + e.cost xs + (0 + 1) = e.cost xs + 2 by omega] at steps
  refine ⟨m₃, _, steps, s₃, rfl, ?_, ?_, below⟩
  · have hsteps : m₃.steps = 0 + (e.cost xs + 2) := steps.completed.1
    show m₃.steps + 1 = e.cost xs + 3
    omega
  · show m₂.memory.size = e.program.length + e.peak xs
    rw [h₂.size, hm, hi]
    simp [size]

/-- Where the evaluation fails, the program fails. -/
theorem program_fails (h : e.Roomy xs limit) (hx : ∀ x ∈ xs, InCell x) {f : Fault}
    (he : e.evaluate xs = .error f) : Fails ((fresh e.program limit).enqueue xs) f.kind := by
  obtain ⟨m₁, s₁, ready, hi, -⟩ := program_starts h hx
  exact .after s₁ ((e.code_pushes ready).2 f (by rw [hi, evaluate_error.1 he]))

/-- There is room for a program whose code is not too long for its nodes. -/
theorem roomy_of_size {e : Expr} (h : e.codeLength + e.nodes < 2 ^ 63) (xs : List Int) :
    e.Roomy xs none := by
  have hlength := e.length_program
  have hpeak := e.two_mul_peak_le xs
  have hnodes := e.codeLength_le
  refine ⟨?_, fun l hl => by cases hl⟩
  unfold cellMax
  omega

/-- The program of an expression computes the value of the expression: on a
fresh machine it halts with this one output, or where the evaluation finds a
value too large or runs out of inputs, the run ends in a fault of that
class. -/
theorem program_computes (e : Expr) (inputs : List Int)
    (size : e.codeLength + e.nodes < 2 ^ 63) (fits : ∀ x ∈ inputs, InCell x) :
    ∃ m, boot (e.program.map .int) none = .ok m ∧ match e.evaluate inputs with
      | .ok v => ∃ m', m.Runs (inputs.map .int) (.ok [v]) m' ∧ m'.status = .halted
      | .error f => (f.kind = .cellOverflow ∨ f.kind = .inputExhausted) ∧
        ∃ g m', m.Runs (inputs.map .int) (.error g) m' ∧ g.kind = f.kind := by
  have roomy := roomy_of_size size inputs
  have hlength : (e.program.length : Int) ≤ cellMax := by
    have := roomy.address
    omega
  refine ⟨fresh e.program none, e.boot_program hlength none, ?_⟩
  rcases he : e.evaluate inputs with f | v
  · obtain ⟨n, m', answer, m'', ending, g, steps, last, ends, report, kind⟩ :=
      program_fails roomy fits he
    exact ⟨(eval_fault (evaluate_error.1 he)).symm, g, m'',
      .of_steps rfl fits steps last ends report, kind⟩
  · obtain ⟨m', m'', steps, last, halted, -⟩ := program_halts roomy fits he
    exact ⟨m'', .of_steps rfl fits steps last rfl rfl, halted⟩

/-- A choice that takes its first branch, and there a product. -/
theorem program_computes_choice :
    let e : Expr := .select .input (.binary .multiply .input (.const ⟨3, by decide⟩)) .input
    e.codeLength + e.nodes < 2 ^ 63 ∧ (∀ x ∈ [1, 7], InCell x) ∧
      ∃ m, boot (e.program.map .int) none = .ok m ∧
        ∃ m', m.Runs ([1, 7].map .int) (.ok [21]) m' ∧ m'.status = .halted :=
  ⟨by decide, by decide, program_computes _ [1, 7] (by decide) (by decide)⟩

/-- What the program of an expression costs is known from the evaluation: it halts after
three instructions more than the evaluation costs, with as many cells past its end as
the stack has at its peak, and its own cells as they were. For an expression of bounded
height both are bounded whatever the inputs are, so a budget and a limit can be set
beforehand. -/
theorem program_cost (e : Expr) {inputs : List Int} {v : Int}
    (size : e.codeLength + e.nodes < 2 ^ 63) (fits : ∀ x ∈ inputs, InCell x)
    (value : e.evaluate inputs = .ok v) :
    ∃ m m', boot (e.program.map .int) none = .ok m ∧ m.Runs (inputs.map .int) (.ok [v]) m' ∧
      m'.status = .halted ∧ m'.steps = e.cost inputs + 3 ∧
      (∀ a, a < e.program.length → m'.memory.cells[a]? = e.program[a]?) ∧
      m'.memory.size = e.program.length + e.peak inputs ∧
      ∀ d, e.height ≤ d → m'.steps ≤ 5 * 2 ^ d ∧ m'.memory.size ≤ e.program.length + d + 1 := by
  have roomy := roomy_of_size size inputs
  have hlength : (e.program.length : Int) ≤ cellMax := by
    have := roomy.address
    omega
  obtain ⟨_, m', steps, last, halted, count, cells, below⟩ := program_halts roomy fits value
  refine ⟨fresh e.program none, m', e.boot_program hlength none,
    .of_steps rfl fits steps last rfl rfl, halted, count, fun a ha => ?_, cells, fun d hd => ⟨?_, ?_⟩⟩
  · rw [below a ha, List.getElem?_toArray]
  · rw [count]
    exact e.cost_le inputs hd
  · have hpeak := e.peak_le_height inputs
    omega

/-- The choice between a product and an input, of thirty-seven cells and of height two,
takes the product: fourteen instructions, and two cells more. The branch that is not
taken costs nothing. -/
theorem program_cost_choice :
    let e : Expr := .select .input (.binary .multiply .input (.const ⟨3, by decide⟩)) .input
    e.codeLength + e.nodes < 2 ^ 63 ∧ (∀ x ∈ [1, 7], InCell x) ∧ e.evaluate [1, 7] = .ok 21 ∧
      ∃ m m', boot (e.program.map .int) none = .ok m ∧ m.Runs ([1, 7].map .int) (.ok [21]) m' ∧
        m'.steps = 14 ∧ m'.memory.size = 39 ∧ m'.steps ≤ 5 * 2 ^ 2 ∧
        m'.memory.size ≤ e.program.length + 2 + 1 := by
  intro e
  have value : e.evaluate [1, 7] = .ok 21 := by decide
  obtain ⟨m, m', boots, runs, -, steps, -, cells, bounds⟩ :=
    program_cost e (by decide) (by decide) value
  obtain ⟨low, short⟩ := bounds 2 (by decide)
  exact ⟨by decide, by decide, value, m, m', boots, runs, steps, cells, low, short⟩

end Expr
end Intcode
