/-
# The code of an expression computes its value

A machine that stands before the code of an expression (`Expr.Ready`) runs
through it and pushes the value (`Expr.Pushes`): it takes the inputs that the
evaluation reads, needs as many instructions and stack cells as the evaluation
costs, and changes no cell below the stack pointer. Where the evaluation fails
the machine comes, without an output, to a step that ends its run in a fault
of the same class (`Expr.Fails`).

Key definitions: `Expr.Ready`, `Expr.Pushes`, `Expr.Fails`.
Key theorems: `Expr.code_pushes`.
-/
import Intcode.Proofs.Code
import Intcode.Proofs.Cost

namespace Intcode
namespace Expr

open Machine Memory

/-- The machine stands before the code of an expression, which lies below the
stack, and has room for the evaluation. -/
structure Ready (e : Expr) (m : Machine) (p sp : Nat) : Prop where
  stands : m.At p sp
  code : m.memory.Holds p (e.code p)
  above : p + e.codeLength ≤ sp
  size : sp ≤ m.memory.size
  permits : m.memory.Permits (sp + e.peak m.inputs)
  room : ((sp + e.peak m.inputs : Nat) : Int) ≤ cellMax
  inputs : ∀ x ∈ m.inputs, InCell x

/-- The second machine is the first after the code of an expression, which
has pushed the value. -/
structure Pushes (e : Expr) (m m' : Machine) (p sp : Nat) (v : Int) (rest : List Int) : Prop where
  steps : Steps (e.cost m.inputs) m [] m'
  stands : m'.At (p + e.codeLength) (sp + 1)
  top : m'.memory.cells[sp]? = some v
  below : SameBelow sp m.memory m'.memory
  size : m'.memory.size = max m.memory.size (sp + e.peak m.inputs)
  refusal : m'.memory.refusal? = m.memory.refusal?
  inputs : m'.inputs = rest

/-- Without an output the machine comes to a step that ends a run to the halt
by a fault of this class. -/
def Fails (m : Machine) (kind : Fault.Kind) : Prop :=
  ∃ n m' answer m'' e g, Steps n m [] m' ∧ m'.step = (answer, m'') ∧ ending? answer = some e ∧
    Stretch.answer none ⟨[], e, m''⟩ = some (.error g) ∧ g.kind = kind

theorem Fails.after {m m' : Machine} {n : Nat} {kind : Fault.Kind} (h : Steps n m [] m')
    (hf : Fails m' kind) : Fails m kind := by
  obtain ⟨k, m₁, answer, m₂, e, g, hs, h'⟩ := hf
  exact ⟨n + k, m₁, answer, m₂, e, g, h.trans hs, h'⟩

theorem Ready.refusal {e : Expr} {m : Machine} {p sp : Nat} (h : e.Ready m p sp) :
    m.memory.refusal? sp = none := by
  have := e.peak_pos m.inputs
  exact h.permits sp (by omega)

theorem Ready.inCell {e : Expr} {m : Machine} {p sp : Nat} (h : e.Ready m p sp) {n : Int}
    (h0 : 0 ≤ n) (hn : n ≤ sp + e.peak m.inputs) : InCell n := by
  have := h.room
  rw [inCell_iff]
  unfold cellMax at this
  omega

/-! ### Constants and inputs -/

/-- The code of a leaf stores the value above the top and moves the stack
pointer past it. -/
theorem leaf_pushes {e : Expr} {m m₁ : Machine} {p sp k : Nat} {v : Int} {rest : List Int}
    (h : e.Ready m p sp) (hlength : e.codeLength = k + 2) (hcost : e.cost m.inputs = 2)
    (hpeak : e.peak m.inputs = 1) (hs : m.step = (.ok none, m₁)) (h₁ : m₁.At (p + k) sp)
    (hm : m₁.memory = m.memory.store sp v) (hi : m₁.inputs = rest)
    (hc : m.memory.Holds (p + k) [moveStack, 1]) : ∃ m', e.Pushes m m' p sp v rest := by
  have below : SameBelow sp m.memory m₁.memory := by
    rw [hm]
    exact sameBelow_store h.size v
  have above := h.above
  have hc' : m₁.memory.Holds (p + k) [moveStack, 1] := hc.mono below (by simp; omega)
  have s2 := step_moveStack h₁ hc' (h.inCell (by omega) (by omega))
  let m₂ : Machine := { m₁ with
    pointer := ((p + k : Nat) : Int) + 2, steps := m₁.steps + 1, base := (sp : Int) + 1 }
  refine ⟨m₂, ?_, ⟨h₁.running, ?_, rfl⟩, ?_, below, ?_, ?_, hi⟩
  · rw [hcost]
    exact .silent hs (.one s2)
  · show ((p + k : Nat) : Int) + 2 = (p + e.codeLength : Nat)
    omega
  · rw [hm]
    exact getElem?_store ..
  · rw [hm, hpeak]
    exact size_store ..
  · rw [hm]
    exact refusal?_store h.refusal v

theorem const_pushes {c : Constant} {m : Machine} {p sp : Nat} (h : (const c).Ready m p sp) :
    ∃ m', (const c).Pushes m m' p sp c.val m.inputs := by
  have hcode : m.memory.Holds p ([pushConstant, c.val, 0, 0] ++ [moveStack, 1]) := h.code
  obtain ⟨h1, h2⟩ := holds_append.1 hcode
  have hs := step_pushConstant h.stands h1 h.refusal c.inCell
  exact leaf_pushes h rfl rfl rfl hs ⟨h.stands.running, rfl, h.stands.base⟩ rfl rfl h2

theorem input_pushes {m : Machine} {p sp : Nat} {v : Int} {rest : List Int}
    (h : input.Ready m p sp) (hq : m.inputs = v :: rest) :
    ∃ m', input.Pushes m m' p sp v rest := by
  have hcode : m.memory.Holds p ([pushInput, 0] ++ [moveStack, 1]) := h.code
  obtain ⟨h1, h2⟩ := holds_append.1 hcode
  have hs := step_pushInput h.stands h1 h.refusal hq (h.inputs v (by simp [hq]))
  exact leaf_pushes h rfl rfl rfl hs ⟨rfl, rfl, h.stands.base⟩ rfl rfl h2

theorem input_fails {m : Machine} {p sp : Nat} (h : input.Ready m p sp) (hq : m.inputs = []) :
    Fails m .inputExhausted := by
  have hcode : m.memory.Holds p ([pushInput, 0] ++ [moveStack, 1]) := h.code
  have s := step_pushInput_empty h.stands (holds_append.1 hcode).1 hq
  exact ⟨0, m, _, _, _, _, .refl m, s, rfl, rfl, rfl⟩

/-! ### Operations on two values -/

section Binary

variable {op : BinaryOp} {left right : Expr} {m m₁ m₂ : Machine} {p sp : Nat} {a b : Int}
  {ys zs : List Int}

theorem code_binary (op : BinaryOp) (left right : Expr) (p : Nat) :
    (binary op left right).code p = left.code p ++ (right.code (p + left.codeLength : Nat) ++
      [binaryTop op, -2, -1, -2, moveStack, -1]) := by
  simp only [code, length_code, List.append_assoc]
  rfl

theorem Ready.atLeft (h : (binary op left right).Ready m p sp) : left.Ready m p sp := by
  have hc := h.code
  rw [code_binary] at hc
  have above := h.above
  have hp : left.peak m.inputs ≤ (binary op left right).peak m.inputs := peak_left_le m.inputs
  have room := h.room
  rw [codeLength] at above
  exact ⟨h.stands, (holds_append.1 hc).1, by omega, h.size, h.permits.mono (by omega), by omega,
    h.inputs⟩

theorem Ready.atRight (h : (binary op left right).Ready m p sp)
    (hl : left.eval m.inputs = .ok (a, ys)) (h₁ : left.Pushes m m₁ p sp a ys) :
    right.Ready m₁ (p + left.codeLength) (sp + 1) := by
  have hc := h.code
  rw [code_binary] at hc
  have hc' := (holds_append.1 (holds_append.1 hc).2).1
  have above := h.above
  have room := h.room
  have permits := h.permits
  have hi := h₁.inputs
  rw [codeLength] at above
  rw [peak_binary hl, ← hi] at room permits
  rw [length_code] at hc'
  refine ⟨h₁.stands, hc'.mono h₁.below (by rw [length_code]; omega), by omega,
    lt_size_of_getElem? h₁.top, (permits.mono (by omega)).congr h₁.refusal, by omega, ?_⟩
  rw [hi]
  exact fun x hx => h.inputs x ((eval_suffix hl).subset hx)

/-- The code after that of both operands, where they have been pushed. -/
theorem Ready.top (h : (binary op left right).Ready m p sp)
    (h₁ : left.Pushes m m₁ p sp a ys)
    (h₂ : right.Pushes m₁ m₂ (p + left.codeLength) (sp + 1) b zs) :
    m₂.memory.Holds (p + left.codeLength + right.codeLength)
        ([binaryTop op, -2, -1, -2] ++ [moveStack, -1]) ∧
      m₂.memory.cells[sp]? = some a ∧ SameBelow sp m.memory m₂.memory := by
  have hc := h.code
  rw [code_binary] at hc
  have hc' := (holds_append.1 (holds_append.1 hc).2).2
  have above := h.above
  rw [codeLength] at above
  rw [length_code, length_code] at hc'
  have below : SameBelow sp m.memory m₂.memory := h₁.below.trans h₂.below (by omega)
  refine ⟨hc'.mono below (by simp; omega), ?_, below⟩
  rw [h₂.below sp (by omega)]
  exact h₁.top

theorem binary_pushes (h : (binary op left right).Ready m p sp)
    (hl : left.eval m.inputs = .ok (a, ys)) (h₁ : left.Pushes m m₁ p sp a ys)
    (h₂ : right.Pushes m₁ m₂ (p + left.codeLength) (sp + 1) b zs)
    (hv : InCell (op.value a b)) :
    ∃ m', (binary op left right).Pushes m m' p sp (op.value a b) zs := by
  obtain ⟨hcode, htop, below⟩ := h.top h₁ h₂
  obtain ⟨c1, c2⟩ := holds_append.1 hcode
  have hr : m₂.memory.refusal? sp = none := by
    rw [h₂.refusal, h₁.refusal]
    exact h.refusal
  have hsize : sp ≤ m₂.memory.size := by
    have := lt_size_of_getElem? htop
    omega
  have s1 := step_binary h₂.stands.not_halted (fetch_binaryTop h₂.stands c1 htop h₂.top) hr hv
  let m₃ : Machine := { m₂ with
    pointer := ((p + left.codeLength + right.codeLength : Nat) : Int) + 4
    steps := m₂.steps + 1
    memory := m₂.memory.store sp (op.value a b) }
  have stands : m₃.At (p + left.codeLength + right.codeLength + 4) (sp + 2) :=
    ⟨h₂.stands.running, rfl, h₂.stands.base⟩
  have below₃ : SameBelow sp m₂.memory m₃.memory := sameBelow_store hsize _
  have above := h.above
  rw [codeLength] at above
  have s2 := step_moveStack (k := -1) stands (c2.mono below₃ (by simp; omega))
    (h.inCell (by omega) (by have := peak_pos (binary op left right) m.inputs; omega))
  let m₄ : Machine := { m₃ with
    pointer := ((p + left.codeLength + right.codeLength + 4 : Nat) : Int) + 2
    steps := m₃.steps + 1
    base := ((sp + 2 : Nat) : Int) + -1 }
  refine ⟨m₄, ?_, ⟨h₂.stands.running, ?_, ?_⟩, ?_, below.trans below₃ (Nat.le_refl _), ?_, ?_,
    h₂.inputs⟩
  · have steps := (h₁.steps.trans h₂.steps).trans (.silent s1 (.one s2))
    rw [h₁.inputs] at steps
    rw [cost_binary hl]
    exact steps
  · show ((p + left.codeLength + right.codeLength + 4 : Nat) : Int) + 2 = _
    rw [codeLength]
    omega
  · show ((sp + 2 : Nat) : Int) + -1 = _
    omega
  · exact getElem?_store ..
  · show (m₂.memory.store sp _).size = _
    have := left.peak_pos m.inputs
    rw [size_store, h₂.size, h₁.size, h₁.inputs, peak_binary hl]
    omega
  · show (m₂.memory.store sp _).refusal? = _
    rw [refusal?_store hr, h₂.refusal, h₁.refusal]

theorem binary_fails (h : (binary op left right).Ready m p sp)
    (h₁ : left.Pushes m m₁ p sp a ys)
    (h₂ : right.Pushes m₁ m₂ (p + left.codeLength) (sp + 1) b zs)
    (hv : ¬ InCell (op.value a b)) : Fails m .cellOverflow := by
  obtain ⟨hcode, htop, -⟩ := h.top h₁ h₂
  have hf := fetch_binaryTop h₂.stands (holds_append.1 hcode).1 htop h₂.top
  have s := step_binary_overflow h₂.stands.not_halted hf hv
  exact ⟨_, m₂, _, _, _, _, h₁.steps.trans h₂.steps, s, rfl, rfl, rfl⟩

end Binary

/-! ### Choices -/

section Select

variable {condition first second branch : Expr} {m m₁ m₃ m₄ m₅ : Machine} {p sp q k : Nat}
  {v w : Int} {ys zs : List Int}

/-- The address of the code of the first branch. -/
def firstAt (condition : Expr) (p : Nat) : Nat := p + condition.codeLength + 5

/-- The address of the code of the second branch. -/
def secondAt (condition first : Expr) (p : Nat) : Nat :=
  firstAt condition p + first.codeLength + 3

theorem end_select (condition first second : Expr) (p : Nat) :
    p + (select condition first second).codeLength =
      secondAt condition first p + second.codeLength := by
  rw [codeLength, secondAt, firstAt]
  omega

theorem code_select (condition first second : Expr) (p : Nat) :
    (select condition first second).code p = condition.code p ++
      (([moveStack, -1] ++ [jumpIfZero, 0, (secondAt condition first p : Nat)]) ++
      (first.code (firstAt condition p : Nat) ++
      ([jumpAlways, 1, (p + (select condition first second).codeLength : Nat)] ++
        second.code (secondAt condition first p : Nat)))) := by
  rw [end_select]
  simp only [code, length_code, List.append_assoc, secondAt, firstAt]
  push_cast
  rfl

theorem Ready.atCondition (h : (select condition first second).Ready m p sp) :
    condition.Ready m p sp := by
  have hc := h.code
  rw [code_select] at hc
  have above := h.above
  have hp : condition.peak m.inputs ≤ (select condition first second).peak m.inputs :=
    peak_condition_le m.inputs
  have room := h.room
  rw [codeLength] at above
  exact ⟨h.stands, (holds_append.1 hc).1, by omega, h.size, h.permits.mono (by omega), by omega,
    h.inputs⟩

/-- The code after that of the condition, where it has been pushed. -/
theorem Ready.branches (h : (select condition first second).Ready m p sp)
    (h₁ : condition.Pushes m m₁ p sp v ys) :
    m₁.memory.Holds (p + condition.codeLength) [moveStack, -1] ∧
      m₁.memory.Holds (p + condition.codeLength + 2)
        [jumpIfZero, 0, (secondAt condition first p : Nat)] ∧
      m₁.memory.Holds (firstAt condition p) (first.code (firstAt condition p : Nat)) ∧
      m₁.memory.Holds (firstAt condition p + first.codeLength)
        [jumpAlways, 1, (p + (select condition first second).codeLength : Nat)] ∧
      m₁.memory.Holds (secondAt condition first p) (second.code (secondAt condition first p : Nat)) := by
  have hc := h.code
  have above := h.above
  have hlength : ((select condition first second).code (p : Nat)).length = _ := length_code _ _
  have hc' := hc.mono h₁.below (by omega)
  rw [code_select] at hc'
  obtain ⟨-, hc'⟩ := holds_append.1 hc'
  obtain ⟨c1, hc'⟩ := holds_append.1 hc'
  obtain ⟨c2, hc'⟩ := holds_append.1 hc'
  obtain ⟨c3, c4⟩ := holds_append.1 hc'
  obtain ⟨c0, c1⟩ := holds_append.1 c1
  rw [length_code] at c0 c1 c2 c3 c4
  rw [length_code] at c3 c4
  exact ⟨c0, c1, c2, c3, c4⟩

/-- The choice takes the condition off the stack and goes to a branch. -/
theorem select_enters (h : (select condition first second).Ready m p sp)
    (h₁ : condition.Pushes m m₁ p sp v ys) :
    ∃ m₃, Steps 2 m₁ [] m₃ ∧
      m₃.At (if v = 0 then secondAt condition first p else firstAt condition p) sp ∧
      m₃.memory = m₁.memory ∧ m₃.inputs = ys := by
  obtain ⟨c0, c1, -⟩ := h.branches h₁
  have hsp : InCell (((sp + 1 : Nat) : Int) + -1) := h.inCell (by omega) (by omega)
  have s1 := step_moveStack h₁.stands c0 hsp
  let m₂ : Machine := { m₁ with
    pointer := ((p + condition.codeLength : Nat) : Int) + 2
    steps := m₁.steps + 1
    base := ((sp + 1 : Nat) : Int) + -1 }
  have stands : m₂.At (p + condition.codeLength + 2) sp := by
    refine ⟨h₁.stands.running, rfl, ?_⟩
    show ((sp + 1 : Nat) : Int) + -1 = _
    omega
  have s2 := step_jumpIfZero stands c1 h₁.top
  refine ⟨_, .silent s1 (.one s2), ⟨h₁.stands.running, ?_, stands.base⟩, rfl, h₁.inputs⟩
  show (if v = 0 then _ else _) = _
  split
  · rfl
  · rw [firstAt]
    omega

/-- A branch is ready where its code stands. -/
theorem Ready.atBranch (h : (select condition first second).Ready m p sp)
    (h₁ : condition.Pushes m m₁ p sp v ys) (hc : condition.eval m.inputs = .ok (v, ys))
    (stands : m₃.At q sp) (hm : m₃.memory = m₁.memory) (hi : m₃.inputs = ys)
    (code : m₁.memory.Holds q (branch.code q)) (above : q + branch.codeLength ≤ sp)
    (hp : branch.peak ys ≤ (select condition first second).peak m.inputs) :
    branch.Ready m₃ q sp := by
  have room := h.room
  have hsize := lt_size_of_getElem? h₁.top
  refine ⟨stands, by rwa [hm], above, by rw [hm]; omega, ?_, by rw [hi]; omega, ?_⟩
  · rw [hi, hm]
    exact (h.permits.mono (by omega)).congr h₁.refusal
  · rw [hi]
    exact fun x hx => h.inputs x ((eval_suffix hc).subset hx)

/-- What a choice does, from what its condition and its branch do; `k`
instructions follow the branch. -/
theorem select_pushes (h₁ : condition.Pushes m m₁ p sp v ys) (s₁ : Steps 2 m₁ [] m₃)
    (hm : m₃.memory = m₁.memory) (hi : m₃.inputs = ys) (h₄ : branch.Pushes m₃ m₄ q sp w zs)
    (s₄ : Steps k m₄ [] m₅)
    (stands : m₅.At (p + (select condition first second).codeLength) (sp + 1))
    (hm₅ : m₅.memory = m₄.memory) (hi₅ : m₅.inputs = m₄.inputs)
    (hcost : (select condition first second).cost m.inputs =
      condition.cost m.inputs + (branch.cost ys + (2 + k)))
    (hpeak : (select condition first second).peak m.inputs =
      max (condition.peak m.inputs) (branch.peak ys)) :
    (select condition first second).Pushes m m₅ p sp w zs := by
  refine ⟨?_, stands, ?_, ?_, ?_, ?_, hi₅.trans h₄.inputs⟩
  · have steps := ((h₁.steps.trans s₁).trans h₄.steps).trans s₄
    rw [hi] at steps
    rw [hcost, show condition.cost m.inputs + (branch.cost ys + (2 + k)) =
      condition.cost m.inputs + 2 + branch.cost ys + k by omega]
    exact steps
  · rw [hm₅]
    exact h₄.top
  · rw [hm₅]
    refine h₁.below.trans ?_ (Nat.le_refl sp)
    rw [← hm]
    exact h₄.below
  · rw [hm₅, h₄.size, hm, h₁.size, hi, hpeak]
    omega
  · rw [hm₅, h₄.refusal, hm, h₁.refusal]

end Select

/-- The code of an expression pushes its value where the evaluation gives
one, and fails as the evaluation fails. -/
theorem code_pushes (e : Expr) {m : Machine} {p sp : Nat} (h : e.Ready m p sp) :
    (∀ v rest, e.eval m.inputs = .ok (v, rest) → ∃ m', e.Pushes m m' p sp v rest) ∧
      ∀ f, e.eval m.inputs = .error f → Fails m f.kind := by
  induction e generalizing m p sp with
  | const c =>
    refine ⟨fun v rest he => ?_, fun f he => by cases he⟩
    cases he
    exact const_pushes h
  | input =>
    rcases hq : m.inputs with _ | ⟨x, xs⟩
    · refine ⟨fun v rest he => (by cases he), fun f he => ?_⟩
      cases he
      exact input_fails h hq
    · refine ⟨fun v rest he => ?_, fun f he => by cases he⟩
      cases he
      exact input_pushes h hq
  | binary op left right hl hr =>
    rcases hel : left.eval m.inputs with g | ⟨a, ys⟩
    · rw [eval_binary_left hel]
      exact ⟨fun _ _ he => (by cases he), fun f he => by cases he; exact (hl h.atLeft).2 _ hel⟩
    · obtain ⟨m₁, h₁⟩ := (hl h.atLeft).1 a ys hel
      have ready := h.atRight hel h₁
      rcases her : right.eval ys with g | ⟨b, zs⟩
      · rw [eval_binary_right hel her]
        refine ⟨fun _ _ he => (by cases he), fun f he => ?_⟩
        cases he
        exact .after h₁.steps ((hr ready).2 _ (by rw [h₁.inputs, her]))
      · obtain ⟨m₂, h₂⟩ := (hr ready).1 b zs (by rw [h₁.inputs, her])
        rw [eval_binary hel her, op.apply_eq]
        by_cases hv : InCell (op.value a b)
        · rw [if_pos hv]
          refine ⟨fun _ _ he => ?_, fun f he => by cases he⟩
          cases he
          exact binary_pushes h hel h₁ h₂ hv
        · rw [if_neg hv]
          refine ⟨fun _ _ he => (by cases he), fun f he => ?_⟩
          cases he
          exact binary_fails h h₁ h₂ hv
  | select condition first second hc hf hs =>
    rcases hec : condition.eval m.inputs with g | ⟨v, ys⟩
    · rw [eval_select_condition hec]
      refine ⟨fun _ _ he => (by cases he), fun f he => ?_⟩
      cases he
      exact (hc h.atCondition).2 _ hec
    · obtain ⟨m₁, h₁⟩ := (hc h.atCondition).1 v ys hec
      obtain ⟨m₃, s₁, stands, hm, hi⟩ := select_enters h h₁
      obtain ⟨-, -, codeFirst, codeJump, codeSecond⟩ := h.branches h₁
      have above := h.above
      have hend := end_select condition first second p
      have hpeak := peak_select first second hec
      have hcost := cost_select first second hec
      rw [eval_select hec]
      by_cases hv : v = 0
      · simp only [hv, ne_eq, not_true_eq_false, if_true, if_false] at stands hpeak hcost ⊢
        have ready := h.atBranch h₁ hec stands hm hi codeSecond (by omega) (by omega)
        obtain ⟨good, bad⟩ := hs ready
        rw [hi] at good bad
        refine ⟨fun w zs he => ?_, fun f he => .after (h₁.steps.trans s₁) (bad f he)⟩
        obtain ⟨m₄, h₄⟩ := good w zs he
        have stands₄ := h₄.stands
        rw [← hend] at stands₄
        exact ⟨m₄, select_pushes h₁ s₁ hm hi h₄ (.refl m₄) stands₄ rfl rfl hcost hpeak⟩
      · simp only [hv, ne_eq, not_false_eq_true, if_true, if_false] at stands hpeak hcost ⊢
        have hfirst : firstAt condition p + first.codeLength + 3 = secondAt condition first p := rfl
        have ready := h.atBranch h₁ hec stands hm hi codeFirst (by omega) (by omega)
        obtain ⟨good, bad⟩ := hf ready
        rw [hi] at good bad
        refine ⟨fun w zs he => ?_, fun f he => .after (h₁.steps.trans s₁) (bad f he)⟩
        obtain ⟨m₄, h₄⟩ := good w zs he
        have jump : m₄.memory.Holds (firstAt condition p + first.codeLength)
            [jumpAlways, 1, (p + (select condition first second).codeLength : Nat)] := by
          refine (hm ▸ codeJump).mono h₄.below ?_
          simp only [List.length_cons, List.length_nil]
          omega
        have s₂ := step_jumpAlways h₄.stands jump
        exact ⟨_, select_pushes h₁ s₁ hm hi h₄ (.one s₂) ⟨h₄.stands.running, rfl, h₄.stands.base⟩
          rfl rfl hcost hpeak⟩

end Expr
end Intcode
