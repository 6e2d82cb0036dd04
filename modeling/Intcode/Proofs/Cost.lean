/-
# What an evaluation costs

The number of instructions that the code of an expression completes, and the
number of stack cells that it needs, along the path that the evaluation takes:
of a choice only the branch taken counts. Both are bounded by the height.

Key definitions: `Expr.nodes`, `Expr.cost`, `Expr.peak`.
Key theorems: `Expr.cost_le`, `Expr.peak_le_height`, `Expr.two_mul_peak_le`,
`Expr.nodes_le`, `Expr.eval_fault`, `Expr.eval_suffix`, `Expr.eval_enough`.
-/
import Mathlib.Algebra.Group.Nat.Defs
import Intcode.Expr.Code

namespace Intcode

/-- An operation fails because its value is too large. -/
theorem BinaryOp.apply_fault (op : BinaryOp) {a b : Int} {f : Fault}
    (h : op.apply a b = .error f) : f.kind = .cellOverflow := by
  cases op <;> simp only [apply, checked] at h
  · split at h <;> cases h; rfl
  · split at h <;> cases h; rfl
  · cases h
  · cases h

namespace Expr

/-- The number of nodes. -/
def nodes : Expr → Nat
  | const _ | input => 1
  | binary _ left right => left.nodes + right.nodes + 1
  | select condition first second => condition.nodes + first.nodes + second.nodes + 1

/-- The number of instructions that evaluation on these inputs takes. -/
def cost : Expr → List Int → Nat
  | const _, _ => 2
  | input, _ => 2
  | binary _ left right, xs => match left.eval xs with
    | .error _ => left.cost xs
    | .ok (_, ys) => left.cost xs + right.cost ys + 2
  | select condition first second, xs => match condition.eval xs with
    | .error _ => condition.cost xs
    | .ok (v, ys) =>
      condition.cost xs + if v ≠ 0 then first.cost ys + 3 else second.cost ys + 2

/-- The number of stack cells that evaluation on these inputs needs. -/
def peak : Expr → List Int → Nat
  | const _, _ => 1
  | input, _ => 1
  | binary _ left right, xs => match left.eval xs with
    | .error _ => left.peak xs
    | .ok (_, ys) => max (left.peak xs) (1 + right.peak ys)
  | select condition first second, xs => match condition.eval xs with
    | .error _ => condition.peak xs
    | .ok (v, ys) => max (condition.peak xs) (if v ≠ 0 then first.peak ys else second.peak ys)

/-! ### Evaluation, part by part -/

section

variable {op : BinaryOp} {left right condition first second : Expr} {xs ys zs : List Int}
  {a b v : Int} {f : Fault}

theorem eval_binary_left (h : left.eval xs = .error f) :
    (binary op left right).eval xs = .error f := by
  simp only [eval, h]
  rfl

theorem eval_binary_right (hl : left.eval xs = .ok (a, ys)) (hr : right.eval ys = .error f) :
    (binary op left right).eval xs = .error f := by
  simp only [eval, hl, bind, Except.bind, hr]

theorem eval_binary (hl : left.eval xs = .ok (a, ys)) (hr : right.eval ys = .ok (b, zs)) :
    (binary op left right).eval xs = (op.apply a b).map (·, zs) := by
  simp only [eval, hl, hr, bind, Except.bind, pure, Except.pure, Except.map]

theorem eval_select_condition (h : condition.eval xs = .error f) :
    (select condition first second).eval xs = .error f := by
  simp only [eval, h]
  rfl

theorem eval_select (h : condition.eval xs = .ok (v, ys)) :
    (select condition first second).eval xs =
      if v ≠ 0 then first.eval ys else second.eval ys := by
  simp only [eval, h, bind, Except.bind]

theorem peak_left_le (xs : List Int) : left.peak xs ≤ (binary op left right).peak xs := by
  rw [peak]
  split
  · exact Nat.le_refl _
  · exact Nat.le_max_left ..

theorem peak_binary (h : left.eval xs = .ok (a, ys)) :
    (binary op left right).peak xs = max (left.peak xs) (1 + right.peak ys) := by
  rw [peak, h]

theorem cost_binary (h : left.eval xs = .ok (a, ys)) :
    (binary op left right).cost xs = left.cost xs + right.cost ys + 2 := by
  rw [cost, h]

theorem peak_condition_le (xs : List Int) :
    condition.peak xs ≤ (select condition first second).peak xs := by
  rw [peak]
  split
  · exact Nat.le_refl _
  · exact Nat.le_max_left ..

theorem peak_select (first second : Expr) (h : condition.eval xs = .ok (v, ys)) :
    (select condition first second).peak xs =
      max (condition.peak xs) (if v ≠ 0 then first.peak ys else second.peak ys) := by
  rw [peak, h]

theorem cost_select (first second : Expr) (h : condition.eval xs = .ok (v, ys)) :
    (select condition first second).cost xs =
      condition.cost xs + if v ≠ 0 then first.cost ys + 3 else second.cost ys + 2 := by
  rw [cost, h]

end

theorem evaluate_ok {e : Expr} {xs : List Int} {v : Int} :
    e.evaluate xs = .ok v ↔ ∃ rest, e.eval xs = .ok (v, rest) := by
  rw [evaluate]
  rcases e.eval xs with f | ⟨w, rest⟩ <;> simp [Except.map]

theorem evaluate_error {e : Expr} {xs : List Int} {f : Fault} :
    e.evaluate xs = .error f ↔ e.eval xs = .error f := by
  rw [evaluate]
  rcases e.eval xs with f | ⟨w, rest⟩ <;> simp [Except.map]

/-- An evaluation fails for want of inputs or because a value is too
large. -/
theorem eval_fault {e : Expr} {xs : List Int} {f : Fault} (h : e.eval xs = .error f) :
    f.kind = .inputExhausted ∨ f.kind = .cellOverflow := by
  induction e generalizing xs with
  | const c => cases h
  | input => cases xs <;> cases h; exact .inl rfl
  | binary op left right hl hr =>
    rcases hel : left.eval xs with g | ⟨a, ys⟩
    · rw [eval_binary_left hel] at h
      cases h
      exact hl hel
    · rcases her : right.eval ys with g | ⟨b, zs⟩
      · rw [eval_binary_right hel her] at h
        cases h
        exact hr her
      · rw [eval_binary hel her] at h
        rcases hv : op.apply a b with g | v <;> rw [hv] at h <;> cases h
        exact .inr (op.apply_fault hv)
  | select condition first second hc hf hs =>
    rcases hec : condition.eval xs with g | ⟨v, ys⟩
    · rw [eval_select_condition hec] at h
      cases h
      exact hc hec
    · rw [eval_select hec] at h
      split at h
      · exact hf h
      · exact hs h

/-- An evaluation reads inputs from the front. -/
theorem eval_suffix {e : Expr} {xs rest : List Int} {v : Int} (h : e.eval xs = .ok (v, rest)) :
    rest <:+ xs := by
  induction e generalizing xs rest v with
  | const c => cases h; exact List.suffix_refl _
  | input =>
    cases xs with
    | nil => cases h
    | cons x xs => cases h; exact List.suffix_cons _ _
  | binary op left right hl hr =>
    rcases hel : left.eval xs with g | ⟨a, ys⟩
    · rw [eval_binary_left hel] at h; cases h
    · rcases her : right.eval ys with g | ⟨b, zs⟩
      · rw [eval_binary_right hel her] at h; cases h
      · rw [eval_binary hel her] at h
        rcases hv : op.apply a b with g | w <;> rw [hv] at h <;> cases h
        exact (hr her).trans (hl hel)
  | select condition first second hc hf hs =>
    rcases hec : condition.eval xs with g | ⟨v, ys⟩
    · rw [eval_select_condition hec] at h; cases h
    · rw [eval_select hec] at h
      split at h
      · exact (hf h).trans (hc hec)
      · exact (hs h).trans (hc hec)

/-- An evaluation that has as many inputs as the expression can read fails only
because a value is too large. -/
theorem eval_enough {e : Expr} (xs : List Int) (h : e.maxInputs ≤ xs.length) :
    (∃ v rest, e.eval xs = .ok (v, rest) ∧ xs.length ≤ rest.length + e.maxInputs) ∨
      ∃ f, e.eval xs = .error f ∧ f.kind = .cellOverflow := by
  induction e generalizing xs with
  | const c => exact .inl ⟨c.val, xs, rfl, Nat.le_refl _⟩
  | input =>
    cases xs with
    | nil => cases h
    | cons x xs => exact .inl ⟨x, xs, rfl, Nat.le_refl _⟩
  | binary op left right hl hr =>
    rw [maxInputs] at h ⊢
    rcases hl xs (by omega) with ⟨a, ys, hel, hy⟩ | ⟨f, hel, hf⟩
    · rcases hr ys (by omega) with ⟨b, zs, her, hz⟩ | ⟨f, her, hf⟩
      · rw [eval_binary hel her]
        rcases hv : op.apply a b with f | v
        · exact .inr ⟨f, rfl, op.apply_fault hv⟩
        · exact .inl ⟨v, zs, rfl, by omega⟩
      · exact .inr ⟨f, eval_binary_right hel her, hf⟩
    · exact .inr ⟨f, eval_binary_left hel, hf⟩
  | select condition first second hc hf hs =>
    rw [maxInputs] at h ⊢
    rcases hc xs (by omega) with ⟨v, ys, hec, hy⟩ | ⟨g, hec, hg⟩
    · rw [eval_select hec]
      split
      · rcases hf ys (by omega) with ⟨w, zs, he, hz⟩ | ⟨g, he, hg⟩
        · exact .inl ⟨w, zs, he, by omega⟩
        · exact .inr ⟨g, he, hg⟩
      · rcases hs ys (by omega) with ⟨w, zs, he, hz⟩ | ⟨g, he, hg⟩
        · exact .inl ⟨w, zs, he, by omega⟩
        · exact .inr ⟨g, he, hg⟩
    · exact .inr ⟨g, eval_select_condition hec, hg⟩

/-! ### Bounds -/

theorem peak_pos (e : Expr) (xs : List Int) : 0 < e.peak xs := by
  induction e generalizing xs with
  | const c => exact Nat.one_pos
  | input => exact Nat.one_pos
  | binary op left right hl hr =>
    rw [peak]
    split
    · exact hl xs
    · have := hl xs
      omega
  | select condition first second hc hf hs =>
    rw [peak]
    split
    · exact hc xs
    · have := hc xs
      omega

theorem peak_le_height (e : Expr) (xs : List Int) : e.peak xs ≤ e.height + 1 := by
  induction e generalizing xs with
  | const c => exact Nat.le_refl _
  | input => exact Nat.le_refl _
  | binary op left right hl hr =>
    have := hl xs
    rw [peak, height]
    split
    · omega
    · rename_i ys _
      have := hr ys
      omega
  | select condition first second hc hf hs =>
    have := hc xs
    rw [peak, height]
    split
    · omega
    · rename_i ys _
      have := hf ys
      have := hs ys
      split <;> omega

theorem nodes_pos (e : Expr) : 0 < e.nodes := by
  cases e <;> exact Nat.succ_pos _

/-- The stack never holds more than every other node. -/
theorem two_mul_peak_le (e : Expr) (xs : List Int) : 2 * e.peak xs ≤ e.nodes + 1 := by
  induction e generalizing xs with
  | const c => exact Nat.le_refl _
  | input => exact Nat.le_refl _
  | binary op left right hl hr =>
    have := hl xs
    have := left.nodes_pos
    rw [peak, nodes]
    split
    · omega
    · rename_i ys _
      have := hr ys
      omega
  | select condition first second hc hf hs =>
    have := hc xs
    rw [peak, nodes]
    split
    · omega
    · rename_i ys _
      have := hf ys
      have := hs ys
      split <;> omega

theorem codeLength_le (e : Expr) : e.codeLength ≤ 8 * e.nodes := by
  induction e with
  | const c => exact Nat.le_of_ble_eq_true rfl
  | input => exact Nat.le_of_ble_eq_true rfl
  | binary op left right hl hr =>
    rw [codeLength, nodes]
    omega
  | select condition first second hc hf hs =>
    rw [codeLength, nodes]
    omega

/-- An expression of bounded height has a bounded number of nodes. -/
theorem nodes_le {e : Expr} {d : Nat} (h : e.height ≤ d) : 2 * e.nodes + 1 ≤ 3 ^ (d + 1) := by
  induction e generalizing d with
  | const c | input =>
    have := Nat.one_le_pow d 3 (by decide)
    simp only [nodes, Nat.pow_succ]
    omega
  | binary op left right hl hr =>
    rw [height] at h
    obtain ⟨d, rfl⟩ : ∃ k, d = k + 1 := ⟨d - 1, by omega⟩
    have := hl (d := d) (by omega)
    have := hr (d := d) (by omega)
    rw [nodes, Nat.pow_succ]
    omega
  | select condition first second hc hf hs =>
    rw [height] at h
    obtain ⟨d, rfl⟩ : ∃ k, d = k + 1 := ⟨d - 1, by omega⟩
    have := hc (d := d) (by omega)
    have := hf (d := d) (by omega)
    have := hs (d := d) (by omega)
    rw [nodes, Nat.pow_succ]
    omega

/-- An expression of bounded height takes a bounded number of
instructions. -/
theorem cost_le (e : Expr) (xs : List Int) {d : Nat} (h : e.height ≤ d) :
    e.cost xs + 3 ≤ 5 * 2 ^ d := by
  induction e generalizing xs d with
  | const c => have := Nat.one_le_two_pow (n := d); simp only [cost]; omega
  | input => have := Nat.one_le_two_pow (n := d); simp only [cost]; omega
  | binary op left right hl hr =>
    rw [height] at h
    obtain ⟨d, rfl⟩ : ∃ k, d = k + 1 := ⟨d - 1, by omega⟩
    have := hl xs (d := d) (by omega)
    rw [cost, Nat.pow_succ]
    split
    · omega
    · rename_i ys _
      have := hr ys (d := d) (by omega)
      omega
  | select condition first second hc hf hs =>
    rw [height] at h
    obtain ⟨d, rfl⟩ : ∃ k, d = k + 1 := ⟨d - 1, by omega⟩
    have := hc xs (d := d) (by omega)
    rw [cost, Nat.pow_succ]
    split
    · omega
    · rename_i ys _
      have := hf ys (d := d) (by omega)
      have := hs ys (d := d) (by omega)
      split <;> omega

end Expr
end Intcode
