/-
# What the strategies draw

Every strategy draws a case from every source. A case of random cells or of
structured instructions has only values that fit, and nothing is expected of it
(`Case.Free`). A case of an expression is compiled from one of bounded height,
with as many inputs as that can read (`Case.Compiled`).

Key definitions: `Case.Free`, `Case.Compiled`.
Key theorems: `Expr.gives_random`, `Case.gives_drawExpression`, `Strategy.gives_generate`.
-/
import Intcode.Fuzz.Generate
import Intcode.Proofs.Cost
import Intcode.Proofs.Draw
import Intcode.Proofs.Word

namespace Intcode

open Draw

/-! ### Expressions -/

namespace Expr

theorem gives_randomConst {σ : Type} {value : Draw σ Int}
    (hv : Gives value fun n => constantMin ≤ n ∧ n ≤ constantMax) :
    Gives (randomConst value) fun e => e.height = 0 := by
  unfold randomConst
  refine hv.bind fun n hn => ?_
  have hc : Constant.ofInt n = .ok ⟨n, hn⟩ := dif_pos hn
  exact (gives_lift (P := fun _ => True) hc trivial).bind fun c _ => gives_pure rfl

theorem gives_ofShape {σ : Type} {value : Draw σ Int} {part : Draw σ Expr}
    (hv : Gives value fun n => constantMin ≤ n ∧ n ≤ constantMax) {h : Nat}
    (hp : Gives part fun e => e.height ≤ h) (shape : Shape) :
    Gives (ofShape value part shape) fun e => e.height ≤ h + 1 := by
  cases shape with
  | const => exact (gives_randomConst hv).mono fun e he => by omega
  | input => exact gives_pure (Nat.zero_le _)
  | binary op =>
    refine hp.bind fun left hl => hp.bind fun right hr => gives_pure ?_
    rw [height]
    omega
  | select =>
    refine hp.bind fun condition hc => hp.bind fun first hf => hp.bind fun second hs =>
      gives_pure ?_
    rw [height]
    omega

/-- A random expression is at most as high as it was asked to be. -/
theorem gives_random {σ : Type} [Source σ] {value : Draw σ Int}
    (hv : Gives value fun n => constantMin ≤ n ∧ n ≤ constantMax) (h : Nat) :
    Gives (random value h) fun e => e.height ≤ h := by
  induction h with
  | zero =>
    rw [random]
    refine (gives_chance leafInput).bind fun b _ => .ite (fun _ => gives_pure (Nat.le_refl 0)) ?_
    exact fun _ => (gives_randomConst hv).mono fun e he => Nat.le_of_eq he
  | succ h ih =>
    rw [random]
    exact gives_fraction.bind fun roll _ => gives_ofShape hv ih _

end Expr

/-! ### Cells that fit -/

section

variable {σ : Type} [Source σ]

theorem gives_integer_inCell {low high : Int} (h : low ≤ high) (hl : cellMin ≤ low)
    (hh : high ≤ cellMax) : Gives (integer low high : Draw σ Int) InCell :=
  (gives_integer h).mono fun n hn => ⟨by omega, by omega⟩

namespace Case

/-- A case that expects nothing, all of whose values fit. -/
structure Free (c : Case) : Prop where
  program : ∀ x ∈ c.program, InCell x
  inputs : ∀ x ∈ c.inputs, InCell x
  expected : c.expected = none

/-- A case that is compiled from an expression of bounded height. -/
structure Compiled (c : Case) (e : Expr) (height : Nat) : Prop where
  height : e.height ≤ height
  inputs : ∀ x ∈ c.inputs, InCell x
  made : ofExpr e c.inputs = .ok c

/-! ### Random cells -/

theorem gives_randomCell {maxLength : Int} (h : 1 ≤ maxLength) (hm : maxLength + 5 ≤ cellMax) :
    Gives (randomCell maxLength : Draw σ Int) InCell := by
  unfold randomCell
  refine (gives_chance evenChance).bind fun b _ => .ite (fun _ => ?_) fun _ => ?_
  · exact gives_choose (by decide)
  · exact gives_integer_inCell (by omega) (by decide) hm

theorem gives_drawRandom {maxLength : Int} (h : 1 ≤ maxLength) (hm : maxLength + 5 ≤ cellMax) :
    Gives (drawRandom maxLength : Draw σ Case) Free := by
  unfold drawRandom
  refine (gives_integer h).bind fun length _ => ?_
  refine (gives_times (gives_randomCell h hm) _).bind fun program hp => ?_
  refine (gives_integer (by decide)).bind fun count _ => ?_
  refine (gives_times (gives_integer_inCell (by decide) (by decide) (by decide)) _).bind
    fun inputs hi => ?_
  exact gives_pure ⟨hp.2, hi.2, rfl⟩

/-! ### Structured programs -/

theorem gives_drawAll {σ α β : Type} {draw : α → Draw σ β} {P : β → Prop}
    (h : ∀ a, Gives (draw a) P) (as : List α) :
    Gives (drawAll draw as) fun bs => bs.length = as.length ∧ ∀ b ∈ bs, P b := by
  induction as with
  | nil => exact gives_pure ⟨rfl, fun b hb => (by cases hb)⟩
  | cons a as ih =>
    rw [drawAll]
    refine (h a).bind fun b hb => ih.bind fun bs hbs => gives_pure ⟨?_, ?_⟩
    · rw [List.length_cons, List.length_cons, hbs.1]
    · exact List.forall_mem_cons.2 ⟨hb, hbs.2⟩

theorem gives_drawMode (kind : OperandKind) : Gives (drawMode kind : Draw σ Mode) fun _ => True := by
  cases kind <;> exact gives_choose fun _ _ => trivial

theorem gives_drawOperand {span : Int} (h : 0 ≤ span) (hm : span ≤ cellMax) (mode : Mode) :
    Gives (drawOperand span mode : Draw σ Int) InCell := by
  unfold drawOperand
  refine .ite (fun _ => gives_integer_inCell (by omega) (by decide) hm) fun _ => ?_
  refine (gives_chance negativeAddress).bind fun b _ => .ite (fun _ => ?_) fun _ => ?_
  · exact gives_integer_inCell (by decide) (by decide) (by decide)
  · exact gives_integer_inCell h (by decide) hm

/-- Cells and inputs that fit. -/
def Fits (p : List Int × List Int) : Prop := (∀ x ∈ p.1, InCell x) ∧ ∀ x ∈ p.2, InCell x

theorem gives_drawInstruction {span : Int} (h : 0 ≤ span) (hm : span ≤ cellMax) (op : Opcode) :
    Gives (drawInstruction span op : Draw σ (List Int × List Int)) Fits := by
  unfold drawInstruction
  refine (gives_drawAll gives_drawMode _).bind fun modes hmodes => ?_
  refine (gives_drawAll (gives_drawOperand h hm) _).bind fun operands hoperands => ?_
  have fits (inputs : List Int) (hi : ∀ x ∈ inputs, InCell x) :
      Fits (Word.ofModes op modes :: operands, inputs) :=
    ⟨List.forall_mem_cons.2 ⟨Word.inCell_ofModes op hmodes.1, hoperands.2⟩, hi⟩
  dsimp only
  refine .ite (fun _ => ?_) fun _ => ?_
  · refine (gives_times (gives_integer_inCell (by decide) (by decide) (by decide)) 1).bind
      fun inputs hi => ?_
    exact gives_pure (fits inputs hi.2)
  · exact gives_pure (fits [] fun x hx => by cases hx)

theorem gives_drawMalformed : Gives (drawMalformed : Draw σ Int) InCell := by
  unfold drawMalformed
  refine (gives_integer_inCell (by decide) (by decide) (by decide)).bind fun unknown hu => ?_
  refine gives_choose (List.forall_mem_cons.2 ⟨by decide, List.forall_mem_cons.2 ⟨hu, ?_⟩⟩)
  decide

theorem gives_drawInstructions {span : Int} (h : 0 ≤ span) (hm : span ≤ cellMax) (n : Nat) :
    Gives (drawInstructions span n : Draw σ (List Int × List Int)) Fits := by
  induction n with
  | zero => exact gives_pure ⟨fun x hx => (by cases hx), fun x hx => (by cases hx)⟩
  | succ n ih =>
    rw [drawInstructions]
    have hfamily : Gives (Family.draw : Draw σ Family) fun _ => True :=
      gives_weighted fun _ _ => trivial
    refine hfamily.bind fun family _ => ?_
    cases family.operations with
    | none =>
      refine gives_drawMalformed.bind fun word hw => gives_pure ⟨?_, fun x hx => (by cases hx)⟩
      exact List.forall_mem_cons.2 ⟨hw, fun x hx => (by cases hx)⟩
    | some operations =>
      obtain ⟨op, ops⟩ := operations
      refine (gives_choose (P := fun _ => True) fun _ _ => trivial).bind fun op _ => ?_
      refine (gives_drawInstruction h hm op).bind fun p hp => ih.bind fun q hq => gives_pure ⟨?_, ?_⟩
      · exact List.forall_mem_append.2 ⟨hp.1, hq.1⟩
      · exact List.forall_mem_append.2 ⟨hp.2, hq.2⟩

theorem gives_drawStructured {maxInstructions : Int} (h : 1 ≤ maxInstructions)
    (hm : maxInstructions * 4 + 8 ≤ cellMax) :
    Gives (drawStructured maxInstructions : Draw σ Case) Free := by
  unfold drawStructured
  refine (gives_integer h).bind fun count _ => ?_
  refine (gives_drawInstructions (by omega) hm _).bind fun p hp => gives_pure ⟨?_, hp.2, rfl⟩
  exact List.forall_mem_append.2 ⟨hp.1, by decide⟩

/-! ### Expression programs -/

theorem gives_drawConstant {maxValue : Option Int}
    (h : ∀ limit, maxValue = some limit → 0 ≤ limit ∧ limit ≤ constantMax) :
    Gives (drawConstant maxValue : Draw σ Int) fun n => constantMin ≤ n ∧ n ≤ constantMax := by
  cases maxValue with
  | none => exact gives_choose (by decide)
  | some limit =>
    obtain ⟨h0, hl⟩ := h limit rfl
    unfold constantMax at hl
    refine (gives_integer (by omega)).mono fun n hn => ?_
    unfold constantMin constantMax
    omega

/-- With as many inputs as an expression can read, its case can be made. -/
theorem ofExpr_ok {e : Expr} {inputs : List Int} (h : e.maxInputs ≤ inputs.length) :
    ∃ c, ofExpr e inputs = .ok c ∧ c.inputs = inputs := by
  have hknown : ∃ expected, e.knownOutputs inputs = .ok expected := by
    rw [Expr.knownOutputs]
    rcases e.eval_enough inputs h with ⟨v, rest, he, -⟩ | ⟨f, he, hf⟩
    · rw [Expr.evaluate_ok.2 ⟨rest, he⟩]
      exact ⟨some [v], rfl⟩
    · rw [Expr.evaluate_error.2 he, Expr.outputsOf, if_pos hf]
      exact ⟨none, rfl⟩
  obtain ⟨expected, hexpected⟩ := hknown
  refine ⟨{ program := e.program, inputs := inputs, expected := expected }, ?_, rfl⟩
  rw [ofExpr, hexpected]
  rfl

theorem gives_drawExpression {maxValue : Option Int} (maxDepth : Int)
    (h : ∀ limit, maxValue = some limit → 0 ≤ limit ∧ limit ≤ constantMax) :
    Gives (drawExpression maxDepth maxValue : Draw σ Case) fun c =>
      ∃ e, c.Compiled e maxDepth.toNat := by
  unfold drawExpression
  refine (Expr.gives_random (gives_drawConstant h) _).bind fun e he => ?_
  refine (gives_times (gives_integer_inCell (by decide) (by decide) (by decide)) _).bind
    fun inputs hi => ?_
  obtain ⟨c, hc, rfl⟩ := ofExpr_ok (Nat.le_of_eq hi.1.symm)
  exact gives_lift hc ⟨e, he, hi.2, hc⟩

/-! ### All strategies -/

/-- What every strategy draws: a case of which nothing is expected, or the case
of an expression of height three at most. -/
def Proper (c : Case) : Prop := c.Free ∨ ∃ e, c.Compiled e 3

theorem gives_drawMixed {maxInstructions : Int} (h : 1 ≤ maxInstructions)
    (hm : maxInstructions * 4 + 8 ≤ cellMax) :
    Gives (drawMixed maxInstructions : Draw σ Case) Proper := by
  unfold drawMixed
  refine gives_fraction.bind fun roll _ => ?_
  refine .ite (fun _ => ?_) fun _ => .ite (fun _ => ?_) fun _ => .ite (fun _ => ?_) fun _ => ?_
  · exact (gives_drawRandom (by decide) (by decide)).mono fun c => .inl
  · exact (gives_drawStructured h hm).mono fun c => .inl
  · exact (gives_drawExpression 3 fun limit hl => by cases hl).mono fun c => .inr
  · refine (gives_drawExpression 3 fun limit hl => ?_).mono fun c => .inr
    cases hl
    decide

end Case

/-- Every strategy draws a proper case; random cells and structured programs
are drawn free. -/
theorem Strategy.gives_generate (strategy : Strategy) :
    Gives (strategy.generate {} : Draw σ Case) fun c =>
      c.Proper ∧ (strategy = .random ∨ strategy = .structured → c.Free) := by
  cases strategy with
  | random => exact (Case.gives_drawRandom (by decide) (by decide)).mono fun c hc => ⟨.inl hc, fun _ => hc⟩
  | structured =>
    exact (Case.gives_drawStructured (by decide) (by decide)).mono fun c hc => ⟨.inl hc, fun _ => hc⟩
  | expression =>
    refine (Case.gives_drawExpression 3 fun limit hl => by cases hl).mono fun c hc => ⟨.inr hc, ?_⟩
    rintro (h | h) <;> cases h
  | mixed =>
    refine (Case.gives_drawMixed (by decide) (by decide)).mono fun c hc => ⟨hc, ?_⟩
    rintro (h | h) <;> cases h

end
end Intcode
