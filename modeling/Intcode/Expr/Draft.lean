/-
# Drafts of expressions

A draft may hold a bare integer where an expression belongs. Whatever goes
through the whole draft refuses the first of them, from left to right;
evaluation refuses one only when it comes to it.

Key definitions: `Draft`, `Draft.toExpr`, `Draft.ofExpr`, `Draft.evaluate`.
Key theorems: `Draft.toExpr_ofExpr`, `Draft.eval_ofExpr`.
-/
import Intcode.Expr

namespace Intcode

/-- An expression that may have bare integers in it. -/
inductive Draft where
  | const (c : Constant)
  | input
  | binary (op : BinaryOp) (left right : Draft)
  | select (condition first second : Draft)
  /-- A bare integer. -/
  | bare (n : Int)
  deriving DecidableEq, Repr

namespace Draft

/-- The expression that a draft is, if it has no bare integer. -/
def toExpr : Draft → Except Fault Expr
  | const c => .ok (.const c)
  | input => .ok .input
  | binary op left right => do return .binary op (← left.toExpr) (← right.toExpr)
  | select condition first second => do
    return .select (← condition.toExpr) (← first.toExpr) (← second.toExpr)
  | bare n => .error (.notExpression n)

/-- An expression as a draft. -/
def ofExpr : Expr → Draft
  | .const c => const c
  | .input => input
  | .binary op left right => binary op (ofExpr left) (ofExpr right)
  | .select condition first second => select (ofExpr condition) (ofExpr first) (ofExpr second)

/-- The value of a draft and the inputs it leaves unread. -/
def eval : Draft → List Int → Except Fault (Int × List Int)
  | const c, xs => .ok (c.val, xs)
  | input, [] => .error .readPastInputs
  | input, x :: xs => .ok (x, xs)
  | binary op left right, xs => do
    let (a, xs) ← left.eval xs
    let (b, xs) ← right.eval xs
    return (← op.apply a b, xs)
  | select condition first second, xs => do
    let (v, xs) ← condition.eval xs
    if v ≠ 0 then first.eval xs else second.eval xs
  | bare n, _ => .error (.notExpression n)

/-- The value of a draft. -/
def evaluate (d : Draft) (inputs : List Int) : Except Fault Int := (d.eval inputs).map (·.1)

/-- The outputs of a draft's program, if they are known. -/
def knownOutputs (d : Draft) (inputs : List Int) : Except Fault (Option (List Int)) :=
  Expr.outputsOf (d.evaluate inputs)

theorem toExpr_ofExpr (e : Expr) : (ofExpr e).toExpr = .ok e := by
  induction e with
  | const c => rfl
  | input => rfl
  | binary op left right hl hr => simp only [ofExpr, toExpr, hl, hr]; rfl
  | select condition first second hc hf hs => simp only [ofExpr, toExpr, hc, hf, hs]; rfl

/-- On an expression a draft is evaluated as the expression is. -/
theorem eval_ofExpr (e : Expr) (inputs : List Int) : (ofExpr e).eval inputs = e.eval inputs := by
  induction e generalizing inputs with
  | const c => rfl
  | input => cases inputs <;> rfl
  | binary op left right hl hr => simp only [ofExpr, eval, Expr.eval, hl, hr]
  | select condition first second hc hf hs => simp only [ofExpr, eval, Expr.eval, hc, hf, hs]

end Draft
end Intcode
