/-
# Test cases

A case is a program with its inputs, and the outputs it must give if they are
known.

Key definitions: `Case`, `Case.ofExpr`.
Key theorem: `Case.ofExpr_eq`.
-/
import Intcode.Expr.Code

namespace Intcode

/-- A program, its inputs, and the outputs it must give if they are known. -/
structure Case where
  program : List Int
  inputs : List Int := []
  expected : Option (List Int) := none
  deriving DecidableEq, Repr

/-- The case of an expression with inputs to read. -/
def Case.ofExpr (e : Expr) (inputs : List Int) : Except Fault Case := do
  return { program := e.program, inputs := inputs, expected := ← e.knownOutputs inputs }

/-- What the case of an expression is made of. -/
theorem Case.ofExpr_eq {e : Expr} {inputs : List Int} {c : Case} (h : ofExpr e inputs = .ok c) :
    c.program = e.program ∧ c.inputs = inputs ∧ e.knownOutputs inputs = .ok c.expected := by
  rw [ofExpr] at h
  rcases hk : e.knownOutputs inputs with f | expected <;> rw [hk] at h <;> cases h
  exact ⟨rfl, rfl, rfl⟩

end Intcode
