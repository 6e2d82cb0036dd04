/-
# Random expressions

A random expression of bounded height. Where the height is used up it is a
constant or, one time in five, an input. Elsewhere one roll decides between a
constant (35 %), an input (10 %), a sum or a product (15 % each), a comparison
(8 % each) and a choice (9 %).

Key definitions: `Expr.Shape`, `Expr.shapes`, `Expr.ofShape`, `Expr.random`.
-/
import Intcode.Expr
import Intcode.Random.Draw

namespace Intcode.Expr

/-- What a random expression is at its root. -/
inductive Shape where
  | const
  | input
  | binary (op : BinaryOp)
  | select
  deriving DecidableEq, Repr

/-- The shapes but the choice, each with the bound that a roll for it is
below. -/
def shapes : List (Binary64 × Shape) := [
  (.ofRatio 35 100, .const), (.ofRatio 45 100, .input),
  (.ofRatio 60 100, .binary .add), (.ofRatio 75 100, .binary .multiply),
  (.ofRatio 83 100, .binary .lessThan), (.ofRatio 91 100, .binary .equals)]

/-- The shape that a roll decides for, from its numerator over two to the
power 53. -/
def Shape.ofRoll (roll : Nat) : Shape :=
  ((shapes.find? fun s => s.1.exceeds roll (1 <<< 53)).map (·.2)).getD .select

/-- The chance of an input where the height is used up. -/
def leafInput : Binary64 := .ofRatio 1 5

variable {σ : Type}

/-- A random constant; `value` draws its value, which must fit. -/
def randomConst (value : Draw σ Int) : Draw σ Expr := do
  return .const (← Access.lift (Constant.ofInt (← value)))

/-- A random expression of a shape, where `part` draws its parts. -/
def ofShape (value : Draw σ Int) (part : Draw σ Expr) : Shape → Draw σ Expr
  | .const => randomConst value
  | .input => return .input
  | .binary op => return .binary op (← part) (← part)
  | .select => return .select (← part) (← part) (← part)

variable [Source σ]

/-- A random expression of at most the given height. -/
def random (value : Draw σ Int) : Nat → Draw σ Expr
  | 0 => do if ← Draw.chance leafInput then return .input else randomConst value
  | h + 1 => do ofShape value (random value h) (Shape.ofRoll (← Draw.fraction))

/-- Any constant. -/
def anyConstant : Draw σ Int := Draw.integer constantMin constantMax

end Intcode.Expr
