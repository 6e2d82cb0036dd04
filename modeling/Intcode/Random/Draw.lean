/-
# Draws

What is drawn from a source: integers of a range, members of a list, outcomes
that have a given chance, and members of a list that have weights.

Key definitions: `Draw`, `Draw.integer`, `Draw.choose`, `Draw.chance`,
`Draw.weighted`, `Draw.times`.
-/
import Intcode.Access
import Intcode.Number.Binary64
import Intcode.Random.Source

namespace Intcode

/-- A value made from random draws. -/
abbrev Draw (σ α : Type) := Access σ α

namespace Draw

variable {σ α : Type} [Source σ]

/-- The numerator of a random fraction over two to the power 53. -/
def fraction : Draw σ Nat := Access.of fun s =>
  let (n, s) := Source.fraction s
  (.ok n, s)

/-- A natural number below a bound. -/
def below (n : Nat) : Draw σ Nat := Access.of fun s =>
  let (n, s) := Source.below n s
  (.ok n, s)

/-- An integer from one bound to the other, both included. -/
def integer (low high : Int) : Draw σ Int :=
  if high < low then Access.fail .emptyRange
  else do return low + (← below (high - low + 1).toNat)

/-- One of the members of a list that is not empty. -/
def choose (first : α) (rest : List α) : Draw σ α := do
  return (first :: rest).getD (← below (rest.length + 1)) first

/-- Whether something comes about that has the given chance. -/
def chance (p : Binary64) : Draw σ Bool := do
  return p.exceeds (← fraction) (1 <<< 53)

/-- The first member at which the weights summed up exceed a threshold, or
else the last member. -/
def reach (exceeded : Nat → Bool) (sum : Nat) (last : α) : List (α × Nat) → α
  | [] => last
  | (a, w) :: rest => if exceeded (sum + w) then a else reach exceeded (sum + w) a rest

/-- One of the members of a list, each as likely as its weight says. -/
def weighted (first : α) (table : List (α × Nat)) : Draw σ α := do
  let total := table.foldl (fun sum entry => sum + entry.2) 0
  let roll := (Binary64.ofRatio (← fraction) (1 <<< 53)).mul (Binary64.ofRatio total 1)
  return reach (fun sum => roll.num < sum * roll.den) 0 first table

/-- As many draws as the number says, one after another. -/
def times (draw : Draw σ α) : Nat → Draw σ (List α)
  | 0 => pure []
  | n + 1 => do return (← draw) :: (← times draw n)

theorem integer_mem {low high : Int} {s t : σ} {n : Int}
    (h : (integer low high).on s = (.ok n, t)) : low ≤ n ∧ n ≤ high := by
  unfold integer at h
  split at h
  · simp at h
  · rename_i hlt
    have hpos : 0 < (high - low + 1).toNat := by omega
    have := Source.below_lt hpos s
    simp only [below, Access.bind_apply, Access.on_of, Access.pure_apply, Prod.mk.injEq,
      Except.ok.injEq] at h
    omega

end Draw
end Intcode
