/-
# The suite loses no case

The suite begins with the cases of all expressions of bounded height over the boundary constants
(`Case.ofExpressions_tests`). An expression comes again with each greater height, so many of
these cases are left out. None is lost, nor what is expected of it: the key of a case has the
program, and this tells the expression and so the case (`Case.counted_told`). The cases that
expect nothing come behind them, where they cannot take their place.

Key definition: `Case.boundary`.
Key theorems: `Case.ofExpressions_tests`, `Case.counted_told`, `Case.suite_complete`.
-/
import Intcode.Proofs.Distinct
import Intcode.Proofs.Enumeration
import Intcode.Proofs.Generate

namespace Intcode.Case

variable {e e' : Expr} {c c' : Case}

/-! ### The cases of expressions -/

theorem counted_ok (e : Expr) : ∃ c, counted e = .ok c := by
  have henough : e.maxInputs ≤ (counting e.maxInputs).length := by simp [counting]
  obtain ⟨c, hc, -⟩ := ofExpr_ok henough
  exact ⟨c, hc⟩

/-- The key of an expression's case tells the case. -/
theorem counted_told (h : counted e = .ok c) (h' : counted e' = .ok c') (hkey : c.key = c'.key) :
    c = c' := by
  rw [ofExpr_key h, ofExpr_key h', Prod.mk.injEq, Expr.program_inj] at hkey
  obtain ⟨rfl, -⟩ := hkey
  exact Except.ok.inj (h.symm.trans h')

/-- The cases of the expressions of at most a height over constants, of each of them and of no
others. -/
theorem ofExpressions_tests (known : List Constant) (maxHeight : Int) : ∃ tests : List Case,
    (ofExpressions (known.map Constant.toDatum) maxHeight).toList = tests.map .ok ∧
      ∀ c, c ∈ tests ↔
        ∃ e, counted e = .ok c ∧ (e.height : Int) ≤ maxHeight ∧ ∀ k ∈ e.constants, k ∈ known := by
  choose test htest using counted_ok
  have hcounted : counted = fun e => .ok (test e) := funext htest
  let level (height : Nat) : List Expr := (Expr.enumerate known height).toList
  refine ⟨(List.range (maxHeight + 1).toNat).flatMap fun height => (level height).map test, ?_,
    fun c => ?_⟩
  · simp [ofExpressions, Expr.toList_enumerateOffered, hcounted, List.map_flatMap, level,
      Function.comp_def, bind, Except.bind]
  · simp only [List.mem_flatMap, List.mem_range, List.mem_map, level, Expr.mem_enumerate_iff,
      hcounted, Except.ok.injEq]
    constructor
    · rintro ⟨height, hheight, e, ⟨hle, hknown⟩, rfl⟩
      exact ⟨e, rfl, by omega, hknown⟩
    · rintro ⟨e, rfl, hle, hknown⟩
      exact ⟨maxHeight.toNat, by omega, e, ⟨by omega, hknown⟩, rfl⟩

/-! ### The suite -/

/-- The constants at the bounds of what matters. -/
def boundary : List Constant :=
  [⟨0, by decide⟩, ⟨1, by decide⟩, ⟨-1, by decide⟩, ⟨8, by decide⟩, ⟨99, by decide⟩,
    ⟨constantMax, by decide⟩, ⟨constantMin, by decide⟩]

theorem boundaryConstants_eq : boundaryConstants = boundary.map Constant.toDatum := rfl

/-- The suite has the first case of each key, in the order of its sources, and no second one.
So it has the key of every case of an expression, of a choice of modes, of a malformed word and
of a negative address. And for each expression of at most the height over the boundary
constants it has a case with its program, with the inputs from one up to as many as it can
read, and with the outputs that it is known to give. -/
theorem suite_complete (maxHeight : Int) : ∃ tests kept : List Case,
    (ofExpressions boundaryConstants maxHeight).toList = tests.map .ok ∧
      (suite maxHeight).toList = kept.map .ok ∧
      let sourced := tests ++ (allModes ++ malformed ++ negative)
      (kept.map key).Nodup ∧ kept.Sublist sourced ∧
      (∀ c, c ∈ kept ↔ sourced.find? (·.key = c.key) = some c) ∧
      (∀ c ∈ sourced, ∃ c' ∈ kept, c'.key = c.key) ∧
      ∀ e : Expr, (e.height : Int) ≤ maxHeight →
        (∀ k ∈ e.constants, k.toDatum ∈ boundaryConstants) →
        ∃ c ∈ kept, c.program = e.program ∧ c.inputs = counting e.maxInputs ∧
          e.knownOutputs c.inputs = .ok c.expected := by
  obtain ⟨tests, htests, mem_tests⟩ := ofExpressions_tests boundary maxHeight
  rw [← boundaryConstants_eq] at htests
  have hsources : (sources maxHeight).toList =
      (tests ++ (allModes ++ malformed ++ negative)).map .ok := by
    simp [sources, htests]
  obtain ⟨kept, hkept, hnodup, hsublist, hfirst, hcovers⟩ := distinct_firsts hsources
  refine ⟨tests, kept, htests, hkept, hnodup, hsublist, hfirst, hcovers, fun e hheight hknown => ?_⟩
  obtain ⟨c, hc⟩ := counted_ok e
  have hboundary (k : Constant) (hk : k ∈ e.constants) : k ∈ boundary :=
    (List.mem_map_of_injective Constant.toDatum_injective).1 (hknown k hk)
  have htest : c ∈ tests := (mem_tests c).2 ⟨e, hc, hheight, hboundary⟩
  -- the first case of the key is among the expressions' cases, which the key tells
  have hfound : (tests.find? (·.key = c.key)).isSome :=
    List.find?_isSome.2 ⟨c, htest, decide_eq_true rfl⟩
  obtain ⟨c', hc'⟩ := Option.isSome_iff_exists.1 hfound
  obtain ⟨e', he', -⟩ := (mem_tests c').1 (List.mem_of_find?_eq_some hc')
  have hkey : c'.key = c.key := by simpa using List.find?_some hc'
  have hsame : c' = c := counted_told he' hc hkey
  have hmem : c ∈ kept := by
    rw [hfirst, List.find?_append, hc', hsame]
    rfl
  obtain ⟨hprogram, hinputs, houtputs⟩ := ofExpr_eq hc
  exact ⟨c, hmem, hprogram, hinputs, hinputs ▸ houtputs⟩

/-- In the suite of height one, the sum of an input and a constant that looks like a halt. -/
theorem suite_complete_sum :
    let e := Expr.binary .add .input (.const ⟨99, by decide⟩)
    (e.height : Int) ≤ 1 ∧ (∀ k ∈ e.constants, k.toDatum ∈ boundaryConstants) ∧
      .ok { program := e.program, inputs := [1], expected := some [100] } ∈ (suite 1).toList := by
  intro e
  have hheight : (e.height : Int) ≤ 1 := by decide
  have hknown : ∀ k ∈ e.constants, k.toDatum ∈ boundaryConstants := by decide
  obtain ⟨-, kept, -, hkept, -, -, -, -, covers⟩ := suite_complete 1
  obtain ⟨c, hmem, hprogram, hinputs, houtputs⟩ := covers e hheight hknown
  refine ⟨hheight, hknown, ?_⟩
  have hinputs : c.inputs = [1] := hinputs
  have hexpected : c.expected = some [100] := by
    rw [hinputs] at houtputs
    exact (Except.ok.inj houtputs).symm
  have hc : c = { program := e.program, inputs := [1], expected := some [100] } := by
    rw [← hprogram, ← hinputs, ← hexpected]
  rw [hkept, ← hc]
  exact List.mem_map_of_mem hmem

end Intcode.Case
