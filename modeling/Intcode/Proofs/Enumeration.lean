/-
# Every expression of bounded height, once

The enumeration of a height is made of that of the height below, so an operation or a choice
is in it just if its parts are in the one below (`Expr.binary_mem_enumerate`,
`Expr.select_mem_enumerate`), and the leaves are in each (`Expr.const_mem_enumerate`,
`Expr.input_mem_enumerate`). So it has the expressions of at most the height over the
constants, and no others. It has none of them twice: operations, choices and leaves are told
by how they begin, and each of them by its parts.

Key definitions: `Constant.toDatum`, `Expr.constants`.
Key theorems: `Expr.mem_enumerate_iff`, `Expr.nodup_enumerate`, `Expr.enumerates_once`.
-/
import Mathlib.Data.List.Nodup
import Mathlib.Data.List.ProdSigma
import Intcode.Enumerate.Expressions

namespace Intcode

/-- A constant as a value that is offered for one. -/
def Constant.toDatum (c : Constant) : Datum := .int c.val

theorem Constant.ofDatum_toDatum (c : Constant) : ofDatum c.toDatum = .ok c := ofInt_val c

theorem Constant.toDatum_injective : Function.Injective toDatum :=
  fun _ _ h => Subtype.ext (Datum.int.inj h)

namespace Expr

/-- The constants that an expression has. -/
def constants : Expr → List Constant
  | const c => [c]
  | input => []
  | binary _ left right => left.constants ++ right.constants
  | select condition first second => condition.constants ++ (first.constants ++ second.constants)

variable {known : List Constant} {level : List Expr} {height : Nat}

/-! ### What a level has -/

theorem toList_operations (level : List Expr) : (operations level).toList =
    (level ×ˢ level ×ˢ BinaryOp.all).map fun (left, right, op) => binary op left right := by
  simp [operations, SProd.sprod, List.product, List.map_flatMap, Function.comp_def]

theorem toList_choices (level : List Expr) : (choices level).toList =
    (level ×ˢ level ×ˢ level).map fun (condition, first, second) =>
      select condition first second := by
  simp [choices, SProd.sprod, List.product, List.map_flatMap, Function.comp_def]

theorem toList_enumerate_succ (known : List Constant) (height : Nat) :
    let level := (enumerate known height).toList
    (enumerate known (height + 1)).toList =
      (operations level).toList ++ ((choices level).toList ++ leaves known) := by
  simp [enumerate]

theorem const_mem_enumerate {c : Constant} :
    const c ∈ (enumerate known height).toList ↔ c ∈ known := by
  cases height with
  | zero => simp [enumerate, leaves]
  | succ height => simp [toList_enumerate_succ, toList_operations, toList_choices, leaves]

theorem input_mem_enumerate : input ∈ (enumerate known height).toList := by
  cases height with
  | zero => simp [enumerate, leaves]
  | succ height => simp [toList_enumerate_succ, leaves]

theorem binary_mem_enumerate {op : BinaryOp} {left right : Expr} :
    binary op left right ∈ (enumerate known (height + 1)).toList ↔
      left ∈ (enumerate known height).toList ∧ right ∈ (enumerate known height).toList := by
  simp [toList_enumerate_succ, toList_operations, toList_choices, leaves, op.mem_all]

theorem select_mem_enumerate {condition first second : Expr} :
    select condition first second ∈ (enumerate known (height + 1)).toList ↔
      condition ∈ (enumerate known height).toList ∧ first ∈ (enumerate known height).toList ∧
        second ∈ (enumerate known height).toList := by
  simp [toList_enumerate_succ, toList_operations, toList_choices, leaves]

/-- The expressions of at most the height over the constants, and no others. -/
theorem mem_enumerate_iff {e : Expr} : e ∈ (enumerate known height).toList ↔
    e.height ≤ height ∧ ∀ c ∈ e.constants, c ∈ known := by
  -- the induction is on the expression, whose parts are looked for one height below
  induction e generalizing height with
  | const c => simp [const_mem_enumerate, Expr.height, constants]
  | input => simp [input_mem_enumerate, Expr.height, constants]
  | binary op left right hl hr =>
    cases height with
    | zero => simp [enumerate, leaves, Expr.height]
    | succ height =>
      simp only [binary_mem_enumerate, hl, hr, Expr.height, constants, List.forall_mem_append,
        Nat.add_le_add_iff_right, Nat.max_le]
      exact and_and_and_comm
  | select condition first second hc hf hs =>
    cases height with
    | zero => simp [enumerate, leaves, Expr.height]
    | succ height =>
      simp only [select_mem_enumerate, hc, hf, hs, Expr.height, constants, List.forall_mem_append,
        Nat.add_le_add_iff_right, Nat.max_le]
      tauto

/-! ### Nothing twice -/

theorem nodup_operations (h : level.Nodup) : (operations level).toList.Nodup := by
  rw [toList_operations]
  refine (h.product (h.product (by decide))).map ?_
  rintro ⟨left, right, op⟩ ⟨left', right', op'⟩ heq
  cases heq
  rfl

theorem nodup_choices (h : level.Nodup) : (choices level).toList.Nodup := by
  rw [toList_choices]
  refine (h.product (h.product h)).map ?_
  rintro ⟨condition, first, second⟩ ⟨condition', first', second'⟩ heq
  cases heq
  rfl

theorem nodup_leaves (h : known.Nodup) : (leaves known).Nodup := by
  unfold leaves
  refine (h.map fun c c' heq => ?_).append (List.nodup_singleton input) ?_
  · cases heq
    rfl
  · rw [List.disjoint_singleton]
    simp

theorem nodup_enumerate (h : known.Nodup) (height : Nat) :
    (enumerate known height).toList.Nodup := by
  induction height with
  | zero => simpa [enumerate] using nodup_leaves h
  | succ height ih =>
    rw [toList_enumerate_succ]
    refine (nodup_operations ih).append ((nodup_choices ih).append (nodup_leaves h) ?_) ?_
    · intro e hchoice hleaf
      rw [toList_choices, List.mem_map] at hchoice
      obtain ⟨⟨condition, first, second⟩, -, rfl⟩ := hchoice
      simp [leaves] at hleaf
    · intro e hoperation hrest
      rw [toList_operations, List.mem_map] at hoperation
      obtain ⟨⟨left, right, op⟩, -, rfl⟩ := hoperation
      simp [toList_choices, leaves] at hrest

/-! ### Constants that are offered -/

theorem offered_toDatum (known : List Constant) :
    offered (known.map Constant.toDatum) = (known, none) := by
  induction known with
  | nil => rfl
  | cons c known ih => simp [offered, Constant.ofDatum_toDatum, ih]

theorem toList_enumerateOffered (known : List Constant) (height : Nat) :
    (enumerateOffered (known.map Constant.toDatum) height).toList =
      (enumerate known height).toList.map .ok := by
  simp [enumerateOffered, offered_toDatum]

/-- Over distinct constants the enumeration has each expression of at most the height once, and
it has nothing else, no fault either. -/
theorem enumerates_once (known : List Constant) (hdistinct : known.Nodup) (height : Nat) :
    let listed := (enumerateOffered (known.map Constant.toDatum) height).toList
    listed.Nodup ∧
      ∀ x, x ∈ listed ↔ ∃ e, x = .ok e ∧ e.height ≤ height ∧ ∀ c ∈ e.constants, c ∈ known := by
  intro listed
  have hlisted : listed = (enumerate known height).toList.map .ok :=
    toList_enumerateOffered known height
  rw [hlisted]
  refine ⟨(nodup_enumerate hdistinct height).map fun e e' heq => Except.ok.inj heq, fun x => ?_⟩
  simp only [List.mem_map, mem_enumerate_iff]
  constructor
  · rintro ⟨e, he, rfl⟩
    exact ⟨e, rfl, he⟩
  · rintro ⟨e, rfl, he⟩
    exact ⟨e, he, rfl⟩

/-- Over two constants, a choice of height two and a constant that is not offered. -/
theorem enumerates_once_two :
    let zero : Constant := ⟨0, by decide⟩
    let seven : Constant := ⟨7, by decide⟩
    let listed := (enumerateOffered ([zero, seven].map Constant.toDatum) 2).toList
    [zero, seven].Nodup ∧
      listed.count (.ok (select input (binary .add (const seven) input) (const zero))) = 1 ∧
      listed.count (.ok (const ⟨1, by decide⟩)) = 0 := by
  intro zero seven listed
  have hdistinct : [zero, seven].Nodup := by decide
  obtain ⟨nodup, mem⟩ := enumerates_once [zero, seven] hdistinct 2
  refine ⟨hdistinct, List.count_eq_one_of_mem nodup ((mem _).2 ⟨_, rfl, by decide, by decide⟩),
    List.count_eq_zero.2 fun h => ?_⟩
  obtain ⟨e, heq, -, hconstants⟩ := (mem _).1 h
  cases heq
  exact absurd hconstants (by decide)

end Expr
end Intcode
