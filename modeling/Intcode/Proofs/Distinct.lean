/-
# Cases without repetitions

Of the cases with one key the first is kept and the others are left out
(`Case.mem_distinct_first`), so a case may be lost to another one that asks for something
else. If the key tells the case, none is (`Case.mem_distinct_iff`). So it is for the cases of
expressions: the key has the program, and the program tells the expression.

Key definition: `Case.hasKey`.
Key theorems: `Case.distinct_sublist`, `Case.mem_distinct_first`, `Case.distinct_covers`,
`Case.distinct_pairwise`, `Case.distinct_firsts`, `Case.mem_distinct_iff`, `Case.ofExpr_key`,
`Case.told_by_program`.
-/
import Intcode.Enumerate.Cases
import Intcode.Proofs.Decompile

namespace Intcode.Case

variable {seen : Std.HashSet (List Int × List Int)} {l : LazyList (Except Fault Case)}
variable {x : Except Fault Case} {c : Case} {f : Fault}

theorem distinct_ok (seen : Std.HashSet (List Int × List Int)) (c : Case)
    (rest : Unit → LazyList (Except Fault Case)) :
    distinct seen (.cons (.ok c) rest) = if c.key ∈ seen then distinct seen (rest ())
      else .cons (.ok c) fun _ => distinct (seen.insert c.key) (rest ()) := by
  simp only [distinct, Std.HashSet.mem_iff_contains]

/-- Nothing is added, and what is kept stays in its order. -/
theorem distinct_sublist (seen : Std.HashSet (List Int × List Int))
    (l : LazyList (Except Fault Case)) : (distinct seen l).toList.Sublist l.toList := by
  induction l generalizing seen with
  | nil => exact .refl _
  | cons head rest ih =>
    cases head with
    | error f => exact (ih () seen).cons_cons _
    | ok c =>
      rw [distinct_ok]
      split
      · exact (ih () seen).cons _
      · exact (ih () _).cons_cons _

theorem mem_of_distinct (h : x ∈ (distinct seen l).toList) : x ∈ l.toList :=
  (distinct_sublist seen l).subset h

/-- A fault stays where it is. -/
theorem distinct_error (h : .error f ∈ l.toList) : .error f ∈ (distinct seen l).toList := by
  induction l generalizing seen with
  | nil => exact h
  | cons head rest ih =>
    cases head with
    | error g =>
      rcases List.mem_cons.1 h with h | h
      · exact List.mem_cons.2 (.inl h)
      · exact List.mem_cons_of_mem _ (ih () h)
    | ok c =>
      have hrest : .error f ∈ (rest ()).toList := by
        rcases List.mem_cons.1 h with h | h
        · cases h
        · exact h
      rw [distinct_ok]
      split
      · exact ih () hrest
      · exact List.mem_cons_of_mem _ (ih () hrest)

/-- Whether an item is a case of a key. -/
def hasKey (k : List Int × List Int) : Except Fault Case → Bool
  | .ok c => c.key = k
  | .error _ => false

/-- A case is kept just if its key has not been seen before and it is the first of its key. -/
theorem mem_distinct_first : .ok c ∈ (distinct seen l).toList ↔
    c.key ∉ seen ∧ l.toList.find? (hasKey c.key) = some (.ok c) := by
  induction l generalizing seen with
  | nil => simp [distinct, LazyList.toList]
  | cons head rest ih =>
    cases head with
    | error f => simp [distinct, LazyList.toList, hasKey, ih ()]
    | ok d =>
      rw [distinct_ok, LazyList.toList, List.find?_cons]
      by_cases hkey : d.key = c.key
      · -- the first of the key: whatever follows has the key no more
        simp only [hasKey, hkey, decide_true]
        by_cases hseen : c.key ∈ seen
        · simp only [hseen, if_true, ih (), not_true, false_and]
        · rw [if_neg hseen, LazyList.toList, List.mem_cons, ih ()]
          simp [hseen, eq_comm]
      · have hne : Except.ok c ≠ (.ok d : Except Fault Case) := by
          rintro ⟨⟩
          exact hkey rfl
        simp only [hasKey, hkey, decide_false]
        by_cases hseen : d.key ∈ seen
        · rw [if_pos hseen, ih ()]
        · rw [if_neg hseen, LazyList.toList, List.mem_cons, or_iff_right hne, ih (),
            Std.HashSet.mem_insert, beq_iff_eq, or_iff_right hkey]

/-- Of the cases with a key that has not been seen, the first is kept. -/
theorem distinct_covers (h : .ok c ∈ l.toList) (hnew : c.key ∉ seen) :
    ∃ c', .ok c' ∈ (distinct seen l).toList ∧ c'.key = c.key := by
  have hfound : (l.toList.find? (hasKey c.key)).isSome := by
    rw [List.find?_isSome]
    exact ⟨.ok c, h, decide_eq_true rfl⟩
  obtain ⟨x, hx⟩ := Option.isSome_iff_exists.1 hfound
  have hkey := List.find?_some hx
  cases x with
  | error f => cases hkey
  | ok c' =>
    have hkey : c'.key = c.key := of_decide_eq_true hkey
    exact ⟨c', mem_distinct_first.2 (hkey ▸ ⟨hnew, hx⟩), hkey⟩

/-- No two cases that are kept have one key. -/
theorem distinct_pairwise (seen : Std.HashSet (List Int × List Int))
    (l : LazyList (Except Fault Case)) : (distinct seen l).toList.Pairwise fun x y =>
      ∀ c c', x = .ok c → y = .ok c' → c.key ≠ c'.key := by
  induction l generalizing seen with
  | nil => exact .nil
  | cons head rest ih =>
    cases head with
    | error f => exact .cons (fun _ _ _ _ h => nomatch h) (ih () seen)
    | ok d =>
      rw [distinct_ok]
      split
      · exact ih () seen
      · refine .cons (fun x hx c c' hc hc' => ?_) (ih () _)
        cases hc
        subst hc'
        intro hkey
        exact (mem_distinct_first.1 hx).1 (Std.HashSet.mem_insert.2 (.inl (beq_iff_eq.2 hkey)))

/-- Of a list without a fault the first case of each key is kept, in the order of the list, and
for each case there is one with its key. -/
theorem distinct_firsts {cs : List Case} (h : l.toList = cs.map .ok) :
    ∃ kept : List Case, (distinct {} l).toList = kept.map .ok ∧ (kept.map key).Nodup ∧
      kept.Sublist cs ∧ (∀ c, c ∈ kept ↔ cs.find? (·.key = c.key) = some c) ∧
      ∀ c ∈ cs, ∃ c' ∈ kept, c'.key = c.key := by
  obtain ⟨kept, hsublist, hkept⟩ := List.sublist_map_iff.1 (h ▸ distinct_sublist {} l)
  have hmem (c : Case) : c ∈ kept ↔ .ok c ∈ (distinct {} l).toList := by simp [hkept]
  refine ⟨kept, hkept, ?_, hsublist, fun c => ?_, fun c hc => ?_⟩
  · have hapart := distinct_pairwise {} l
    rw [hkept, List.pairwise_map] at hapart
    exact List.pairwise_map.2 (hapart.imp fun hne => hne _ _ rfl rfl)
  · rw [hmem, mem_distinct_first, h, List.find?_map]
    simp [Function.comp_def, hasKey]
  · obtain ⟨c', hc', hkey⟩ := distinct_covers (l := l) (c := c) (by simpa [h] using hc)
      Std.HashSet.not_mem_empty
    exact ⟨c', (hmem c').2 hc', hkey⟩

/-- Where the key tells the case, none is lost. -/
theorem mem_distinct_iff (h : ∀ c c', .ok c ∈ l.toList → .ok c' ∈ l.toList → c.key = c'.key → c = c') :
    x ∈ (distinct {} l).toList ↔ x ∈ l.toList := by
  refine ⟨mem_of_distinct, fun hx => ?_⟩
  cases x with
  | error f => exact distinct_error hx
  | ok c =>
    obtain ⟨c', hmem, hkey⟩ := distinct_covers hx Std.HashSet.not_mem_empty
    rwa [h c' c (mem_of_distinct hmem) hx hkey] at hmem

/-! ### Cases of expressions -/

/-- The key of an expression's case has its program and its inputs. -/
theorem ofExpr_key {e : Expr} {inputs : List Int} (h : ofExpr e inputs = .ok c) :
    c.key = (e.program, inputs) := by
  obtain ⟨hprogram, hinputs, -⟩ := ofExpr_eq h
  rw [key, hprogram, hinputs]

/-- An expression is told by its code, wherever it stands, and by its program. So the
cases of two expressions never have one key, and a list of expressions' cases loses none
when repetitions are left out. -/
theorem told_by_program :
    (∀ (e e' : Expr) (base : Int), e.code base = e'.code base ↔ e = e') ∧
    (∀ e e' : Expr, e.program = e'.program ↔ e = e') ∧
    ∀ (tests : List (Expr × List Int)) (x : Except Fault Case),
      x ∈ (distinct {} (LazyList.ofList (tests.map fun t => ofExpr t.1 t.2))).toList ↔
        x ∈ tests.map fun t => ofExpr t.1 t.2 := by
  refine ⟨fun e e' base => Expr.code_inj, fun e e' => Expr.program_inj, fun tests x => ?_⟩
  rw [mem_distinct_iff, LazyList.toList_ofList]
  intro c c' hc hc' hkey
  rw [LazyList.toList_ofList] at hc hc'
  obtain ⟨⟨e, inputs⟩, -, h⟩ := List.mem_map.1 hc
  obtain ⟨⟨e', inputs'⟩, -, h'⟩ := List.mem_map.1 hc'
  rw [ofExpr_key h, ofExpr_key h', Prod.mk.injEq, Expr.program_inj] at hkey
  obtain ⟨rfl, rfl⟩ := hkey
  exact Except.ok.inj (h.symm.trans h')

end Intcode.Case
