/-
# Program text by its grammar

The fields of a text are the stretches between its commas, without the blanks
at their ends (`ProgramText.Fields`). A text is read if each field is a numeral
for a value that fits a cell, and it is read as these values, in order. If not,
the first field that is none is reported: its index, and what is wrong with it
(`ProgramText.Offence`).

Blanks around the whole text do not count either: they stand at the ends of the
first field and the last (`ProgramText.fields_strip`).

Key definitions: `Text.Trimmed`, `ProgramText.Fields`, `ProgramText.IsCell`,
`ProgramText.Offence`.
Key theorems: `Text.trimmed_iff`, `ProgramText.fields_iff`, `ProgramText.fields_strip`,
`ProgramText.field_ok_iff`, `ProgramText.field_error`, `ProgramText.parse_grammar`.
-/
import Mathlib.Data.List.Forall2
import Mathlib.Data.List.TakeWhile
import Intcode.ProgramText
import Intcode.Proofs.Numeral

namespace Intcode

/-! ### Blanks at the ends -/

namespace Text

/-- The second text is the first without the blanks at its ends. -/
def Trimmed (raw s : List Char) : Prop :=
  ∃ l r, raw = l ++ s ++ r ∧ (∀ c ∈ l, isBlank c = true) ∧ (∀ c ∈ r, isBlank c = true) ∧
    (∀ c ∈ s.head?, isBlank c = false) ∧ ∀ c ∈ s.getLast?, isBlank c = false

theorem stripStart_append (s : List Char) : ∃ l, s = l ++ stripStart s ∧
    (∀ c ∈ l, isBlank c = true) ∧ ∀ c ∈ (stripStart s).head?, isBlank c = false := by
  refine ⟨s.takeWhile isBlank, List.takeWhile_append_dropWhile.symm,
    fun c hc => List.mem_takeWhile_imp hc, fun c hc => ?_⟩
  have hfirst := List.head?_dropWhile_not isBlank s
  rwa [← stripStart, hc] at hfirst

theorem stripEnd_append (s : List Char) : ∃ r, s = stripEnd s ++ r ∧
    (∀ c ∈ r, isBlank c = true) ∧ ∀ c ∈ (stripEnd s).getLast?, isBlank c = false := by
  obtain ⟨l, hl, hblank, hfirst⟩ := stripStart_append s.reverse
  refine ⟨l.reverse, ?_, fun c hc => hblank c (List.mem_reverse.1 hc), fun c hc => ?_⟩
  · rw [stripEnd, ← List.reverse_append, ← hl, List.reverse_reverse]
  · rw [stripEnd, List.getLast?_reverse] at hc
    exact hfirst c hc

/-- Blanks are taken off the ends of a text in one way. -/
theorem trimmed_iff {raw s : List Char} : Trimmed raw s ↔ s = strip raw := by
  constructor
  · rintro ⟨l, r, rfl, hl, hr, hfirst, hlast⟩
    exact (strip_append_blank hl hr hfirst hlast).symm
  · rintro rfl
    obtain ⟨l, hl, hblank, hfirst⟩ := stripStart_append raw
    obtain ⟨r, hr, hblank', hlast⟩ := stripEnd_append (stripStart raw)
    refine ⟨l, r, ?_, hblank, hblank', fun c hc => hfirst c ?_, hlast⟩
    · rw [strip, List.append_assoc, ← hr, ← hl]
    · rw [hr, List.head?_append]
      exact Option.mem_def.2 (by rw [← strip, hc]; rfl)

/-- More blanks at the ends make no difference. -/
theorem Trimmed.around {raw s l r : List Char} (h : Trimmed raw s)
    (hl : ∀ c ∈ l, isBlank c = true) (hr : ∀ c ∈ r, isBlank c = true) :
    Trimmed (l ++ raw ++ r) s := by
  obtain ⟨l', r', rfl, hl', hr', hfirst, hlast⟩ := h
  refine ⟨l ++ l', r' ++ r, ?_, List.forall_mem_append.2 ⟨hl, hl'⟩,
    List.forall_mem_append.2 ⟨hr', hr⟩, hfirst, hlast⟩
  simp only [List.append_assoc]

end Text

namespace ProgramText

open Text

/-- The fields of a text: the stretches between its commas, without the blanks
at their ends. -/
inductive Fields : List Char → List (List Char) → Prop where
  | last {raw s : List Char} (comma : ',' ∉ raw) (trimmed : Trimmed raw s) : Fields raw [s]
  | next {raw s text : List Char} {fs : List (List Char)} (comma : ',' ∉ raw)
      (trimmed : Trimmed raw s) (rest : Fields text fs) : Fields (raw ++ ',' :: text) (s :: fs)

/-- The cell that a field is a numeral for. -/
def IsCell (s : List Char) (n : Int) : Prop := Numeral s n ∧ InCell n

/-- What is wrong with the field of an index, as it is reported. -/
inductive Offence (index : Nat) (s : List Char) : String → Prop where
  | empty (h : s = []) : Offence index s s!"Empty field at position {index}"
  | notInteger (h : s ≠ []) (hs : ∀ n, ¬ Numeral s n) :
      Offence index s s!"Field {index} is not an integer: {Text.quoted (String.ofList s)}"
  | outOfRange {n : Int} (h : Numeral s n) (hn : ¬ InCell n) :
      Offence index s s!"Field {index} out of 64-bit range: {n}"

/-! ### Fields -/

theorem Fields.eq {text : List Char} {fs : List (List Char)} (h : Fields text fs) :
    fs = fields text := by
  induction h with
  | last comma trimmed =>
    rw [fields, List.splitOn_eq_singleton comma, trimmed_iff.1 trimmed]
    rfl
  | next comma trimmed _ ih =>
    rw [fields, List.splitOn_append_cons_self_of_not_mem comma, List.map_cons,
      ← trimmed_iff.1 trimmed, ih, fields]

theorem exists_fields (text : List Char) : ∃ fs, Fields text fs := by
  induction text with
  | nil => exact ⟨[strip []], .last List.not_mem_nil (trimmed_iff.2 rfl)⟩
  | cons c text ih =>
    obtain ⟨fs, h⟩ := ih
    by_cases hc : c = ','
    · subst hc
      have first : Fields ([] ++ ',' :: text) (strip [] :: fs) :=
        .next List.not_mem_nil (trimmed_iff.2 rfl) h
      exact ⟨_, first⟩
    · -- the character belongs to the first field
      have comma {raw : List Char} (h : ',' ∉ raw) : ',' ∉ c :: raw := by
        rw [List.mem_cons, not_or]
        exact ⟨Ne.symm hc, h⟩
      cases h with
      | last h _ => exact ⟨_, .last (comma h) (trimmed_iff.2 rfl)⟩
      | next h _ rest => exact ⟨_, .next (comma h) (trimmed_iff.2 rfl) rest⟩

/-- A text has its fields in one way. -/
theorem fields_iff {text : List Char} {fs : List (List Char)} :
    Fields text fs ↔ fs = fields text := by
  constructor
  · exact Fields.eq
  · rintro rfl
    obtain ⟨fs, h⟩ := exists_fields text
    rwa [← h.eq]

theorem comma_not_blank {w : List Char} (hw : ∀ c ∈ w, isBlank c = true) : ',' ∉ w := by
  intro h
  exact absurd (hw ',' h) (by decide)

/-- Blanks before a text are at an end of its first field. -/
theorem Fields.before {text l : List Char} {fs : List (List Char)} (h : Fields text fs)
    (hl : ∀ c ∈ l, isBlank c = true) : Fields (l ++ text) fs := by
  have comma {raw : List Char} (h : ',' ∉ raw) : ',' ∉ l ++ raw := by
    rw [List.mem_append, not_or]
    exact ⟨comma_not_blank hl, h⟩
  have trimmed {raw s : List Char} (h : Trimmed raw s) : Trimmed (l ++ raw) s := by
    have := h.around hl (List.forall_mem_nil _)
    rwa [List.append_nil] at this
  cases h with
  | last hcomma htrimmed => exact .last (comma hcomma) (trimmed htrimmed)
  | next hcomma htrimmed rest =>
    rw [← List.append_assoc]
    exact .next (comma hcomma) (trimmed htrimmed) rest

/-- Blanks after a text are at an end of its last field. -/
theorem Fields.after {text r : List Char} {fs : List (List Char)} (h : Fields text fs)
    (hr : ∀ c ∈ r, isBlank c = true) : Fields (text ++ r) fs := by
  induction h with
  | last comma trimmed =>
    refine .last ?_ (trimmed.around (l := []) (List.forall_mem_nil _) hr)
    rw [List.mem_append, not_or]
    exact ⟨comma, comma_not_blank hr⟩
  | next comma trimmed _ ih =>
    rw [List.append_assoc]
    exact .next comma trimmed ih

/-- Blanks around the whole text make no difference. -/
theorem fields_strip (text : List Char) : fields (strip text) = fields text := by
  obtain ⟨l, r, htext, hl, hr, -, -⟩ := trimmed_iff.2 (Eq.refl (strip text))
  have h : Fields (strip text) (fields (strip text)) := fields_iff.2 rfl
  have around := (h.before hl).after hr
  rw [← htext] at around
  exact around.eq

/-! ### Cells -/

/-- A field is read if it is a numeral for a cell, as that cell. -/
theorem field_ok_iff {index : Nat} {s : List Char} {n : Int} :
    field index s = .ok n ↔ IsCell s n := by
  rw [IsCell, ← integer?_eq_some_iff, field]
  split
  · rename_i h
    subst h
    refine iff_of_false nofun ?_
    rintro ⟨h, -⟩
    cases h
  · cases hs : integer? s with
    | none => simp
    | some k =>
      by_cases hk : InCell k
      · simp only [hk, if_true, Except.ok.injEq, Option.some.injEq]
        exact ⟨fun h => ⟨h, h ▸ hk⟩, And.left⟩
      · simp only [hk, if_false, reduceCtorEq, Option.some.injEq, false_iff, not_and]
        rintro rfl
        exact hk

/-- A field that is none is reported for what is wrong with it. -/
theorem field_error {index : Nat} {s : List Char} (h : ∀ n, ¬ IsCell s n) :
    ∃ f, field index s = .error f ∧ f.kind = .programFormatError ∧ Offence index s f.message := by
  unfold field
  split
  · exact ⟨_, rfl, rfl, .empty ‹_›⟩
  · cases hs : integer? s with
    | none =>
      refine ⟨_, rfl, rfl, .notInteger ‹_› fun n hn => ?_⟩
      rw [integer?_eq_some_iff.2 hn] at hs
      cases hs
    | some k =>
      have hk := integer?_eq_some_iff.1 hs
      have hout : ¬ InCell k := fun hin => h k ⟨hk, hin⟩
      dsimp only
      rw [if_neg hout]
      exact ⟨_, rfl, rfl, .outOfRange hk hout⟩

theorem cells_ok_iff {index : Nat} {fs : List (List Char)} {xs : List Int} :
    cells index fs = .ok xs ↔ List.Forall₂ IsCell fs xs := by
  induction fs generalizing index xs with
  | nil => cases xs <;> simp [cells]
  | cons s fs ih =>
    rw [cells, List.forall₂_cons_left_iff]
    constructor
    · intro h
      cases hs : field index s with
      | error f =>
        rw [hs] at h
        cases h
      | ok n =>
        cases hr : cells (index + 1) fs with
        | error f =>
          rw [hs, hr] at h
          cases h
        | ok ns =>
          rw [hs, hr] at h
          cases h
          exact ⟨n, ns, field_ok_iff.1 hs, ih.1 hr, rfl⟩
    · rintro ⟨n, ns, hn, hns, rfl⟩
      rw [field_ok_iff.2 hn, ih.2 hns]
      rfl

/-- The first field that is none is reported. -/
theorem cells_error {index k : Nat} {fs : List (List Char)} {s : List Char}
    (hs : fs[k]? = some s) (bad : ∀ n, ¬ IsCell s n)
    (before : ∀ j < k, ∀ s', fs[j]? = some s' → ∃ n, IsCell s' n) :
    ∃ f, cells index fs = .error f ∧ f.kind = .programFormatError ∧
      Offence (index + k) s f.message := by
  induction fs generalizing index k with
  | nil => cases hs
  | cons first fs ih =>
    rw [cells]
    cases k with
    | zero =>
      cases hs
      obtain ⟨f, hf, hkind, offence⟩ := @field_error index s bad
      rw [hf]
      exact ⟨f, rfl, hkind, offence⟩
    | succ k =>
      obtain ⟨n, hn⟩ := before 0 (Nat.succ_pos k) first rfl
      obtain ⟨f, hf, hkind, offence⟩ := @ih (index + 1) k hs fun j hj s' hs' =>
        before (j + 1) (Nat.succ_lt_succ hj) s' hs'
      rw [field_ok_iff.2 hn, hf]
      refine ⟨f, rfl, hkind, ?_⟩
      rwa [Nat.add_right_comm] at offence

/-- A text is read as the cells that its fields are numerals for. If a field is
none, the first such field is reported. -/
theorem parse_grammar (text : String) : ∃ fs, (∀ fs', Fields text.toList fs' ↔ fs' = fs) ∧
    (∀ xs, parse text = .ok xs ↔ List.Forall₂ IsCell fs xs) ∧
    ∀ k s, fs[k]? = some s → (∀ n, ¬ IsCell s n) →
      (∀ j < k, ∀ s', fs[j]? = some s' → ∃ n, IsCell s' n) →
      ∃ f, parse text = .error f ∧ f.kind = .programFormatError ∧ Offence k s f.message := by
  refine ⟨fields text.toList, fun fs' => fields_iff, fun xs => cells_ok_iff,
    fun k s hs bad before => ?_⟩
  have reported := @cells_error 0 k (fields text.toList) s hs bad before
  rwa [Nat.zero_add] at reported

example : parse " +1_0 ,-\u0663" = .ok [10, -3] := by decide +kernel

end ProgramText
end Intcode
