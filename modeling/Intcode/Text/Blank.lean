/-
# White space

A blank is a character of Unicode white space, or one of the four
information separators U+001C to U+001F. `strip` takes the blanks off both
ends of a text and leaves those inside it.

Key definitions: `isBlank`, `strip`.
Key theorems: `strip_append_blank`, `strip_of_ends`.
-/

namespace Intcode.Text

/-- The blank code points. -/
def blanks : List Nat := [
  0x9, 0xa, 0xb, 0xc, 0xd, 0x1c, 0x1d, 0x1e, 0x1f, 0x20, 0x85, 0xa0, 0x1680,
  0x2000, 0x2001, 0x2002, 0x2003, 0x2004, 0x2005, 0x2006, 0x2007, 0x2008, 0x2009, 0x200a,
  0x2028, 0x2029, 0x202f, 0x205f, 0x3000]

/-- Whether a character is white space. -/
def isBlank (c : Char) : Bool := blanks.contains c.toNat

/-- A text without the blanks at its start. -/
def stripStart (s : List Char) : List Char := s.dropWhile isBlank

/-- A text without the blanks at its end. -/
def stripEnd (s : List Char) : List Char := (stripStart s.reverse).reverse

/-- A text without the blanks at its two ends. -/
def strip (s : List Char) : List Char := stripEnd (stripStart s)

theorem stripStart_blank_append {w : List Char} (hw : ∀ c ∈ w, isBlank c = true) (s : List Char) :
    stripStart (w ++ s) = stripStart s := by
  induction w with
  | nil => rfl
  | cons c w ih =>
    have hc : isBlank c = true := hw c (by simp)
    simp only [stripStart, List.cons_append, List.dropWhile_cons, hc, ↓reduceIte]
    exact ih fun d hd => hw d (by simp [hd])

theorem stripEnd_append_blank {w : List Char} (hw : ∀ c ∈ w, isBlank c = true) (s : List Char) :
    stripEnd (s ++ w) = stripEnd s := by
  unfold stripEnd
  rw [List.reverse_append, stripStart_blank_append (by simpa using hw)]

theorem stripStart_cons {c : Char} (hc : isBlank c = false) (s : List Char) :
    stripStart (c :: s) = c :: s := by
  simp [stripStart, hc]

theorem stripEnd_concat {c : Char} (hc : isBlank c = false) (s : List Char) :
    stripEnd (s ++ [c]) = s ++ [c] := by
  simp [stripEnd, stripStart, hc]

/-- A text whose first and last characters are no blanks is left as it is. -/
theorem strip_of_ends {s : List Char} (h₁ : ∀ c ∈ s.head?, isBlank c = false)
    (h₂ : ∀ c ∈ s.getLast?, isBlank c = false) : strip s = s := by
  rcases s with _ | ⟨c, s⟩
  · rfl
  · unfold strip
    rw [stripStart_cons (h₁ c (by simp))]
    obtain ⟨t, d, htd⟩ : ∃ t d, c :: s = t ++ [d] :=
      ⟨(c :: s).dropLast, (c :: s).getLast (by simp), (List.dropLast_concat_getLast _).symm⟩
    rw [htd] at h₂ ⊢
    exact stripEnd_concat (h₂ d (by simp)) t

/-- Blanks put around a text whose ends are no blanks are taken off again. -/
theorem strip_append_blank {l r s : List Char} (hl : ∀ c ∈ l, isBlank c = true)
    (hr : ∀ c ∈ r, isBlank c = true) (h₁ : ∀ c ∈ s.head?, isBlank c = false)
    (h₂ : ∀ c ∈ s.getLast?, isBlank c = false) : strip (l ++ s ++ r) = s := by
  rcases s with _ | ⟨c, s⟩
  · have := stripStart_blank_append (w := l ++ r) (by simpa [or_imp, forall_and] using ⟨hl, hr⟩) []
    simp only [List.append_nil] at this ⊢
    rw [strip, this]
    rfl
  · unfold strip
    rw [List.append_assoc, stripStart_blank_append hl, List.cons_append, stripStart_cons (h₁ c (by simp)),
      ← List.cons_append, stripEnd_append_blank hr]
    have := strip_of_ends h₁ h₂
    rwa [strip, stripStart_cons (h₁ c (by simp))] at this

end Intcode.Text
