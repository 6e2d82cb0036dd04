/-
# What a line of a listing says can be read off it

The text of a line is made of its parts: the name of an operation, a blank, and
the operands with a comma and a blank between any two. No name has a blank in
it and no operand a comma, so the text comes apart in one way only
(`Listing.span_unique`). The brackets of an operand tell its mode, and what is
left of it is a number.

So two texts are the same just if they say the same: the same datum, or the same
operation with the same literals in the same modes (`Listing.Content.text_inj`).

Key definitions: `Listing.shown`, `Listing.Content.says`.
Key theorems: `Listing.operandText_inj`, `Listing.operandTexts_inj`,
`Listing.Content.text_inj`.
-/
import Mathlib
import Intcode.Listing

namespace Intcode

namespace Opcode

theorem blank_notMem_mnemonic (op : Opcode) : ' ' ∉ op.mnemonic.toList := by
  cases op <;> decide

/-- Every operation has a name of its own. -/
theorem mnemonic_inj {op op' : Opcode} : op.mnemonic = op'.mnemonic ↔ op = op' := by
  constructor
  · cases op <;> cases op' <;> simp [mnemonic]
  · rintro rfl
    rfl

/-- No operation has a name that could be taken for data. -/
theorem mnemonic_ne_data (op : Opcode) : op.mnemonic ≠ "DATA" := by
  cases op <;> decide

end Opcode

namespace Listing

/-! ### Taking text apart -/

section Parts

variable {c : Char} {s s' t t' gap : List Char} {ss ts : List (List Char)}

/-- What stands before the first of a character and what begins with it are told by the
two together. -/
theorem span_unique (hs : c ∉ s) (hs' : c ∉ s') (ht : ∀ d ∈ t.head?, d = c)
    (ht' : ∀ d ∈ t'.head?, d = c) (h : s ++ t = s' ++ t') : s = s' ∧ t = t' := by
  have before {s t : List Char} (hs : c ∉ s) (ht : ∀ d ∈ t.head?, d = c) :
      (s ++ t).takeWhile (· != c) = s := by
    have none : t.takeWhile (· != c) = [] := by
      cases t with
      | nil => rfl
      | cons d t => simp [ht d rfl]
    rw [List.takeWhile_append_of_pos, none, List.append_nil]
    intro d hd
    simpa using ne_of_mem_of_not_mem hd hs
  have same : s = s' := by rw [← before hs ht, h, before hs' ht']
  subst same
  exact ⟨rfl, List.append_cancel_left h⟩

/-- Parts with gaps between them are the first one and then each of the others behind
a gap. -/
theorem intercalate_cons (gap s : List Char) (ss : List (List Char)) :
    gap.intercalate (s :: ss) = s ++ ss.flatMap (gap ++ ·) := by
  induction ss generalizing s with
  | nil => simp
  | cons t ss ih => simp [List.intercalate_cons_cons, ih]

theorem head_flatMap_gap (ss : List (List Char)) :
    ∀ d ∈ (ss.flatMap (c :: gap ++ ·)).head?, d = c := by
  cases ss with
  | nil => simp
  | cons s ss => simp

theorem flatMap_gap_inj (hs : ∀ s ∈ ss, c ∉ s) (ht : ∀ t ∈ ts, c ∉ t)
    (h : ss.flatMap (c :: gap ++ ·) = ts.flatMap (c :: gap ++ ·)) : ss = ts := by
  induction ss generalizing ts with
  | nil =>
    cases ts with
    | nil => rfl
    | cons t ts => simp at h
  | cons s ss ih =>
    cases ts with
    | nil => simp at h
    | cons t ts =>
      rw [List.forall_mem_cons] at hs ht
      rw [List.flatMap_cons, List.flatMap_cons, List.append_assoc, List.append_assoc] at h
      obtain ⟨rfl, hrest⟩ := span_unique hs.1 ht.1 (head_flatMap_gap ss) (head_flatMap_gap ts)
        (List.append_cancel_left h)
      rw [ih hs.2 ht.2 hrest]

/-- Parts that lack the character which a gap begins with are told by what they make
up with the gaps between them. -/
theorem intercalate_inj (hs : ∀ x ∈ s :: ss, c ∉ x) (ht : ∀ x ∈ t :: ts, c ∉ x)
    (h : (c :: gap).intercalate (s :: ss) = (c :: gap).intercalate (t :: ts)) :
    s :: ss = t :: ts := by
  rw [List.forall_mem_cons] at hs ht
  rw [intercalate_cons, intercalate_cons] at h
  obtain ⟨rfl, hrest⟩ := span_unique hs.1 ht.1 (head_flatMap_gap ss) (head_flatMap_gap ts) h
  rw [flatMap_gap_inj hs.2 ht.2 hrest]

end Parts

/-! ### Numbers -/

section Numbers

variable {c : Char} {a b n : Int}

/-- A number is written with digits and a minus sign, and nothing else. -/
theorem mem_repr (h : c ∈ n.repr.toList) : c.isDigit = true ∨ c = '-' := by
  have digit {m : Nat} (h : c ∈ m.repr.toList) : c.isDigit = true := by
    rw [Nat.repr_eq_ofList_toDigits, String.toList_ofList] at h
    exact Nat.isDigit_of_mem_toDigits (by decide) (by decide) h
  rw [Int.repr_eq_if] at h
  split at h
  · exact .inl (digit h)
  · rw [String.toList_append, List.mem_append] at h
    rcases h with h | h
    · exact .inr (by simpa using h)
    · exact .inl (digit h)

theorem notMem_repr (digit : c.isDigit = false) (minus : c ≠ '-') (n : Int) :
    c ∉ n.repr.toList := by
  intro h
  rcases mem_repr h with h | h
  · rw [digit] at h
    cases h
  · exact minus h

theorem signed_eq (n : Int) : signed n = if n < 0 then n.repr else "+" ++ n.repr := rfl

theorem notMem_signed (digit : c.isDigit = false) (minus : c ≠ '-') (plus : c ≠ '+') (n : Int) :
    c ∉ (signed n).toList := by
  rw [signed_eq]
  split
  · exact notMem_repr digit minus n
  · simp [plus, notMem_repr digit minus n]

theorem plus_mem_signed : '+' ∈ (signed n).toList ↔ 0 ≤ n := by
  rw [signed_eq]
  split
  · exact iff_of_false (notMem_repr (by decide) (by decide) n) (by omega)
  · exact iff_of_true (by simp) (by omega)

theorem signed_inj : signed a = signed b ↔ a = b := by
  constructor
  · intro h
    have side : 0 ≤ a ↔ 0 ≤ b := by rw [← plus_mem_signed, h, plus_mem_signed]
    rw [signed_eq, signed_eq] at h
    by_cases ha : a < 0
    · rw [if_pos ha, if_pos (by omega)] at h
      exact Int.repr_inj.1 h
    · rw [if_neg ha, if_neg (by omega)] at h
      simpa using h
  · rintro rfl
    rfl

end Numbers

/-! ### Operands -/

section Operands

variable {mode mode' : Mode} {modes modes' : List Mode} {index : Nat} {a b : Int}
variable {literals literals' : List Int}

theorem operandText_position (n : Int) : operandText .position n = "[" ++ n.repr ++ "]" := rfl

theorem operandText_immediate (n : Int) : operandText .immediate n = n.repr := rfl

theorem operandText_relative (n : Int) : operandText .relative n = "[rb" ++ signed n ++ "]" := rfl

/-- A character that no number is written with belongs to the brackets of an operand. -/
theorem mem_operandText {c : Char} (digit : c.isDigit = false) (minus : c ≠ '-') (plus : c ≠ '+') :
    c ∈ (operandText mode a).toList ↔
      match mode with
      | .position => c = '[' ∨ c = ']'
      | .immediate => False
      | .relative => c = '[' ∨ c = 'r' ∨ c = 'b' ∨ c = ']' := by
  cases mode with
  | position => simp [operandText_position, notMem_repr digit minus a]
  | immediate => simp [operandText_immediate, notMem_repr digit minus a]
  | relative => simp [operandText_relative, notMem_signed digit minus plus a]

theorem bracket_mem_operandText :
    '[' ∈ (operandText mode a).toList ↔ mode ≠ .immediate := by
  rw [mem_operandText (by decide) (by decide) (by decide)]
  cases mode <;> decide

theorem base_mem_operandText : 'r' ∈ (operandText mode a).toList ↔ mode = .relative := by
  rw [mem_operandText (by decide) (by decide) (by decide)]
  cases mode <;> decide

theorem comma_notMem_operandText : ',' ∉ (operandText mode a).toList := by
  rw [mem_operandText (by decide) (by decide) (by decide)]
  cases mode <;> decide

/-- An operand is told by its text. -/
theorem operandText_inj :
    operandText mode a = operandText mode' b ↔ mode = mode' ∧ a = b := by
  constructor
  · intro h
    have bracket : mode ≠ .immediate ↔ mode' ≠ .immediate := by
      rw [← bracket_mem_operandText, h, bracket_mem_operandText]
    have base : mode = .relative ↔ mode' = .relative := by
      rw [← base_mem_operandText, h, base_mem_operandText]
    obtain rfl : mode = mode' := by
      cases mode <;> cases mode' <;> simp at bracket base ⊢
    refine ⟨rfl, ?_⟩
    cases mode with
    | position => simpa [operandText_position] using h
    | immediate => exact Int.repr_inj.1 h
    | relative => simpa [operandText_relative, signed_inj] using h
  · rintro ⟨rfl, rfl⟩
    rfl

/-- The operands of an instruction, each with its mode, the first of the literals
having the given index. -/
def shown (modes : List Mode) (index : Nat) : List Int → List (Mode × Int)
  | [] => []
  | literal :: rest => (Word.modeAt modes index, literal) :: shown modes (index + 1) rest

theorem operandTexts_inj :
    operandTexts modes index literals = operandTexts modes' index literals' ↔
      shown modes index literals = shown modes' index literals' := by
  induction literals generalizing index literals' with
  | nil => cases literals' <;> simp [operandTexts, shown]
  | cons literal rest ih =>
    cases literals' with
    | nil => simp [operandTexts, shown]
    | cons literal' rest' => simp [operandTexts, shown, operandText_inj, ih]

theorem comma_notMem_operandTexts :
    ∀ s ∈ (operandTexts modes index literals).map String.toList, ',' ∉ s := by
  induction literals generalizing index with
  | nil => simp [operandTexts]
  | cons literal rest ih =>
    rw [operandTexts, List.map_cons, List.forall_mem_cons]
    exact ⟨comma_notMem_operandText, ih⟩

end Operands

/-! ### Lines -/

namespace Content

variable {c c' : Content}

/-- What a line comes to: a datum, or an operation and its operands. -/
def meaning : Content → Int ⊕ (Opcode × List (Mode × Int))
  | data word => .inl word
  | instruction _ op modes literals => .inr (op, shown modes 0 literals)

/-- What the text of a line begins with. -/
def name : Content → String
  | data _ => "DATA"
  | instruction _ op _ _ => op.mnemonic

/-- The parts of the text behind the name. -/
def parts : Content → List String
  | data word => [word.repr]
  | instruction _ _ modes literals => operandTexts modes 0 literals

/-- The text behind the name: a blank and the parts, if there are any. -/
def tail (c : Content) : List Char :=
  match c.parts.map String.toList with
  | [] => []
  | part :: rest => ' ' :: [',', ' '].intercalate (part :: rest)

theorem text_eq (c : Content) : c.text.toList = c.name.toList ++ c.tail := by
  cases c with
  | data word =>
    show ("DATA " ++ word.repr).toList = _
    simp [name, tail, parts]
  | instruction word op modes literals =>
    cases literals <;> simp [text, name, tail, parts, operandTexts, String.toList_intercalate]

theorem blank_notMem_name (c : Content) : ' ' ∉ c.name.toList := by
  cases c with
  | data word =>
    show ' ' ∉ "DATA".toList
    decide
  | instruction word op modes literals => exact op.blank_notMem_mnemonic

theorem comma_notMem_parts (c : Content) : ∀ s ∈ c.parts.map String.toList, ',' ∉ s := by
  cases c with
  | data word =>
    simp only [parts, List.map_cons, List.map_nil, List.forall_mem_singleton]
    exact notMem_repr (by decide) (by decide) word
  | instruction word op modes literals => exact comma_notMem_operandTexts

theorem head_tail (c : Content) : ∀ d ∈ c.tail.head?, d = ' ' := by
  unfold tail
  split <;> simp

/-- A text is told by its name and the parts behind it, and these by the text. -/
theorem text_parts : c.text = c'.text ↔ c.name = c'.name ∧ c.parts = c'.parts := by
  rw [← String.toList_inj, text_eq, text_eq]
  constructor
  · intro h
    obtain ⟨hname, htail⟩ := span_unique c.blank_notMem_name c'.blank_notMem_name c.head_tail
      c'.head_tail h
    refine ⟨String.toList_inj.1 hname, ?_⟩
    suffices c.parts.map String.toList = c'.parts.map String.toList from
      (List.map_inj_right fun _ _ => String.toList_inj.1).1 this
    have hparts := c.comma_notMem_parts
    have hparts' := c'.comma_notMem_parts
    unfold tail at htail
    generalize c.parts.map String.toList = ss at *
    generalize c'.parts.map String.toList = ts at *
    cases ss <;> cases ts
    · rfl
    · cases htail
    · cases htail
    · exact intercalate_inj hparts hparts' (List.tail_eq_of_cons_eq htail)
  · rintro ⟨hname, hparts⟩
    rw [tail, tail, hname, hparts]

/-- The parts are told by what a line comes to, and it by the parts. -/
theorem parts_meaning : c.name = c'.name ∧ c.parts = c'.parts ↔ c.meaning = c'.meaning := by
  cases c with
  | data word =>
    cases c' with
    | data word' => simp [name, parts, meaning]
    | instruction word' op' modes' literals' =>
      simp [name, meaning, op'.mnemonic_ne_data.symm]
  | instruction word op modes literals =>
    cases c' with
    | data word' => simp [name, meaning, op.mnemonic_ne_data]
    | instruction word' op' modes' literals' =>
      simp [name, parts, meaning, Opcode.mnemonic_inj, operandTexts_inj]

/-- Two lines have the same text just if they come to the same. -/
theorem text_inj : c.text = c'.text ↔ c.meaning = c'.meaning :=
  text_parts.trans parts_meaning

end Content

end Listing
end Intcode
