/-
# What a listing keeps of its program

The lines of a listing cover the cells of the program one after the other: a line
begins with the address of its first cell, and the next line is at the address behind
its last (`Listing.Covers`).

From the listing the program is known but for digits that nothing depends on. Two
programs with the same listing have the same length, and they differ at most in words
that are listed as instructions, and there only in the digits of modes that no operand
has (`Word.Alike`); a halt has no operands, so all its digits above the opcode are
such.

Key definitions: `Word.Alike`, `Listing.Content.Proper`, `Listing.Covers`,
`Listing.Matches`.
Key theorems: `Word.number_mod`, `Word.alike_of_modes`, `Listing.Line.text_inj`,
`Listing.covers_lines`, `Listing.Content.same_cells`, `Listing.same_lines`,
`Listing.listing_keeps`.
-/
import Intcode.Proofs.Listing
import Intcode.Proofs.WordFormat

namespace Intcode

/-! ### Words of the same instruction -/

namespace Word

variable {word word' : Int} {op : Opcode} {ms ms' : List Mode}

/-- Both are words of one operation, and no digit differs but those above the modes of
its operands. -/
def Alike (word word' : Int) : Prop :=
  ∃ op modes modes', split word = .ok (op, modes) ∧ split word' = .ok (op, modes') ∧
    word % 10 ^ (2 + op.operands.length) = word' % 10 ^ (2 + op.operands.length)

theorem number_low (ms : List Mode) : number ms % 10 = (modeAt ms 0).digit := by
  cases ms with
  | nil => rfl
  | cons m ms =>
    have hd := digit_lt m
    show number (m :: ms) % 10 = m.digit
    rw [number]
    omega

theorem number_high (ms : List Mode) : number ms / 10 = number ms.tail := by
  cases ms with
  | nil => rfl
  | cons m ms =>
    have hd := digit_lt m
    rw [number, List.tail_cons]
    omega

theorem modeAt_tail (ms : List Mode) (i : Nat) : modeAt ms.tail i = modeAt ms (i + 1) := by
  cases ms <;> rfl

/-- The low digits of a number are the modes of the first operands. -/
theorem number_mod {k : Nat} (h : ∀ i < k, modeAt ms i = modeAt ms' i) :
    number ms % 10 ^ k = number ms' % 10 ^ k := by
  induction k generalizing ms ms' with
  | zero => simp only [pow_zero, Nat.mod_one]
  | succ k ih =>
    have hlow : (modeAt ms 0).digit = (modeAt ms' 0).digit := by rw [h 0 (Nat.succ_pos k)]
    have hhigh : number ms.tail % 10 ^ k = number ms'.tail % 10 ^ k := by
      apply ih
      intro i hi
      rw [modeAt_tail, modeAt_tail, h (i + 1) (Nat.succ_lt_succ hi)]
    rw [pow_succ', Nat.mod_mul, Nat.mod_mul, number_low, number_low, number_high, number_high,
      hlow, hhigh]

/-- Words of one operation that agree in the modes of its operands are alike. -/
theorem alike_of_modes (h : split word = .ok (op, ms)) (h' : split word' = .ok (op, ms'))
    (hmodes : ∀ i < op.operands.length, modeAt ms i = modeAt ms' i) : Alike word word' := by
  refine ⟨op, ms, ms', h, h', ?_⟩
  obtain ⟨-, hcode, hwritten⟩ := split_ok h
  obtain ⟨-, hcode', hwritten'⟩ := split_ok h'
  by_cases hhalt : op = .halt
  · subst hhalt
    exact hcode.trans hcode'.symm
  · -- the low digits of the word are the opcode and those of the number of its modes
    have low (ms : List Mode) :
        ofModes op ms % 10 ^ (2 + op.operands.length) =
          ((op.code + 100 * (number ms % 10 ^ op.operands.length) : Nat) : Int) := by
      have hlt := code_lt op
      have hmod : (op.code + 100 * number ms) % 100 = op.code := by omega
      have hdiv : (op.code + 100 * number ms) / 100 = number ms := by omega
      have hpow : (10 : Nat) ^ (2 + op.operands.length) = 100 * 10 ^ op.operands.length :=
        pow_add 10 2 _
      calc ofModes op ms % 10 ^ (2 + op.operands.length)
          = (((op.code + 100 * number ms) % 10 ^ (2 + op.operands.length) : Nat) : Int) := by
            rw [ofModes_eq]
            push_cast
            rfl
        _ = _ := by rw [hpow, Nat.mod_mul, hmod, hdiv]
    rw [← hwritten hhalt, ← hwritten' hhalt, low, low, number_mod hmodes]

end Word

namespace Listing

variable {offset k : Nat} {program cells rest : List Int} {word word' : Int}
variable {modes modes' : List Mode} {literals literals' : List Int} {l l' : Line}

/-! ### Lines told by their text -/

section Text

theorem blank_notMem_repr (n : Nat) : ' ' ∉ n.repr.toList :=
  notMem_repr (by decide) (by decide) n

/-- A number can be read off its aligned text. -/
theorem alignRight_inj {width m n : Nat}
    (h : Text.alignRight width (toString m) = Text.alignRight width (toString n)) : m = n := by
  have digits (n : Nat) :
      (Text.alignRight width (toString n)).toList.filter (· ≠ ' ') = n.repr.toList := by
    have blanks (i : Nat) : (List.replicate i ' ').filter (· ≠ ' ') = [] := by simp
    have all : n.repr.toList.filter (· ≠ ' ') = n.repr.toList := by
      rw [List.filter_eq_self]
      intro c hc
      simpa using ne_of_mem_of_not_mem hc (blank_notMem_repr n)
    rw [Text.alignRight, String.toList_append, String.toList_ofList, List.filter_append, blanks]
    exact all
  have hrepr : m.repr = n.repr := by rw [← String.toList_inj, ← digits, h, digits]
  exact Int.ofNat.inj (Int.repr_inj.1 hrepr)

theorem colon_notMem_alignRight (width n : Nat) :
    ':' ∉ (Text.alignRight width (toString n)).toList := by
  rw [Text.alignRight, String.toList_append, List.mem_append, not_or]
  refine ⟨by simp, ?_⟩
  exact notMem_repr (by decide) (by decide) (n : Int)

/-- Two lines have the same text just if they have the same address and come to the
same. -/
theorem Line.text_inj :
    l.text = l'.text ↔ l.offset = l'.offset ∧ l.content.meaning = l'.content.meaning := by
  have parts (l : Line) : l.text.toList =
      (Text.alignRight 5 (toString l.offset)).toList ++ ':' :: ' ' :: l.content.text.toList := by
    show (Text.alignRight 5 (toString l.offset) ++ ": " ++ l.content.text).toList = _
    simp
  constructor
  · intro h
    rw [← String.toList_inj, parts, parts] at h
    obtain ⟨hoffset, hcontent⟩ := span_unique (colon_notMem_alignRight 5 _)
      (colon_notMem_alignRight 5 _) (by simp) (by simp) h
    simp only [List.cons.injEq, true_and] at hcontent
    exact ⟨alignRight_inj (String.toList_inj.1 hoffset),
      Content.text_inj.1 (String.toList_inj.1 hcontent)⟩
  · rintro ⟨hoffset, hmeaning⟩
    rw [← String.toList_inj, parts, parts, hoffset, Content.text_inj.2 hmeaning]

end Text

/-! ### Lines that cover cells -/

/-- A line shows an instruction whole: what its word is split into, with a literal for
each operand. -/
def Content.Proper : Content → Prop
  | .data _ => True
  | .instruction word op modes literals =>
    Word.split word = .ok (op, modes) ∧ literals.length = op.operands.length

/-- The texts of lines that cover cells one after the other, from an address on up to
another. Each begins with the address of its first cell, and the next is at the address
behind its last. -/
inductive Covers : Nat → Nat → List String → List Int → Prop where
  | done {stop : Nat} : Covers stop stop [] []
  | line {offset stop : Nat} {content : Content} {texts : List String} {rest : List Int}
      (proper : content.Proper) (next : Covers (offset + content.cells.length) stop texts rest) :
      Covers offset stop (s!"{Text.alignRight 5 (toString offset)}: {content.text}" :: texts)
        (content.cells ++ rest)

theorem proper_first (word : Int) (rest : List Int) : (first word rest).1.Proper := by
  rcases first_cases word rest with ⟨op, modes, hs, harity, hfirst⟩ | ⟨-, hfirst⟩ <;> rw [hfirst]
  · exact ⟨hs, List.length_take_of_le harity⟩
  · trivial

theorem covers_lines (offset : Nat) (cells : List Int) :
    Covers offset (offset + cells.length) ((lines offset cells).map Line.text) cells := by
  fun_induction lines offset cells with
  | case1 => exact .done
  | case2 offset word rest ih =>
    rw [Nat.add_assoc, ← List.length_append, cells_first] at ih
    have h := Covers.line (proper_first word rest) ih
    rwa [cells_first] at h

/-! ### Lines with the same text -/

theorem shown_inj {index : Nat} (h : shown modes index literals = shown modes' index literals') :
    literals = literals' ∧
      ∀ i < literals.length, Word.modeAt modes (index + i) = Word.modeAt modes' (index + i) := by
  induction literals generalizing index literals' with
  | nil =>
    cases literals' with
    | nil => exact ⟨rfl, nofun⟩
    | cons => cases h
  | cons literal rest ih =>
    cases literals' with
    | nil => cases h
    | cons literal' rest' =>
      simp only [shown, List.cons.injEq, Prod.mk.injEq] at h
      obtain ⟨⟨hmode, rfl⟩, hrest⟩ := h
      obtain ⟨rfl, hmodes⟩ := ih hrest
      refine ⟨rfl, fun i hi => ?_⟩
      cases i with
      | zero => exact hmode
      | succ i =>
        have := hmodes i (Nat.lt_of_succ_lt_succ hi)
        rwa [Nat.add_right_comm, Nat.add_assoc] at this

/-- Lines that come to the same show the same cells, but for the word of an
instruction. -/
theorem Content.same_cells {c c' : Content} (hc : c.Proper) (hc' : c'.Proper)
    (h : c.meaning = c'.meaning) : c.cells = c'.cells ∨
      ∃ word word' literals op modes, c = .instruction word op modes literals ∧
        c.cells = word :: literals ∧ c'.cells = word' :: literals ∧ Word.Alike word word' := by
  cases c with
  | data word =>
    cases c' with
    | data word' =>
      cases h
      exact .inl rfl
    | instruction => cases h
  | instruction word op modes literals =>
    cases c' with
    | data => cases h
    | instruction word' op' modes' literals' =>
      simp only [meaning, Sum.inr.injEq, Prod.mk.injEq] at h
      obtain ⟨rfl, hshown⟩ := h
      obtain ⟨rfl, hmodes⟩ := shown_inj hshown
      refine .inr ⟨word, word', literals, op, modes, rfl, rfl, rfl, ?_⟩
      apply Word.alike_of_modes hc.1 hc'.1
      intro i hi
      have := hmodes i (by rwa [hc.2])
      rwa [Nat.zero_add] at this

/-- Cells at the same place under lines of the same text are the same, unless an
instruction begins there and the two are its word. -/
def Matches (offset : Nat) (cells cells' : List Int) : Prop :=
  ∀ i word word', cells[i]? = some word → cells'[i]? = some word' → word ≠ word' →
    Word.Alike word word' ∧ ∃ l ∈ lines offset cells, l.offset = offset + i ∧ ¬ l.IsData

theorem Matches.nil (offset : Nat) : Matches offset [] [] := by
  intro i word word' hword
  rw [List.getElem?_nil] at hword
  cases hword

/-- What one line shows matches, and so does what the lines after it show. -/
theorem Matches.line {word word' : Int} {rest rest' : List Int}
    (hmeaning : (first word rest).1.meaning = (first word' rest').1.meaning)
    (hlength : (first word rest).1.cells.length = (first word' rest').1.cells.length)
    (h : Matches (offset + (first word rest).1.cells.length) (first word rest).2
      (first word' rest').2) : Matches offset (word :: rest) (word' :: rest') := by
  intro i x x' hx hx' hne
  rw [lines]
  rw [← cells_first word rest] at hx
  rw [← cells_first word' rest'] at hx'
  by_cases hi : i < (first word rest).1.cells.length
  · rw [List.getElem?_append_left hi] at hx
    rw [List.getElem?_append_left (by omega)] at hx'
    rcases Content.same_cells (proper_first word rest) (proper_first word' rest') hmeaning with
      same | ⟨w, w', literals, op, modes, hcontent, hcells, hcells', halike⟩
    · rw [same, hx'] at hx
      cases hx
      exact absurd rfl hne
    · rw [hcells] at hx
      rw [hcells'] at hx'
      cases i with
      | zero =>
        cases hx
        cases hx'
        refine ⟨halike, _, List.mem_cons_self, rfl, ?_⟩
        rw [isData_iff, hcontent]
        rintro ⟨w, hw⟩
        cases hw
      | succ i =>
        rw [List.getElem?_cons_succ] at hx hx'
        rw [hx] at hx'
        cases hx'
        exact absurd rfl hne
  · rw [List.getElem?_append_right (by omega)] at hx hx'
    rw [← hlength] at hx'
    obtain ⟨halike, l, hl, hoffset, hdata⟩ := h _ x x' hx hx' hne
    exact ⟨halike, l, List.mem_cons_of_mem _ hl, by omega, hdata⟩

/-- Cells under lines of the same texts are as many, and match. -/
theorem same_lines {cells cells' : List Int}
    (h : (lines offset cells).map Line.text = (lines offset cells').map Line.text) :
    cells.length = cells'.length ∧ Matches offset cells cells' := by
  fun_induction lines offset cells generalizing cells' with
  | case1 =>
    cases cells' with
    | nil => exact ⟨rfl, Matches.nil _⟩
    | cons =>
      rw [lines] at h
      cases h
  | case2 offset word rest ih =>
    cases cells' with
    | nil =>
      rw [lines] at h
      cases h
    | cons word' rest' =>
      rw [lines, List.map_cons, List.map_cons, List.cons.injEq, Line.text_inj] at h
      obtain ⟨⟨-, hmeaning⟩, hrest⟩ := h
      have hlength : (first word rest).1.cells.length = (first word' rest').1.cells.length := by
        rcases Content.same_cells (proper_first word rest) (proper_first word' rest') hmeaning with
          same | ⟨_, _, _, _, _, -, hcells, hcells', -⟩
        · rw [same]
        · rw [hcells, hcells', List.length_cons, List.length_cons]
      rw [← hlength] at hrest
      obtain ⟨hcount, hmatches⟩ := ih hrest
      refine ⟨?_, Matches.line hmeaning hlength hmatches⟩
      calc (word :: rest).length
          = (first word rest).1.cells.length + (first word rest).2.length := by
            rw [← List.length_append, cells_first]
        _ = (first word' rest').1.cells.length + (first word' rest').2.length := by
            rw [hlength, hcount]
        _ = (word' :: rest').length := by rw [← List.length_append, cells_first]

/-- The lines of a program cover its cells, from address zero to its end. A program with the
same listing has as many cells, and each is the same, unless both are words of one instruction
that is listed there, and differ only in digits of modes that no operand has. -/
theorem listing_keeps (program : List Int) :
    Covers 0 program.length (ofProgram program) program ∧
      ∀ program', ofProgram program = ofProgram program' →
        program.length = program'.length ∧
        ∀ i word word', program[i]? = some word → program'[i]? = some word' → word ≠ word' →
          Word.Alike word word' ∧ ∃ l ∈ lines 0 program, l.offset = i ∧ ¬ l.IsData := by
  have hcovers := covers_lines 0 program
  rw [Nat.zero_add] at hcovers
  refine ⟨hcovers, fun program' h => ?_⟩
  obtain ⟨hlength, hmatches⟩ := same_lines h
  refine ⟨hlength, fun i word word' hword hword' hne => ?_⟩
  have := hmatches i word word' hword hword' hne
  rwa [Nat.zero_add] at this

/-- The operand of the output has one mode, and a halt has no operands. -/
theorem listing_keeps_output :
    ofProgram [104, 5, 99] = ofProgram [1104, 5, 199] ∧ Word.Alike 104 1104 ∧ Word.Alike 99 199 := by
  have h : ofProgram [104, 5, 99] = ofProgram [1104, 5, 199] := by decide +kernel
  have keeps := ((listing_keeps [104, 5, 99]).2 _ h).2
  exact ⟨h, (keeps 0 104 1104 rfl rfl (by decide)).1, (keeps 2 99 199 rfl rfl (by decide)).1⟩

end Listing
end Intcode
