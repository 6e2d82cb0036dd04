/-
# Program text there and back

A program is written and read back as itself, whatever blanks are put around its fields
and around the text (`ProgramText.Spaced`). Of the many spellings of a program the one
that is written is the canonical one: a field is its digits from 0 to 9, with no zero
before others, behind a minus sign if it is negative (`Text.Canonical`). A text that is
read is written back as itself just if it is canonical.

Key definitions: `Text.Canonical`, `ProgramText.Blank`, `ProgramText.Spaced`,
`ProgramText.Canonical`.
Key theorems: `Text.numeral_repr`, `Text.canonical_repr`, `Text.Canonical.eq_repr`,
`ProgramText.Spaced.parse`, `ProgramText.format_of_canonical`, `ProgramText.round_trip`.
-/
import Intcode.Proofs.Legible
import Intcode.Proofs.ProgramText

namespace Intcode

/-! ### Numerals in canonical form -/

namespace Text

/-- A numeral in canonical form: zero alone, or digits from 0 to 9 that do not begin with
zero, behind a minus sign or none. -/
def Canonical (s : List Char) : Prop :=
  s = ['0'] ∨ ∃ sign c body, (sign = [] ∨ sign = ['-']) ∧ s = sign ++ c :: body ∧ c ≠ '0' ∧
    ∀ d ∈ c :: body, d.isDigit = true

section Canonical

variable {c : Char} {s body : List Char} {n : Int} {k : Nat}

theorem isDigit_range (h : c.isDigit = true) : 48 ≤ c.toNat ∧ c.toNat ≤ 57 :=
  Char.isDigit_iff_toNat.1 h

/-- The characters from 0 to 9 are written for their values. -/
theorem digitChar_value (h : c.isDigit = true) : Nat.digitChar (c.toNat - 48) = c := by
  have hrange := isDigit_range h
  rw [← Char.toNat_inj, Nat.toNat_digitChar_of_lt_ten (by omega)]
  omega

/-- Characters from 0 to 9 are digits with their values. -/
theorem digits_values (hne : s ≠ []) (h : ∀ c ∈ s, c.isDigit = true) :
    Digits s (s.map fun c => c.toNat - 48) := by
  have value {c : Char} (h : c.isDigit = true) : IsDigit c (c.toNat - 48) := by
    have hrange := isDigit_range h
    exact ⟨by omega, 48, List.mem_cons_self, by omega⟩
  induction s with
  | nil => exact absurd rfl hne
  | cons c s ih =>
    rw [List.forall_mem_cons] at h
    cases s with
    | nil => exact .one (value h.1)
    | cons d s => exact .next (value h.1) (ih (List.cons_ne_nil d s) h.2)

theorem ofDigits_values (s : List Char) :
    ofDigits (s.map fun c => c.toNat - 48) = Nat.ofDigitChars 10 s 0 := by
  rw [ofDigits, List.foldl_map]
  rfl

/-- Characters from 0 to 9 are read as the number that they are the digits of. -/
theorem natural?_digits (hne : s ≠ []) (h : ∀ c ∈ s, c.isDigit = true) :
    natural? s = if s.length ≤ 4300 then some (Nat.ofDigitChars 10 s 0) else none := by
  rw [natural?, digits?_eq_some_iff.2 (digits_values hne h)]
  simp only [Option.bind_eq_bind, Option.bind_some, List.length_map, ofDigits_values]
  rfl

/-- A number has just one row of digits that does not begin with zero. -/
theorem toDigits_ofDigitChars (hne : s ≠ []) (h : ∀ c ∈ s, c.isDigit = true)
    (hfirst : ∀ c ∈ s.head?, c ≠ '0') :
    0 < Nat.ofDigitChars 10 s 0 ∧ Nat.toDigits 10 (Nat.ofDigitChars 10 s 0) = s := by
  induction s using List.reverseRecOn with
  | nil => exact absurd rfl hne
  | append_singleton s c ih =>
    have hc : c.isDigit = true := h c (by simp)
    have hrange := isDigit_range hc
    have hlast : Nat.toDigits 10 (c.toNat - 48) = [c] := by
      rw [Nat.toDigits_of_lt_base (by omega), digitChar_value hc]
    have hvalue : Nat.ofDigitChars 10 (s ++ [c]) 0 =
        10 * Nat.ofDigitChars 10 s 0 + (c.toNat - 48) := by
      rw [Nat.ofDigitChars_append]
      rfl
    by_cases hs : s = []
    · subst hs
      have hzero : c ≠ '0' := hfirst c rfl
      have hpos : c.toNat ≠ 48 := fun h => hzero (Char.toNat_inj.1 h)
      rw [hvalue, Nat.ofDigitChars_nil, Nat.mul_zero, Nat.zero_add]
      exact ⟨by omega, hlast⟩
    · have hhead : ∀ c ∈ s.head?, c ≠ '0' := by
        intro d hd
        exact hfirst d (by rw [List.head?_append, Option.mem_def.1 hd]; rfl)
      obtain ⟨hpos, hdigits⟩ := ih hs (fun d hd => h d (List.mem_append_left _ hd)) hhead
      rw [hvalue]
      refine ⟨by omega, ?_⟩
      rw [← Nat.toDigits_append_toDigits (by decide) hpos (by omega), hdigits, hlast]

theorem toDigits_head (hk : 0 < k) : ∀ c ∈ (Nat.toDigits 10 k).head?, c ≠ '0' := by
  induction k using Nat.base_induction 10 (by decide) with
  | single m hm =>
    rw [Nat.toDigits_of_lt_base hm]
    rintro c ⟨⟩ hc
    exact Nat.ne_of_gt hk (Nat.digitChar_eq_zero.1 hc)
  | digit m d hd hm ih =>
    rw [← Nat.toDigits_append_toDigits (by decide) hm hd,
      List.head?_append_of_ne_nil _ Nat.toDigits_ne_nil]
    exact ih hm

/-! ### Numbers in canonical form -/

theorem toList_repr (n : Int) :
    n.repr.toList = (if n < 0 then ['-'] else []) ++ Nat.toDigits 10 n.natAbs := by
  rw [Int.repr_eq_if]
  by_cases h : n < 0
  · rw [if_neg (by omega), if_pos h, String.toList_append, Nat.toList_repr]
    congr 2
    omega
  · rw [if_pos (by omega), if_neg h, Nat.toList_repr]
    congr 1
    omega

theorem isDigit_toDigits (k : Nat) : ∀ c ∈ Nat.toDigits 10 k, c.isDigit = true :=
  fun _ hc => Nat.isDigit_of_mem_toDigits (by decide) (by decide) hc

/-- A number is written in canonical form. -/
theorem canonical_repr (n : Int) : Canonical n.repr.toList := by
  by_cases h0 : n = 0
  · subst h0
    exact .inl rfl
  · have hhead := toDigits_head (k := n.natAbs) (by omega)
    have hdigits := isDigit_toDigits n.natAbs
    rw [toList_repr]
    cases hs : Nat.toDigits 10 n.natAbs with
    | nil => exact absurd hs Nat.toDigits_ne_nil
    | cons c body =>
      rw [hs] at hhead hdigits
      refine .inr ⟨_, c, body, ?_, rfl, hhead c rfl, hdigits⟩
      split
      · exact .inr rfl
      · exact .inl rfl

/-- A number that fits a cell is written as a numeral for it. -/
theorem numeral_repr (h : InCell n) : Numeral n.repr.toList n := by
  have hlength : (Nat.toDigits 10 n.natAbs).length ≤ 4300 := by
    have hshort : (Nat.toDigits 10 n.natAbs).length ≤ 19 := by
      rw [Nat.length_toDigits_le_iff (by decide) (by decide)]
      rw [inCell_iff] at h
      omega
    omega
  have hk : natural? (Nat.toDigits 10 n.natAbs) = some n.natAbs := by
    rw [natural?_digits Nat.toDigits_ne_nil (isDigit_toDigits _), if_pos hlength,
      Nat.ofDigitChars_ten_toDigits]
  rw [← integer?_eq_some_iff, toList_repr]
  split
  · rw [integer?_sign .minus hk]
    congr 1
    omega
  · rw [integer?_sign .none hk]
    congr 1
    omega

theorem integer?_unsigned (h : c.isDigit = true) :
    integer? (c :: body) = (natural? (c :: body)).map Int.ofNat := by
  rw [integer?]
  · rintro s ⟨⟩
    cases h
  · rintro s ⟨⟩
    cases h

/-- A numeral in canonical form is what its value is written as. -/
theorem Canonical.eq_repr (hs : Canonical s) (hn : Numeral s n) : s = n.repr.toList := by
  rw [← integer?_eq_some_iff] at hn
  rcases hs with rfl | ⟨sign, c, body, hsign, rfl, hfirst, hdigits⟩
  · have hzero : integer? ['0'] = some 0 := by decide
    rw [hzero] at hn
    cases hn
    rfl
  · -- the digits behind the sign are those of the number that they are read as
    have read {k : Nat} (hk : natural? (c :: body) = some k) :
        0 < k ∧ c :: body = Nat.toDigits 10 k := by
      rw [natural?_digits (List.cons_ne_nil c body) hdigits] at hk
      split at hk <;> cases hk
      have head : ∀ d ∈ (c :: body).head?, d ≠ '0' := by
        rintro d ⟨⟩
        exact hfirst
      obtain ⟨hpos, hwritten⟩ := toDigits_ofDigitChars (List.cons_ne_nil c body) hdigits head
      exact ⟨hpos, hwritten.symm⟩
    rw [toList_repr]
    rcases hsign with rfl | rfl
    · rw [List.nil_append, integer?_unsigned (hdigits c List.mem_cons_self)] at hn
      obtain ⟨k, hk, rfl⟩ := Option.map_eq_some_iff.1 hn
      obtain ⟨-, hwritten⟩ := read hk
      have hsign : ¬ Int.ofNat k < 0 := Int.not_lt.2 (Int.natCast_nonneg k)
      rw [if_neg hsign, hwritten]
      rfl
    · rw [List.singleton_append, integer?] at hn
      obtain ⟨m, hm, rfl⟩ := Option.map_eq_some_iff.1 hn
      obtain ⟨k, hk, hcast⟩ := Option.bind_eq_some_iff.1 hm
      cases hcast
      obtain ⟨hpos, hwritten⟩ := read hk
      rw [if_pos (by omega), hwritten, Int.natAbs_neg, Int.natAbs_natCast]

end Canonical

end Text

/-! ### Texts -/

namespace ProgramText

open Text

variable {cells : List Int} {text l r : List Char}

/-- Text that is white space. -/
def Blank (w : List Char) : Prop := ∀ c ∈ w, isBlank c = true

/-- A text of cells, with blanks around its fields. -/
inductive Spaced : List Int → List Char → Prop where
  | last {n : Int} {l r : List Char} (before : Blank l) (after : Blank r) :
      Spaced [n] (l ++ n.repr.toList ++ r)
  | next {n : Int} {ns : List Int} {l r text : List Char} (before : Blank l) (after : Blank r)
      (rest : Spaced ns text) : Spaced (n :: ns) (l ++ n.repr.toList ++ r ++ ',' :: text)

/-- A text in canonical form: between its commas are numerals in canonical form, and
nothing else. -/
def Canonical (text : String) : Prop := ∀ s ∈ text.toList.splitOn ',', Text.Canonical s

/-! ### Reading what is written -/

theorem isBlank_of_mark {c : Char} (h : c.isDigit = true ∨ c = '-') : isBlank c = false := by
  rcases h with h | rfl
  · have hrange := isDigit_range h
    simp only [isBlank, blanks, List.contains_eq_mem, List.mem_cons, List.not_mem_nil, or_false,
      decide_eq_false_iff_not]
    omega
  · decide

theorem isBlank_repr {n : Int} {c : Char} (h : c ∈ n.repr.toList) : isBlank c = false :=
  isBlank_of_mark (Listing.mem_repr h)

/-- Blanks around a number are taken off. -/
theorem trimmed_repr (n : Int) (hl : Blank l) (hr : Blank r) :
    Trimmed (l ++ n.repr.toList ++ r) n.repr.toList :=
  ⟨l, r, rfl, hl, hr, fun _ hc => isBlank_repr (List.mem_of_head? hc),
    fun _ hc => isBlank_repr (List.mem_of_getLast? hc)⟩

theorem comma_notMem_repr (n : Int) (hl : Blank l) (hr : Blank r) :
    ',' ∉ l ++ n.repr.toList ++ r := by
  simp only [List.mem_append, not_or]
  exact ⟨⟨comma_not_blank hl, Listing.notMem_repr (by decide) (by decide) n⟩, comma_not_blank hr⟩

theorem Spaced.fields (h : Spaced cells text) : Fields text (cells.map fun n => n.repr.toList) := by
  induction h with
  | last before after => exact .last (comma_notMem_repr _ before after) (trimmed_repr _ before after)
  | next before after _ ih =>
    exact .next (comma_notMem_repr _ before after) (trimmed_repr _ before after) ih

/-- A text of cells that fit is read as these cells. -/
theorem Spaced.parse (h : Spaced cells text) (hcells : ∀ n ∈ cells, InCell n) (hl : Blank l)
    (hr : Blank r) : parse (String.ofList (l ++ text ++ r)) = .ok cells := by
  have hfields : Fields (l ++ text ++ r) (cells.map fun n => n.repr.toList) :=
    (h.fields.before hl).after hr
  rw [ProgramText.parse, String.toList_ofList, ← hfields.eq, cells_ok_iff, List.forall₂_map_left_iff,
    List.forall₂_same]
  intro n hn
  exact ⟨numeral_repr (hcells n hn), hcells n hn⟩

theorem toList_format (cells : List Int) :
    (format cells).toList = [','].intercalate (cells.map fun n => n.repr.toList) := by
  rw [format, String.toList_intercalate, List.map_map]
  rfl

theorem blank_nil : Blank [] := List.forall_mem_nil _

/-- The text of a program is one without any blanks. -/
theorem spaced_format (h : cells ≠ []) : Spaced cells (format cells).toList := by
  rw [toList_format]
  induction cells with
  | nil => exact absurd rfl h
  | cons n cells ih =>
    cases cells with
    | nil =>
      have hlast := Spaced.last (n := n) blank_nil blank_nil
      simpa using hlast
    | cons m cells =>
      have hnext := Spaced.next (n := n) blank_nil blank_nil (ih (List.cons_ne_nil m cells))
      simpa [List.intercalate_cons_cons] using hnext

theorem parse_format (h : cells ≠ []) (hcells : ∀ n ∈ cells, InCell n) :
    parse (format cells) = .ok cells := by
  have hread := (spaced_format h).parse hcells blank_nil blank_nil
  rwa [List.nil_append, List.append_nil, String.ofList_toList] at hread

/-! ### Writing what is read -/

/-- What is read is not empty, and fits. -/
theorem parse_ok {text : String} (h : parse text = .ok cells) :
    cells ≠ [] ∧ ∀ n ∈ cells, InCell n := by
  have hfields := cells_ok_iff.1 h
  constructor
  · rintro rfl
    exact fields_ne_nil _ (List.forall₂_nil_right_iff.1 hfields)
  · generalize fields text.toList = fs at hfields
    clear h
    induction hfields with
    | nil => exact List.forall_mem_nil _
    | cons hcell _ ih => exact List.forall_mem_cons.2 ⟨hcell.2, ih⟩

theorem canonical_format (h : cells ≠ []) : Canonical (format cells) := by
  intro s hs
  rw [toList_format, List.splitOn_intercalate] at hs
  · obtain ⟨n, -, rfl⟩ := List.mem_map.1 hs
    exact canonical_repr n
  · intro s hs
    obtain ⟨n, -, rfl⟩ := List.mem_map.1 hs
    exact Listing.notMem_repr (by decide) (by decide) n
  · rwa [ne_eq, List.map_eq_nil_iff]

/-- A numeral in canonical form has no blanks to be taken off. -/
theorem strip_canonical {s : List Char} (h : Text.Canonical s) : strip s = s := by
  have marks : ∀ c ∈ s, isBlank c = false := by
    rcases h with rfl | ⟨sign, c, body, hsign, rfl, -, hdigits⟩
    · exact List.forall_mem_singleton.2 (isBlank_of_mark (.inl rfl))
    · intro d hd
      rcases List.mem_append.1 hd with hd | hd
      · refine isBlank_of_mark (.inr ?_)
        rcases hsign with rfl | rfl
        · cases hd
        · exact List.mem_singleton.1 hd
      · exact isBlank_of_mark (.inl (hdigits d hd))
  exact strip_of_ends (fun c hc => marks c (List.mem_of_head? hc))
    fun c hc => marks c (List.mem_of_getLast? hc)

/-- Fields in canonical form are what their cells are written as. -/
theorem canonical_cells {raws : List (List Char)} (hraws : ∀ s ∈ raws, Text.Canonical s)
    (h : List.Forall₂ IsCell (raws.map strip) cells) : raws = cells.map fun n => n.repr.toList := by
  rw [List.forall₂_map_left_iff] at h
  induction h with
  | nil => rfl
  | cons hcell _ ih =>
    rw [List.forall_mem_cons] at hraws
    rw [strip_canonical hraws.1] at hcell
    rw [List.map_cons, ← hraws.1.eq_repr hcell.1, ← ih hraws.2]

/-- A text in canonical form is written back as it was. -/
theorem format_of_canonical {text : String} (h : parse text = .ok cells) (hc : Canonical text) :
    format cells = text := by
  have hraws := canonical_cells hc (cells_ok_iff.1 h)
  rw [← String.toList_inj, toList_format, ← hraws, List.intercalate_splitOn]

/-- A program is read back from its text, also with blanks around the fields and around
the whole. What is read from any text is written in canonical form, which is read as the
same and written as the same again, and which is the text itself just if that was in
canonical form. No cells at all have a text that is refused. -/
theorem round_trip :
    (∀ cells : List Int, cells ≠ [] → (∀ n ∈ cells, InCell n) →
      parse (format cells) = .ok cells ∧
      ∀ l text r, Blank l → Spaced cells text → Blank r →
        parse (String.ofList (l ++ text ++ r)) = .ok cells) ∧
    (∀ (text : String) (cells : List Int), parse text = .ok cells →
      Canonical (format cells) ∧ parse (format cells) = .ok cells ∧
      (parse (format cells)).map format = .ok (format cells) ∧
      (format cells = text ↔ Canonical text)) ∧
    ∃ f, parse (format []) = .error f ∧ f.kind = .programFormatError := by
  refine ⟨fun cells hne hcells => ?_, fun text cells h => ?_, .emptyField 0, rfl, rfl⟩
  · refine ⟨parse_format hne hcells, fun l text r hl htext hr => ?_⟩
    exact htext.parse hcells hl hr
  · obtain ⟨hne, hcells⟩ := parse_ok h
    have hread := parse_format hne hcells
    have hcanonical := canonical_format hne
    refine ⟨hcanonical, hread, by rw [hread]; rfl, ?_, format_of_canonical h⟩
    rintro rfl
    exact hcanonical

theorem round_trip_spelled :
    parse (String.ofList ([' '] ++ ['1', ' ', ',', '\t', '-', '2'] ++ ['\n'])) = .ok [1, -2] ∧
    parse "+0_1" = .ok [1] ∧ format [1] ≠ "+0_1" ∧ parse (format [1]) = .ok [1] := by
  have blank (c : Char) (hc : isBlank c = true) : Blank [c] := List.forall_mem_singleton.2 hc
  have hspaced : Spaced [1, -2] ['1', ' ', ',', '\t', '-', '2'] :=
    .next (n := 1) blank_nil (blank ' ' (by decide))
      (.last (n := -2) (blank '\t' (by decide)) blank_nil)
  have hread : parse "+0_1" = .ok [1] := by decide +kernel
  have hwritten := round_trip.2.1 "+0_1" [1] hread
  refine ⟨?_, hread, by decide, hwritten.2.1⟩
  exact (round_trip.1 [1, -2] (by decide) (by decide)).2 _ _ _ (blank ' ' (by decide)) hspaced
    (blank '\n' (by decide))

end ProgramText
end Intcode
