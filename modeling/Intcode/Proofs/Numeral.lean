/-
# Numerals by their grammar

What is read as a numeral is told by a grammar: an optional sign, and one or
more decimal digits with single underscores between them (`Text.Digits`,
`Text.Numeral`). A digit is one of the ten of any script, which stand in a row
behind its zero (`Text.IsDigit`). What the grammar admits is read, with the
value of its digits in base ten, and nothing else is.

Key definitions: `Text.IsDigit`, `Text.Digits`, `Text.Numeral`.
Key theorems: `Text.digitValue?_eq_some_iff`, `Text.digits?_eq_some_iff`,
`Text.integer?_eq_some_iff`.
-/
import Mathlib.Data.Nat.Digits.Defs
import Intcode.Text.Numeral

namespace Intcode.Text

/-- A decimal digit of any script and its value. -/
def IsDigit (c : Char) (d : Nat) : Prop := d ≤ 9 ∧ ∃ z ∈ zeros, c.toNat = z + d

/-- One or more digits with single underscores between them, and the values of
the digits. -/
inductive Digits : List Char → List Nat → Prop where
  | one {c : Char} {d : Nat} (digit : IsDigit c d) : Digits [c] [d]
  | next {c : Char} {d : Nat} {s : List Char} {ds : List Nat} (digit : IsDigit c d)
      (rest : Digits s ds) : Digits (c :: s) (d :: ds)
  | underscore {c : Char} {d : Nat} {s : List Char} {ds : List Nat} (digit : IsDigit c d)
      (rest : Digits s ds) : Digits (c :: '_' :: s) (d :: ds)

/-- A sign, or none, and the factor it stands for. -/
inductive Sign : List Char → Int → Prop where
  | none : Sign [] 1
  | plus : Sign ['+'] 1
  | minus : Sign ['-'] (-1)

/-- A numeral and its value: a sign, and digits that are not too many, the most
significant first. -/
def Numeral (s : List Char) (n : Int) : Prop :=
  ∃ sign factor body ds, Sign sign factor ∧ Digits body ds ∧ ds.length ≤ 4300 ∧
    s = sign ++ body ∧ n = factor * (Nat.ofDigits 10 ds.reverse : Nat)

/-! ### Digits -/

/-- The digits of two scripts are not the same. -/
theorem zeros_apart {z z' : Nat} (hz : z ∈ zeros) (hz' : z' ∈ zeros) (h : z ≤ z' + 9)
    (h' : z' ≤ z + 9) : z = z' := by
  have apart : ∀ z ∈ zeros, ∀ z' ∈ zeros, z ≤ z' + 9 → z' ≤ z + 9 → z = z' := by
    decide +kernel
  exact apart z hz z' hz' h h'

theorem digitValue?_eq_some_iff {c : Char} {d : Nat} : digitValue? c = some d ↔ IsDigit c d := by
  unfold digitValue?
  constructor
  · intro h
    obtain ⟨z, hz, rfl⟩ := Option.map_eq_some_iff.1 h
    have hrange := List.find?_some hz
    simp only [Bool.and_eq_true, decide_eq_true_eq] at hrange
    exact ⟨by omega, z, List.mem_of_find?_eq_some hz, by omega⟩
  · rintro ⟨hd, z, hz, hc⟩
    cases hfind : zeros.find? fun z => z ≤ c.toNat && c.toNat ≤ z + 9 with
    | none =>
      have := List.find?_eq_none.1 hfind z hz
      simp only [Bool.and_eq_true, decide_eq_true_eq] at this
      omega
    | some z' =>
      have hrange := List.find?_some hfind
      simp only [Bool.and_eq_true, decide_eq_true_eq] at hrange
      obtain rfl := zeros_apart hz (List.mem_of_find?_eq_some hfind) (by omega) (by omega)
      rw [Option.map_some, hc, Nat.add_sub_cancel_left]

/-- Neither an underscore nor a sign is a digit. -/
theorem IsDigit.not_mark {c : Char} {d : Nat} (h : IsDigit c d) :
    ¬ (c = '_' ∨ c = '-' ∨ c = '+') := by
  rw [← digitValue?_eq_some_iff] at h
  intro hc
  have none : digitValue? c = none := by
    rcases hc with rfl | rfl | rfl <;> decide
  rw [none] at h
  cases h

/-- Digits begin with a digit. -/
theorem Digits.head {s : List Char} {ds : List Nat} (h : Digits s ds) :
    ∃ c d rest, s = c :: rest ∧ IsDigit c d := by
  cases h with
  | one digit => exact ⟨_, _, [], rfl, digit⟩
  | next digit rest => exact ⟨_, _, _, rfl, digit⟩
  | underscore digit rest => exact ⟨_, _, _, rfl, digit⟩

theorem digits?_eq_some_iff {s : List Char} {ds : List Nat} : digits? s = some ds ↔ Digits s ds := by
  constructor
  · intro h
    fun_induction digits? s generalizing ds with
    | case1 => cases h
    | case2 c =>
      obtain ⟨d, hd, rfl⟩ := Option.map_eq_some_iff.1 h
      exact .one (digitValue?_eq_some_iff.1 hd)
    | case3 c rest ih =>
      obtain ⟨d, hd, h⟩ := Option.bind_eq_some_iff.1 h
      obtain ⟨ds, hds, h⟩ := Option.bind_eq_some_iff.1 h
      cases h
      exact .underscore (digitValue?_eq_some_iff.1 hd) (ih hds)
    | case4 c next rest hne ih =>
      obtain ⟨d, hd, h⟩ := Option.bind_eq_some_iff.1 h
      obtain ⟨ds, hds, h⟩ := Option.bind_eq_some_iff.1 h
      cases h
      exact .next (digitValue?_eq_some_iff.1 hd) (ih hds)
  · intro h
    induction h with
    | one digit =>
      rw [digits?, digitValue?_eq_some_iff.2 digit]
      rfl
    | next digit rest ih =>
      obtain ⟨c, d, s, rfl, hc⟩ := rest.head
      have hne : c ≠ '_' := fun h => hc.not_mark (.inl h)
      rw [digits?, digitValue?_eq_some_iff.2 digit, ih]
      · rfl
      · exact hne
    | underscore digit rest ih =>
      rw [digits?, digitValue?_eq_some_iff.2 digit, ih]
      rfl

/-! ### Numerals -/

theorem ofDigits_eq (ds : List Nat) : ofDigits ds = Nat.ofDigits 10 ds.reverse := by
  rw [ofDigits, Nat.ofDigits_eq_foldr, List.foldr_reverse]
  congr 1
  funext n d
  rw [Nat.cast_id, Nat.add_comm]

theorem natural?_eq_some_iff {s : List Char} {n : Nat} : natural? s = some n ↔
    ∃ ds, Digits s ds ∧ ds.length ≤ 4300 ∧ n = Nat.ofDigits 10 ds.reverse := by
  unfold natural?
  constructor
  · intro h
    obtain ⟨ds, hds, h⟩ := Option.bind_eq_some_iff.1 h
    split at h <;> cases h
    exact ⟨ds, digits?_eq_some_iff.1 hds, ‹_›, ofDigits_eq ds⟩
  · rintro ⟨ds, hds, hlength, rfl⟩
    refine Option.bind_eq_some_iff.2 ⟨ds, digits?_eq_some_iff.2 hds, ?_⟩
    rw [if_pos (show ds.length ≤ maxDigits from hlength), ofDigits_eq]

/-- A sign is read as its factor, and no sign as the factor one. -/
theorem integer?_sign {sign : List Char} {factor : Int} (h : Sign sign factor) {body : List Char}
    {n : Nat} (hn : natural? body = some n) : integer? (sign ++ body) = some (factor * n) := by
  cases h with
  | none =>
    obtain ⟨ds, hds, -, -⟩ := natural?_eq_some_iff.1 hn
    obtain ⟨c, d, rest, rfl, hc⟩ := hds.head
    have hmark := hc.not_mark
    rw [List.nil_append, integer?, hn, Int.one_mul]
    · rfl
    · rintro s ⟨⟩
      exact hmark (.inr (.inl rfl))
    · rintro s ⟨⟩
      exact hmark (.inr (.inr rfl))
  | plus =>
    rw [List.singleton_append, integer?, hn, Int.one_mul]
    rfl
  | minus =>
    rw [List.singleton_append, integer?, hn, Int.neg_one_mul]
    rfl

/-- What is read as an integer is a sign and an unsigned numeral. -/
theorem integer?_body {s : List Char} {n : Int} (h : integer? s = some n) :
    ∃ sign factor body k, Sign sign factor ∧ s = sign ++ body ∧ natural? body = some k := by
  unfold integer? at h
  split at h
  · rename_i body
    cases hk : natural? body with
    | none => rw [hk] at h; cases h
    | some k => exact ⟨_, _, body, k, .minus, rfl, hk⟩
  · rename_i body
    cases hk : natural? body with
    | none => rw [hk] at h; cases h
    | some k => exact ⟨_, _, body, k, .plus, rfl, hk⟩
  · obtain ⟨k, hk, -⟩ := Option.map_eq_some_iff.1 h
    exact ⟨_, _, s, k, .none, rfl, hk⟩

/-- What is read as an integer are the numerals, and what is read is the value. -/
theorem integer?_eq_some_iff {s : List Char} {n : Int} : integer? s = some n ↔ Numeral s n := by
  constructor
  · intro h
    obtain ⟨sign, factor, body, k, hsign, rfl, hk⟩ := integer?_body h
    obtain ⟨ds, hds, hlength, rfl⟩ := natural?_eq_some_iff.1 hk
    rw [integer?_sign hsign hk] at h
    cases h
    exact ⟨sign, factor, body, ds, hsign, hds, hlength, rfl, rfl⟩
  · rintro ⟨sign, factor, body, ds, hsign, hds, hlength, rfl, rfl⟩
    exact integer?_sign hsign (natural?_eq_some_iff.2 ⟨ds, hds, hlength, rfl⟩)

end Intcode.Text
