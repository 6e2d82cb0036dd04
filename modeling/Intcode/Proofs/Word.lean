/-
# Words and their modes

A word written from an opcode and modes is split into them again, but for
modes at the end that a word without them has as well: position modes. Any word
is split by its decimal digits, of which the first that is no mode is refused.

Key definitions: `Word.number`, `Word.withoutDefaults`, `Mode.ofDigit`.
Key theorems: `Word.modes_number`, `Word.split_ofModes`, `Word.inCell_ofModes`,
`Word.modes_digits`, `Word.split_digits`.
-/
import Mathlib.Data.Nat.Digits.Defs
import Intcode.Word

namespace Intcode
namespace Word

/-- The number whose digits are those of the modes, the first mode least
significant. -/
def number : List Mode → Nat
  | [] => 0
  | m :: ms => m.digit + 10 * number ms

/-- The modes up to the last that is no position mode. -/
def withoutDefaults (ms : List Mode) : List Mode :=
  (ms.reverse.dropWhile (· = .position)).reverse

theorem ofDigits_digits (ms : List Mode) :
    ofDigits (ms.map fun m => (m.digit : Int)) = number ms := by
  induction ms with
  | nil => rfl
  | cons m ms ih =>
    simp only [List.map_cons, ofDigits, ih, number]
    omega

theorem withoutDefaults_cons (m : Mode) (ms : List Mode) :
    withoutDefaults (m :: ms) =
      if withoutDefaults ms = [] ∧ m = .position then [] else m :: withoutDefaults ms := by
  simp only [withoutDefaults, List.reverse_cons, List.dropWhile_append, List.reverse_eq_nil_iff]
  cases hd : ms.reverse.dropWhile (· = .position) with
  | nil => cases m <;> simp
  | cons a as => simp

/-- Only position modes have the number zero. -/
theorem number_eq_zero_iff {ms : List Mode} : number ms = 0 ↔ withoutDefaults ms = [] := by
  induction ms with
  | nil => simp [number, withoutDefaults]
  | cons m ms ih =>
    rw [withoutDefaults_cons, number]
    split
    · rename_i h
      rw [ih.2 h.1, h.2]
      simp only [Mode.digit]
    · rename_i h
      have hm : m.digit = 0 → m = .position := by cases m <;> decide
      have hn : ¬ (number ms = 0 ∧ m = .position) := fun hn => h ⟨ih.1 hn.1, hn.2⟩
      simp only [reduceCtorEq, iff_false]
      intro h0
      exact hn ⟨by omega, hm (by omega)⟩

theorem digit_lt (m : Mode) : m.digit < 10 := by cases m <;> decide

/-- The digits of the number of modes are read as these modes, without
position modes at the end. -/
theorem modes_number (ms : List Mode) : modes (number ms) = .ok (withoutDefaults ms) := by
  induction ms with
  | nil =>
    rw [number, modes_zero]
    rfl
  | cons m ms ih =>
    have hd := digit_lt m
    by_cases h0 : number (m :: ms) = 0
    · rw [h0, modes_zero, number_eq_zero_iff.1 h0]
    · have hlow : number (m :: ms) % 10 = m.digit := by rw [number]; omega
      have hhigh : number (m :: ms) / 10 = number ms := by rw [number]; omega
      have hne : withoutDefaults (m :: ms) = m :: withoutDefaults ms := by
        rw [withoutDefaults_cons, if_neg]
        intro ⟨hn, hm⟩
        rw [← number_eq_zero_iff] at hn
        exact h0 (by rw [number, hn, hm]; rfl)
      rw [modes, if_neg h0, hlow, Mode.ofDigit?_digit, hhigh, ih, hne]

theorem code_pos (op : Opcode) : 0 < op.code := by cases op <;> decide

theorem code_lt (op : Opcode) : op.code < 100 := by cases op <;> decide

theorem ofModes_eq (op : Opcode) (ms : List Mode) :
    ofModes op ms = ((op.code + 100 * number ms : Nat) : Int) := by
  rw [ofModes, encode, ofDigits_digits]
  omega

/-- A word is split into the operation and the modes that it was written
from. -/
theorem split_ofModes {op : Opcode} (h : op ≠ .halt) (ms : List Mode) :
    split (ofModes op ms) = .ok (op, withoutDefaults ms) := by
  have hpos := code_pos op
  have hlt := code_lt op
  have hlow : (op.code + 100 * number ms) % 100 = op.code := by omega
  have hhigh : (op.code + 100 * number ms) / 100 = number ms := by omega
  rw [ofModes_eq, split, if_neg (by omega), if_neg (by omega)]
  simp only [Int.toNat_natCast, hlow, Opcode.ofCode?_code, hhigh, modes_number]

/-- A word whose modes do not end in a default is split into just these. -/
theorem split_of_eq {word : Int} {op : Opcode} {ms : List Mode} (h : word = ofModes op ms)
    (ho : op ≠ .halt) (hm : withoutDefaults ms = ms) : split word = .ok (op, ms) := by
  rw [h, split_ofModes ho, hm]

theorem number_lt (ms : List Mode) : number ms < 10 ^ ms.length := by
  induction ms with
  | nil => exact Nat.one_pos
  | cons m ms ih =>
    have := digit_lt m
    rw [number, List.length_cons, Nat.pow_succ]
    omega

/-- The word of an operation with all its modes fits. -/
theorem inCell_ofModes (op : Opcode) {ms : List Mode} (h : ms.length = op.operands.length) :
    InCell (ofModes op ms) := by
  have hlength : ms.length ≤ 3 := by
    rw [h]
    cases op <;> decide
  have hcode : op.code ≤ 99 := by cases op <;> decide
  have hnumber : number ms < 10 ^ 3 :=
    calc number ms < 10 ^ ms.length := number_lt ms
      _ ≤ 10 ^ 3 := Nat.pow_le_pow_right (by decide) hlength
  rw [ofModes, encode, ofDigits_digits, inCell_iff]
  omega

end Word

/-- The mode of a digit. A digit that is no mode counts as position. -/
def Mode.ofDigit (d : Nat) : Mode := (Mode.ofDigit? d).getD .position

namespace Word

/-- Digits are read as modes one by one, up to the first that is none. -/
theorem modes_digits (n : Nat) : modes n = match (Nat.digits 10 n).find? (2 < ·) with
    | some d => .error d
    | none => .ok ((Nat.digits 10 n).map Mode.ofDigit) := by
  induction n using Nat.strongRecOn with
  | ind n ih =>
    by_cases h0 : n = 0
    · rw [h0, modes_zero]
      rfl
    rw [modes, if_neg h0, Nat.digits_def' (by decide) (by omega)]
    cases hd : Mode.ofDigit? (n % 10) with
    | none =>
      have hbig : 2 < n % 10 := Mode.ofDigit?_eq_none_iff.1 hd
      simp only [List.find?_cons, hbig, decide_true]
    | some mode =>
      have hsmall : ¬ 2 < n % 10 := by
        intro hbig
        rw [Mode.ofDigit?_eq_none_iff.2 hbig] at hd
        cases hd
      have hmode : Mode.ofDigit (n % 10) = mode := by rw [Mode.ofDigit, hd]; rfl
      simp only [List.find?_cons, hsmall, decide_false, ih (n / 10) (by omega), List.map_cons, hmode]
      cases (Nat.digits 10 (n / 10)).find? (2 < ·) <;> rfl

/-- A positive word is split by its digits. -/
theorem split_digits {word : Int} (h : 0 < word) :
    split word = match Opcode.ofCode? (word.toNat % 100) with
      | none => .error (.unknownOpcode (word.toNat % 100) word)
      | some op =>
        if op = .halt then .ok (.halt, [])
        else match (Nat.digits 10 (word.toNat / 100)).find? (2 < ·) with
          | some d => .error (.unknownMode d word)
          | none => .ok (op, (Nat.digits 10 (word.toNat / 100)).map Mode.ofDigit) := by
  rw [split, if_neg (by omega), if_neg (by omega)]
  cases hop : Opcode.ofCode? (word.toNat % 100) with
  | none => simp only [hop]
  | some op =>
    by_cases hhalt : op = .halt
    · subst hhalt
      simp only [hop, if_true]
    · simp only [hop, hhalt, if_false, modes_digits]
      cases (Nat.digits 10 (word.toNat / 100)).find? (2 < ·) <;> rfl

/-- An operand past the last digit is in position mode, as is one with the digit
zero. -/
theorem modeAt_digits (ds : List Nat) (i : Nat) :
    modeAt (ds.map Mode.ofDigit) i = Mode.ofDigit (ds.getD i 0) := by
  simp only [modeAt, List.getD_eq_getElem?_getD, List.getElem?_map]
  cases ds[i]? <;> rfl

end Word
end Intcode
