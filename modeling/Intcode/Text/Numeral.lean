/-
# Decimal numerals

A numeral is an optional sign and one or more decimal digits, with single
underscores allowed between digits. Any Unicode decimal digit counts, and
leading zeros do. A numeral of more than 4300 digits is refused, so that
reading stays cheap; underscores and the sign do not count.

Key definitions: `digitValue?`, `digits?`, `integer?`.
-/

namespace Intcode.Text

/-- The code points of the digits zero. Each begins a run of the ten digits
of its script (Unicode 14, ascending). -/
def zeros : List Nat := [
  0x30, 0x660, 0x6f0, 0x7c0, 0x966, 0x9e6, 0xa66, 0xae6, 0xb66, 0xbe6, 0xc66, 0xce6, 0xd66,
  0xde6, 0xe50, 0xed0, 0xf20, 0x1040, 0x1090, 0x17e0, 0x1810, 0x1946, 0x19d0, 0x1a80, 0x1a90,
  0x1b50, 0x1bb0, 0x1c40, 0x1c50, 0xa620, 0xa8d0, 0xa900, 0xa9d0, 0xa9f0, 0xaa50, 0xabf0, 0xff10,
  0x104a0, 0x10d30, 0x11066, 0x110f0, 0x11136, 0x111d0, 0x112f0, 0x11450, 0x114d0, 0x11650,
  0x116c0, 0x11730, 0x118e0, 0x11950, 0x11c50, 0x11d50, 0x11da0, 0x16a60, 0x16ac0, 0x16b50,
  0x1d7ce, 0x1d7d8, 0x1d7e2, 0x1d7ec, 0x1d7f6, 0x1e140, 0x1e2f0, 0x1e950, 0x1fbf0]

/-- The value of a decimal digit of any script. -/
def digitValue? (c : Char) : Option Nat :=
  (zeros.find? fun z => z ≤ c.toNat && c.toNat ≤ z + 9).map (c.toNat - ·)

/-- The digits of an unsigned numeral: at least one, with single underscores
only between two of them. -/
def digits? : List Char → Option (List Nat)
  | [] => none
  | [c] => (digitValue? c).map ([·])
  | c :: '_' :: rest => do return (← digitValue? c) :: (← digits? rest)
  | c :: d :: rest => do return (← digitValue? c) :: (← digits? (d :: rest))

/-- The number written by digits, most significant first. -/
def ofDigits (ds : List Nat) : Nat := ds.foldl (fun n d => 10 * n + d) 0

/-- The most digits a numeral may have. -/
def maxDigits : Nat := 4300

/-- The value of an unsigned numeral. -/
def natural? (s : List Char) : Option Nat := do
  let ds ← digits? s
  if ds.length ≤ maxDigits then some (ofDigits ds) else none

/-- The value of a numeral. -/
def integer? : List Char → Option Int
  | '-' :: s => (natural? s).map fun n => -(n : Int)
  | '+' :: s => (natural? s).map Int.ofNat
  | s => (natural? s).map Int.ofNat

theorem digitValue?_zero : digitValue? '0' = some 0 := by decide

theorem digits?_underscores : digits? "1_0".toList = some [1, 0] ∧ digits? "1__0".toList = none ∧
    digits? "_1".toList = none ∧ digits? "1_".toList = none := by decide

end Intcode.Text
