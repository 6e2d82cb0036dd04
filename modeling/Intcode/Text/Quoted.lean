/-
# Quoted text

A text is quoted with single quotes, or with double quotes if it contains a
single quote and no double one. Inside, the backslash and the quote in use
are escaped by a backslash, line feed, carriage return and tab have names,
and every other character that is not printable is written by its number in
hexadecimal, in two, four or eight digits as it needs.

Key definitions: `quoteMark`, `escape`, `quoted`.
-/
import Intcode.Text.Printable

namespace Intcode.Text

/-- The quote that a text is put in. -/
def quoteMark (s : List Char) : Char :=
  if s.contains '\'' && !s.contains '"' then '"' else '\''

/-- The last `width` hexadecimal digits of a number, lower case. -/
def hex : Nat → Nat → List Char
  | 0, _ => []
  | width + 1, n => hex width (n / 16) ++ [Nat.digitChar (n % 16)]

/-- A character as it stands between two quotes of the given kind. -/
def escape (quote c : Char) : List Char :=
  if c = quote || c = '\\' then ['\\', c]
  else if c = '\n' then ['\\', 'n']
  else if c = '\r' then ['\\', 'r']
  else if c = '\t' then ['\\', 't']
  else if isPrintable c then [c]
  else if c.toNat < 0x100 then '\\' :: 'x' :: hex 2 c.toNat
  else if c.toNat < 0x10000 then '\\' :: 'u' :: hex 4 c.toNat
  else '\\' :: 'U' :: hex 8 c.toNat

/-- A text in quotes. -/
def quoted (s : String) : String :=
  let mark := quoteMark s.toList
  String.ofList (mark :: s.toList.flatMap (escape mark) ++ [mark])

theorem length_hex (width n : Nat) : (hex width n).length = width := by
  induction width generalizing n with
  | zero => rfl
  | succ w ih => simp [hex, ih]

theorem quoteMark_of_both {s : List Char} (h : '"' ∈ s) : quoteMark s = '\'' := by
  simp [quoteMark, h]

end Intcode.Text
