/-
# Cells, and the values a caller may offer for one

A cell holds a signed 64-bit integer. Values reach a machine from outside
(a program, an input, a poke), so a caller may also offer something that is
no integer, or an integer that is too large. `Datum` is what can be offered,
`Place` says where it was to go, and `Intcode.Fault` words the refusal.

Key definitions: `InCell`, `Datum`, `Place`.
-/

namespace Intcode

/-- The least value of a cell. -/
def cellMin : Int := -9223372036854775808

/-- The greatest value of a cell. -/
def cellMax : Int := 9223372036854775807

/-- An integer fits a cell when it is a signed 64-bit integer. -/
def InCell (n : Int) : Prop := cellMin ≤ n ∧ n ≤ cellMax

instance (n : Int) : Decidable (InCell n) := inferInstanceAs (Decidable (_ ∧ _))

theorem inCell_iff {n : Int} :
    InCell n ↔ -9223372036854775808 ≤ n ∧ n ≤ 9223372036854775807 := Iff.rfl

theorem inCell_zero : InCell 0 := by decide

theorem inCell_one : InCell 1 := by decide

/-- A value offered by a caller. Only an integer can become a cell; of the
other kinds no more is kept than a refusal says about them. -/
inductive Datum where
  | int (n : Int)
  | text (s : String)
  | truth (b : Bool)
  | null
  | fraction
  | list
  | record
  deriving DecidableEq, Repr

namespace Datum

instance : Coe Int Datum := ⟨Datum.int⟩

/-- The kind of a value, as refusals name it. -/
def typeName : Datum → String
  | int _ => "int"
  | text _ => "str"
  | truth _ => "bool"
  | null => "NoneType"
  | fraction => "float"
  | list => "list"
  | record => "dict"

/-- A value written bare: digits for an integer, the characters of a text,
and the kind of anything that is neither. -/
def shown : Datum → String
  | int n => toString n
  | text s => s
  | truth b => if b then "True" else "False"
  | null => "None"
  | d => d.typeName

/-- The integer a value is, if it is one. -/
def int? : Datum → Option Int
  | int n => some n
  | _ => none

end Datum

/-- Where a value was to be put. -/
inductive Place where
  /-- The cell of this index, when a memory is built. -/
  | cell (index : Nat)
  /-- An address that is written. -/
  | address (a : Int)
  /-- The input queue. -/
  | input
  /-- The relative base register. -/
  | relativeBase
  /-- Somewhere named by the caller. -/
  | named (name : String)
  deriving DecidableEq, Repr

/-- The words for a place. -/
def Place.describe : Place → String
  | cell i => s!"cell {i}"
  | address a => s!"address {a}"
  | input => "input"
  | relativeBase => "relative base"
  | named s => s

end Intcode
