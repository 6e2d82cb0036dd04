/-
# Memory

Cells at the addresses 0, 1, 2, … An access past the last cell, also a read,
extends the memory with zeros up to the address. Growth has no bound unless
the memory has a limit; then an address at or past the limit is refused,
except where the memory has cells already.

A failed access changes nothing, not even the length.

Key definitions: `Memory`, `Memory.ofCells`, `Memory.cell`, `Memory.refusal?`,
`Memory.reach`, `Memory.read`, `Memory.write`.
Key theorems: `Memory.cell_reach`, `Memory.size_reach`, `Memory.cell_put`.
-/
import Intcode.Access

namespace Intcode

/-- Cells at the addresses from zero, and the limit on their number if there
is one. -/
structure Memory where
  cells : Array Int
  limit : Option Int
  deriving DecidableEq, Repr

namespace Memory

/-- The memory that holds the given values, if all of them fit. -/
def ofCells (values : List Datum) (limit : Option Int) : Except Fault Memory := do
  return ⟨(← Datum.toCells .cell 0 values).toArray, limit⟩

/-- The number of cells. -/
def size (m : Memory) : Nat := m.cells.size

/-- The cell at an address. Past the end all cells are zero. -/
def cell (m : Memory) (a : Nat) : Int := m.cells.getD a 0

/-- Why an access to an address is refused, if it is. -/
def refusal? (m : Memory) (a : Int) : Option Fault :=
  if a < 0 then some (.negativeAddress a)
  else if a < m.size then none
  else match m.limit with
    | none => none
    | some l => if l ≤ a then some (.pastLimit a l) else none

/-- The memory extended with zeros, if need be, so that it has a cell at the
address. -/
def reach (m : Memory) (a : Nat) : Memory :=
  if a < m.size then m
  else { m with cells := m.cells ++ Array.replicate (a + 1 - m.size) 0 }

/-- The memory with a new value in an existing cell. -/
def put (m : Memory) (a : Nat) (n : Int) : Memory := { m with cells := m.cells.setIfInBounds a n }

/-- Reads the cell at an address. -/
def read (a : Int) (m : Memory) : Except Fault Int × Memory :=
  match m.refusal? a with
  | some f => (.error f, m)
  | none => (.ok (m.cell a.toNat), m.reach a.toNat)

/-- Writes a value into the cell at an address. The value is checked before
the address. -/
def write (a : Int) (value : Datum) (m : Memory) : Except Fault Unit × Memory :=
  match value.toCell (.address a) with
  | .error f => (.error f, m)
  | .ok n => match m.refusal? a with
    | some f => (.error f, m)
    | none => (.ok (), (m.reach a.toNat).put a.toNat n)

theorem reach_of_lt {m : Memory} {a : Nat} (h : a < m.size) : m.reach a = m := by
  simp [reach, h]

theorem size_reach (m : Memory) (a : Nat) : (m.reach a).size = max m.size (a + 1) := by
  unfold reach
  split
  · omega
  · simp only [size, Array.size_append, Array.size_replicate] at *
    omega

theorem limit_reach (m : Memory) (a : Nat) : (m.reach a).limit = m.limit := by
  unfold reach; split <;> rfl

/-- Growth shows only in the length: the cells are zero past the end before
it and after it. -/
theorem cell_reach (m : Memory) (a b : Nat) : (m.reach a).cell b = m.cell b := by
  unfold reach
  split
  · rfl
  · simp only [cell, Array.getD_eq_getD_getElem?, Array.getElem?_append, Array.getElem?_replicate]
    split
    · rfl
    · rename_i h
      have h' : m.cells.size ≤ b := by omega
      rw [Array.getElem?_eq_none h']
      split <;> rfl

theorem size_put (m : Memory) (a : Nat) (n : Int) : (m.put a n).size = m.size := by
  simp [put, size]

theorem limit_put (m : Memory) (a : Nat) (n : Int) : (m.put a n).limit = m.limit := rfl

theorem cell_put {m : Memory} {a : Nat} (h : a < m.size) (n : Int) (b : Nat) :
    (m.put a n).cell b = if b = a then n else m.cell b := by
  simp only [put, cell, size, Array.getD_eq_getD_getElem?] at *
  rw [Array.getElem?_setIfInBounds]
  by_cases hb : b = a
  · subst hb; simp [h]
  · simp [hb, Ne.symm hb]

end Memory
end Intcode
