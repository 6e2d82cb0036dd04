/-
# The instruction set on an endless tape

What an instruction means, told without a decoder and without a memory that
grows. A tape has a cell at every address from zero, and a table gives for the
instruction at the pointer what in it may be fatal, in the order in which it is
met, and what it comes to if nothing is (`Tape.row?`, `Tape.hazards`).

The decoder, reading from a tape, agrees with the table: an instruction is
decoded unless its word or its operands meet a hazard, and fails under the class
of the first (`Tape.split_word`, `Tape.outcome_decode`).

Key definitions: `Tape`, `Hazard.first?`, `Tape.Row`, `Tape.row?`, `Tape.fatal?`,
`Hazard.past`, `Tape.outcome`.
Key theorems: `Tape.outcome_resolve`, `Tape.split_word`, `Tape.outcome_decode`.
-/
import Intcode.Machine
import Intcode.Proofs.Access
import Intcode.Proofs.Word

namespace Intcode

/-! ### The table -/

/-- A program as the instruction set sees it: a cell at every address from zero,
the pointer, the relative base and the queued inputs, oldest first. -/
structure Tape where
  cells : Nat → Int
  pointer : Int
  base : Int
  inputs : List Int

/-- Something fatal that an instruction may meet, and the class that it is
reported under. -/
structure Hazard where
  met : Bool
  kind : Fault.Kind

/-- The class of the first hazard that is met. -/
def Hazard.first? : List Hazard → Option Fault.Kind
  | [] => none
  | h :: hs => if h.met then some h.kind else first? hs

namespace Tape

/-- The cell at an address that is not negative. -/
def cell (t : Tape) (a : Int) : Int := t.cells a.toNat

/-- The word at the pointer. -/
def word (t : Tape) : Int := t.cell t.pointer

/-- The two low decimal digits of the word. -/
def opcode (t : Tape) : Nat := t.word.toNat % 100

/-- The digits above the opcode, the one nearest to it first. -/
def modeDigits (t : Tape) : List Nat := Nat.digits 10 (t.word.toNat / 100)

/-! The operands are counted from zero. -/

/-- The mode of an operand: 0 for position, 1 for immediate, 2 for relative. A
digit that is missing is zero. -/
def mode (t : Tape) (i : Nat) : Nat := t.modeDigits.getD i 0

/-- The literal of an operand, the cell so many places behind the word. -/
def literal (t : Tape) (i : Nat) : Int := t.cell (t.pointer + 1 + i)

/-- The address of an operand that is not immediate. -/
def address (t : Tape) (i : Nat) : Int :=
  if t.mode i = 2 then t.base + t.literal i else t.literal i

/-- The value of an operand. -/
def value (t : Tape) (i : Nat) : Int :=
  if t.mode i = 1 then t.literal i else t.cell (t.address i)

/-- An operand that is read must not have a negative address. -/
def reads (t : Tape) (i : Nat) : List Hazard :=
  [⟨t.mode i ≠ 1 ∧ t.address i < 0, .addressError⟩]

/-- An operand that is written to must not be immediate, nor have a negative
address. -/
def writes (t : Tape) (i : Nat) : List Hazard :=
  [⟨t.mode i = 1, .invalidMode⟩, ⟨t.address i < 0, .addressError⟩]

/-- A result must be a signed 64-bit integer. -/
def fits (v : Int) : List Hazard := [⟨¬ InCell v, .cellOverflow⟩]

/-- An instruction as the table has it: its hazards, in the order in which they
are met, and what it comes to if none of them is. -/
structure Row where
  hazards : List Hazard := []
  event : Option Event := none
  /-- The one cell that is written, if one is, and the value written. -/
  written : Option (Int × Int) := none
  pointer : Int
  base : Int
  inputs : List Int

/-- The tape after an instruction. -/
def Row.after (row : Row) (t : Tape) : Tape where
  cells := match row.written with
    | none => t.cells
    | some (a, v) => fun b => if b = a.toNat then v else t.cells b
  pointer := row.pointer
  base := row.base
  inputs := row.inputs

/-- The row of an instruction that does no more than move the pointer on. -/
def moves (t : Tape) (length : Nat) : Row :=
  { pointer := t.pointer + length, base := t.base, inputs := t.inputs }

/-- Two operands are read, and a value goes to the third. -/
def stores (t : Tape) (v : Int) : Row :=
  { t.moves 4 with
    hazards := t.reads 0 ++ t.reads 1 ++ t.writes 2 ++ fits v
    written := some (t.address 2, v) }

/-- The next input goes to the operand. Without one the program waits where it
is. -/
def takes (t : Tape) : Row :=
  match t.inputs with
  | [] => { t.moves 0 with hazards := t.writes 0, event := some (.awaiting (t.address 0)) }
  | v :: rest =>
    { t.moves 2 with
      hazards := t.writes 0 ++ fits v
      written := some (t.address 0, v)
      inputs := rest }

/-- The second operand is gone to under a condition on the first. -/
def jumps (t : Tape) (condition : Prop) [Decidable condition] : Row :=
  { t.moves 3 with
    hazards := t.reads 0 ++ t.reads 1
    pointer := if condition then t.value 1 else t.pointer + 3 }

/-- The row of the opcode, if it has one. -/
def row? (t : Tape) : Option Row :=
  match t.opcode with
  | 1 => some (t.stores (t.value 0 + t.value 1))
  | 2 => some (t.stores (t.value 0 * t.value 1))
  | 3 => some t.takes
  | 4 => some { t.moves 2 with hazards := t.reads 0, event := some (.output (t.value 0)) }
  | 5 => some (t.jumps (t.value 0 ≠ 0))
  | 6 => some (t.jumps (t.value 0 = 0))
  | 7 => some (t.stores (if t.value 0 < t.value 1 then 1 else 0))
  | 8 => some (t.stores (if t.value 0 = t.value 1 then 1 else 0))
  | 9 => some { t.moves 2 with
      hazards := t.reads 0 ++ fits (t.base + t.value 0)
      base := t.base + t.value 0 }
  | 99 => some { t.moves 0 with event := some .halted }
  | _ => none

/-- What may be fatal in the word: that it is not positive, that its opcode has
no row, and that a digit above the opcode is no mode, unless it is a halt. -/
def wordHazards (t : Tape) : List Hazard :=
  [⟨t.word ≤ 0, .invalidInstruction⟩,
    ⟨t.row?.isNone, .invalidInstruction⟩,
    ⟨t.opcode ≠ 99 ∧ ∃ d ∈ t.modeDigits, 2 < d, .invalidMode⟩]

/-- All that may be fatal in an instruction, in the order in which it is met. -/
def hazards (t : Tape) : List Hazard :=
  ⟨t.pointer < 0, .addressError⟩ :: t.wordHazards ++ (t.row?.map Row.hazards).getD []

/-- The class of the first fatal condition of the instruction at the pointer. -/
def fatal? (t : Tape) : Option Fault.Kind := Hazard.first? t.hazards

end Tape

/-! ### Hazards -/

namespace Hazard

variable {α β : Type} {hs hs' : List Hazard}

theorem first?_append : first? (hs ++ hs') = (first? hs).or (first? hs') := by
  induction hs with
  | nil => rfl
  | cons h hs ih =>
    simp only [List.cons_append, first?, ih]
    split <;> rfl

theorem first?_append_none :
    first? (hs ++ hs') = none ↔ first? hs = none ∧ first? hs' = none := by
  rw [first?_append]
  cases first? hs <;> simp

/-- A value, unless one of the hazards is met. -/
def past (hs : List Hazard) (a : α) : Except Fault.Kind α :=
  match first? hs with
  | some kind => .error kind
  | none => .ok a

theorem past_bind (a : α) (f : α → Except Fault.Kind β) :
    (past hs a >>= f) = past hs () >>= fun _ => f a := by
  unfold past
  cases first? hs <;> rfl

theorem past_map (a : α) (f : α → β) : (past hs a >>= fun a => .ok (f a)) = past hs (f a) := by
  unfold past
  cases first? hs <;> rfl

theorem past_append (a : α) : past (hs ++ hs') a = past hs () >>= fun _ => past hs' a := by
  unfold past
  rw [first?_append]
  cases first? hs <;> rfl

theorem past_ok {a b : α} (h : past hs a = .ok b) : first? hs = none ∧ a = b := by
  unfold past at h
  cases hf : first? hs with
  | some kind => rw [hf] at h; cases h
  | none => rw [hf] at h; cases h; exact ⟨rfl, rfl⟩

end Hazard

/-! ### Decoding from a tape -/

namespace Tape

open Hazard

variable {α β : Type} (t : Tape)

/-- Reads of a tape, as accesses that need no store. -/
def reader (a : Int) : Access Unit Int :=
  if a < 0 then Access.fail (.negativeAddress a) else pure (t.cell a)

/-- The answer of an access that needs no store, with the class of a fault for
the fault. -/
def outcome (x : Access Unit α) : Except Fault.Kind α := (x.on ()).1.mapError Fault.kind

theorem outcome_pure (a : α) : outcome (pure a) = .ok a := rfl

theorem outcome_fail (f : Fault) : outcome (Access.fail f : Access Unit α) = .error f.kind := rfl

theorem outcome_bind (x : Access Unit α) (f : α → Access Unit β) :
    outcome (x >>= f) = outcome x >>= fun a => outcome (f a) := by
  simp only [outcome, Access.bind_apply]
  rcases x.on () with ⟨e | a, ⟨⟩⟩ <;> rfl

theorem reader_on {a : Int} (h : 0 ≤ a) : (t.reader a).on () = (.ok (t.cell a), ()) := by
  rw [reader, if_neg (by omega)]
  rfl

theorem outcome_reader {a : Int} (h : 0 ≤ a) : outcome (t.reader a) = .ok (t.cell a) := by
  rw [outcome, reader_on t h]
  rfl

theorem outcome_reader_negative {a : Int} (h : a < 0) :
    outcome (t.reader a) = .error .addressError := by
  rw [reader, if_pos h]
  rfl

/-- The operands of an operation, with what may be fatal in them. -/
def operandHazards (op : Opcode) : List Hazard :=
  match op with
  | .add | .multiply | .lessThan | .equals => t.reads 0 ++ t.reads 1 ++ t.writes 2
  | .input => t.writes 0
  | .output | .adjustRelativeBase => t.reads 0
  | .jumpIfTrue | .jumpIfFalse => t.reads 0 ++ t.reads 1
  | .halt => []

/-- The instruction of an operation with its operands resolved. -/
def instruction (op : Opcode) : Instruction :=
  match op with
  | .add => .add (t.value 0) (t.value 1) (t.address 2)
  | .multiply => .multiply (t.value 0) (t.value 1) (t.address 2)
  | .input => .input (t.address 0)
  | .output => .output (t.value 0)
  | .jumpIfTrue => .jumpIfTrue (t.value 0) (t.value 1)
  | .jumpIfFalse => .jumpIfFalse (t.value 0) (t.value 1)
  | .lessThan => .lessThan (t.value 0) (t.value 1) (t.address 2)
  | .equals => .equals (t.value 0) (t.value 1) (t.address 2)
  | .adjustRelativeBase => .adjustRelativeBase (t.value 0)
  | .halt => .halt

variable {t}

theorem outcome_operandValue (h : 0 ≤ t.pointer) (i : Nat) :
    outcome (operandValue t.reader t.base (Mode.ofDigit (t.mode i)) (t.pointer + 1 + i)) =
      past (t.reads i) (t.value i) := by
  have hliteral : outcome (t.reader (t.pointer + 1 + i)) = .ok (t.literal i) :=
    outcome_reader t (by omega)
  have at_address (a : Int) (hm : t.mode i ≠ 1) (ha : t.address i = a) :
      outcome (t.reader a) = past (t.reads i) (t.value i) := by
    by_cases hneg : a < 0
    · rw [outcome_reader_negative t hneg]
      simp [past, first?, reads, hm, ha, hneg]
    · rw [outcome_reader t (by omega)]
      simp [past, first?, reads, value, hm, ha, hneg]
  rw [operandValue, outcome_bind, hliteral]
  rcases hd : t.mode i with _ | _ | _ | d
  · exact at_address _ (by omega) (by simp [address, hd])
  · simp [past, first?, reads, value, hd]
    rfl
  · exact at_address _ (by omega) (by simp [address, hd])
  · exact at_address _ (by omega) (by simp [address, hd])

theorem outcome_operandTarget (h : 0 ≤ t.pointer) (word : Int) (i : Nat) :
    outcome (operandTarget t.reader t.base word t.pointer i (Mode.ofDigit (t.mode i))) =
      past (t.writes i) (t.address i) := by
  have hliteral : outcome (t.reader (t.pointer + 1 + i)) = .ok (t.literal i) :=
    outcome_reader t (by omega)
  have checked (a : Int) (hm : t.mode i ≠ 1) (ha : t.address i = a) :
      outcome (if a < 0 then Access.fail (.negativeTarget a word t.pointer) else pure a) =
        past (t.writes i) (t.address i) := by
    by_cases hneg : a < 0
    · rw [if_pos hneg, outcome_fail]
      simp [past, first?, writes, hm, ha, hneg, Fault.kind]
    · rw [if_neg hneg, outcome_pure]
      simp [past, first?, writes, hm, ha, hneg]
  rw [operandTarget, outcome_bind, hliteral]
  rcases hd : t.mode i with _ | _ | _ | d
  · exact checked _ (by omega) (by simp [address, hd])
  · simp [past, first?, writes, hd]
    rfl
  · exact checked _ (by omega) (by simp [address, hd])
  · exact checked _ (by omega) (by simp [address, hd])

/-- If each operand comes to its value or its address unless its hazards are
met, the operation comes to its instruction unless one of them all is. -/
theorem outcome_resolve {value target : Nat → Access Unit Int}
    (hv : ∀ i, outcome (value i) = past (t.reads i) (t.value i))
    (ht : ∀ i, outcome (target i) = past (t.writes i) (t.address i)) (op : Opcode) :
    outcome (resolve value target op) = past (t.operandHazards op) (t.instruction op) := by
  have one (x : Access Unit Int) (hs : List Hazard) (a : Int) (make : Int → Instruction)
      (hx : outcome x = past hs a) :
      outcome (x >>= fun a => pure (make a)) = past hs (make a) := by
    rw [outcome_bind, hx]
    exact past_map a make
  have more {γ : Type} (x : Access Unit Int) (hs hs' : List Hazard) (a : Int) (c : γ)
      (f : Int → Access Unit γ) (hx : outcome x = past hs a) (hf : outcome (f a) = past hs' c) :
      outcome (x >>= f) = past (hs ++ hs') c := by
    rw [outcome_bind, hx, past_bind, past_append, hf]
  cases op with
  | add | multiply | lessThan | equals =>
    rw [operandHazards, List.append_assoc]
    exact more _ _ _ _ _ _ (hv 0) (more _ _ _ _ _ _ (hv 1) (one _ _ _ _ (ht 2)))
  | input => exact one _ _ _ _ (ht 0)
  | output | adjustRelativeBase => exact one _ _ _ _ (hv 0)
  | jumpIfTrue | jumpIfFalse => exact more _ _ _ _ _ _ (hv 0) (one _ _ _ _ (hv 1))
  | halt => rfl

/-- An opcode has a row in the table just if it is that of an operation. -/
theorem isNone_row? (t : Tape) : t.row?.isNone = (Opcode.ofCode? t.opcode).isNone := by
  cases hop : Opcode.ofCode? t.opcode with
  | some op =>
    have hcode := (Opcode.code_of_ofCode? hop).symm
    cases op <;> simp only [row?, hcode, Opcode.code] <;> rfl
  | none =>
    unfold row?
    split
    all_goals first | (rename_i h; rw [h] at hop; cases hop) | rfl

/-- A word that is split has an operation and modes of its digits, and nothing
fatal in it. One that is not fails under the class of its first hazard. -/
theorem split_word (t : Tape) :
    match Word.split t.word with
    | .error f => first? t.wordHazards = some f.kind
    | .ok (op, modes) => first? t.wordHazards = none ∧ t.opcode = op.code ∧
        (op ≠ .halt → modes = t.modeDigits.map Mode.ofDigit) := by
  by_cases h0 : t.word ≤ 0
  · have hfirst : first? t.wordHazards = some .invalidInstruction := by
      simp [wordHazards, first?, h0]
    by_cases hz : t.word = 0
    · rw [hz, Word.split_zero, hfirst]
      rfl
    · rw [Word.split_negative (by omega), hfirst]
      rfl
  have hsplit := Word.split_digits (show 0 < t.word by omega)
  have hrow := isNone_row? t
  rw [← opcode, ← modeDigits] at hsplit
  cases hop : Opcode.ofCode? t.opcode with
  | none =>
    rw [hop] at hsplit hrow
    rw [hsplit]
    simp [wordHazards, first?, h0, hrow, Fault.kind]
  | some op =>
    have hcode := (Opcode.code_of_ofCode? hop).symm
    rw [hop] at hsplit hrow
    by_cases hhalt : op = .halt
    · subst hhalt
      rw [hsplit]
      simp [wordHazards, first?, h0, hrow, hcode, Opcode.code]
    have hne : t.opcode ≠ 99 := by
      rw [hcode]
      cases op <;> simp_all [Opcode.code]
    cases hfind : t.modeDigits.find? (2 < ·) with
    | some d =>
      have hd : ∃ d ∈ t.modeDigits, 2 < d :=
        ⟨d, List.mem_of_find?_eq_some hfind, by simpa using List.find?_some hfind⟩
      simp only [hfind, hhalt, if_false] at hsplit
      rw [hsplit]
      simp [wordHazards, first?, h0, hrow, hne, hd, Fault.kind]
    | none =>
      have hd : ¬ ∃ d ∈ t.modeDigits, 2 < d := by
        rintro ⟨d, hmem, hbig⟩
        have := List.find?_eq_none.1 hfind d hmem
        simp [hbig] at this
      simp only [hfind, hhalt, if_false] at hsplit
      rw [hsplit]
      refine ⟨?_, hcode, fun _ => rfl⟩
      simp [wordHazards, first?, h0, hrow, hd]

theorem outcome_decode_negative {t : Tape} (h : t.pointer < 0) :
    outcome (decode t.reader t.base t.pointer) = .error .addressError := by
  rw [decode, outcome_bind, outcome_reader_negative t h]
  rfl

/-- An instruction is decoded unless something in its word or its operands is
fatal. -/
theorem outcome_decode {t : Tape} (h : 0 ≤ t.pointer) :
    outcome (decode t.reader t.base t.pointer) = match Word.split t.word with
      | .error f => .error f.kind
      | .ok (op, _) => past (t.operandHazards op)
          (t.instruction op, t.pointer + 1 + op.operands.length) := by
  have hword : (t.reader t.pointer).on () = (.ok t.word, ()) := reader_on t h
  have hsplit := split_word t
  cases hs : Word.split t.word with
  | error f =>
    rw [outcome, Access.decode_malformed hword hs]
    rfl
  | ok split =>
    obtain ⟨op, modes⟩ := split
    rw [hs] at hsplit
    have hresolve : outcome (resolve
        (fun i => operandValue t.reader t.base (Word.modeAt modes i) (t.pointer + 1 + i))
        (fun i => operandTarget t.reader t.base t.word t.pointer i (Word.modeAt modes i)) op) =
          past (t.operandHazards op) (t.instruction op) := by
      by_cases hhalt : op = .halt
      · subst hhalt
        rfl
      obtain rfl := hsplit.2.2 hhalt
      apply outcome_resolve
      · intro i
        rw [Word.modeAt_digits]
        exact outcome_operandValue h i
      · intro i
        rw [Word.modeAt_digits]
        exact outcome_operandTarget h t.word i
    rw [outcome, Access.decode_split hword hs, ← outcome, outcome_bind, hresolve]
    exact past_map _ fun i => (i, t.pointer + 1 + (op.operands.length : Int))

end Tape

end Intcode
