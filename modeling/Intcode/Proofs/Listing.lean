/-
# A listing and the decoder

A listing is made without the decoder, from the words of a program and their
operands as they stand. Where it lists an instruction, decoding the program's
memory there comes to what the line shows: the operation, and its operands by
the literals and the modes shown (`Listing.operands`). The next line is at the
address just past the instruction.

What a line shows is told by its text alone (`Listing.Content.text_inj`), so
this is said of every instruction that has the text of the line.

A cell has a data line where its word is not decoded or its operands run past
the end, with one exception. That an operand which is written to is immediate
is found only by the decoder, so the word of such an instruction is listed as
if it were one.

Key definitions: `Listing.operand`, `Listing.operands`, `Listing.startAfter`,
`Listing.Line.Agrees`.
Key theorems: `Listing.lines_cursor`, `Listing.startAfter_eq`,
`Listing.outcome_shown`, `Listing.line_agrees`.
-/
import Intcode.Proofs.Legible
import Intcode.Proofs.Refinement

namespace Intcode

/-- The address that an operand in this mode names, if it names one. -/
def Mode.address? (base literal : Int) : Mode → Option Int
  | .position => some literal
  | .immediate => none
  | .relative => some (base + literal)

/-- The operands of an instruction without their names. -/
def Instruction.operands (i : Instruction) : List Int := i.fields.map Prod.snd

namespace Listing

variable {offset k : Nat} {program cells literals rest : List Int} {word base : Int}
variable {op : Opcode} {modes : List Mode} {l : Line}

/-! ### What a line shows -/

section Shown

variable (cells : Nat → Int) (base : Int)

/-- What an operand comes to, by what a line shows of it: its value if it is
read, its address if it is written to, or what is fatal in it. -/
def operand (kind : OperandKind) (mode : Mode) (literal : Int) : Except Fault.Kind Int :=
  match kind, mode.address? base literal with
  | .read, none => .ok literal
  | .write, none => .error .invalidMode
  | .read, some a => if a < 0 then .error .addressError else .ok (cells a.toNat)
  | .write, some a => if a < 0 then .error .addressError else .ok a

/-- What operands come to, from left to right. -/
def operands : List OperandKind → List (Mode × Int) → Except Fault.Kind (List Int)
  | kind :: kinds, (mode, literal) :: rest => do
    let x ← operand cells base kind mode literal
    let xs ← operands kinds rest
    return x :: xs
  | _, _ => .ok []

end Shown

/-- Where the next line starts after the line of an index: at the end of the
program if there is none. -/
def startAfter (program : List Int) (k : Nat) : Nat :=
  match (lines 0 program)[k + 1]? with
  | some next => next.offset
  | none => program.length

/-- The operands of the instruction at an address run past the end of the
program. -/
def Truncated (program : List Int) (offset : Nat) : Prop :=
  ∃ word op modes, program[offset]? = some word ∧ Word.split word = .ok (op, modes) ∧
    program.length ≤ offset + op.operands.length

/-- The instruction at an address is not decoded, for a reason that is not an
address: its word is malformed, or it writes to an operand that is immediate. -/
def Undecoded (memory : Memory) (base offset : Int) (f : Fault) : Prop :=
  (memory.fetch base offset).1 = .error f ∧
    (f.kind = .invalidInstruction ∨ f.kind = .invalidMode)

/-- The line shows data. -/
def Line.IsData (l : Line) : Prop := ∃ word : Int, l.content.text = s!"DATA {word}"

/-- A line of a program agrees with what decoding its memory comes to at the
address of the line. The next line starts at `next`. -/
structure Line.Agrees (l : Line) (program : List Int) (memory : Memory) (base : Int)
    (next : Nat) : Prop where
  /-- Data is shown where there is no instruction, or not all of one. That an
  operand which is written to is immediate does not count. -/
  data : l.IsData ↔
    (∃ f, Undecoded memory base l.offset f ∧ ∀ i word p, f ≠ .immediateTarget i word p) ∨
      Truncated program l.offset
  /-- The cells shown stand in the program. -/
  stands : (program.drop l.offset).take l.content.cells.length = l.content.cells
  /-- Anything but data shows what its word is split into, with a literal for each
  operand. -/
  splits : ¬ l.IsData → ∃ word op modes literals, l.content = .instruction word op modes literals ∧
    Word.split word = .ok (op, modes) ∧ literals.length = op.operands.length
  /-- Decoding comes to the operation that the text names and what the operands come to
  that it names, and ends where the next line starts. -/
  decodes : ∀ word op modes literals,
    l.content.text = (Content.instruction word op modes literals).text →
      ((memory.fetch base l.offset).1.mapError Fault.kind).map
          (fun decoded => (decoded.1.opcode, decoded.1.operands, decoded.2)) =
        (operands (fun a => program.getD a 0) base op.operands (shown modes 0 literals)).map
          fun xs => (op, xs, (next : Int))

/-! ### The lines of a program -/

/-- A word is listed with its operands if it is split and they are there, and as
data otherwise. -/
theorem first_cases (word : Int) (rest : List Int) :
    (∃ op modes, Word.split word = .ok (op, modes) ∧ op.operands.length ≤ rest.length ∧
      (first word rest).1 = .instruction word op modes (rest.take op.operands.length)) ∨
    ((∃ f, Word.split word = .error f) ∨
      ∃ op modes, Word.split word = .ok (op, modes) ∧ rest.length < op.operands.length) ∧
      (first word rest).1 = .data word := by
  unfold first
  cases hs : Word.split word with
  | error f => exact .inr ⟨.inl ⟨f, rfl⟩, rfl⟩
  | ok split =>
    obtain ⟨op, modes⟩ := split
    simp only [List.length_take]
    by_cases h : op.operands.length ≤ rest.length
    · rw [if_pos (by omega)]
      exact .inl ⟨op, modes, rfl, h, rfl⟩
    · rw [if_neg (by omega)]
      exact .inr ⟨.inr ⟨op, modes, rfl, by omega⟩, rfl⟩

/-- The line shows what a program begins with at the line's address. -/
structure Line.Stands (l : Line) (program : List Int) (word : Int) (rest : List Int) : Prop where
  cells : program.drop l.offset = word :: rest
  content : l.content = (first word rest).1

namespace Line.Stands

theorem getElem? (h : l.Stands program word rest) (i : Nat) :
    program[l.offset + i]? = (word :: rest)[i]? := by
  rw [← h.cells, List.getElem?_drop]

theorem length (h : l.Stands program word rest) :
    program.length = l.offset + 1 + rest.length := by
  have hlength := congrArg List.length h.cells
  rw [List.length_drop, List.length_cons] at hlength
  omega

theorem truncated_iff (h : l.Stands program word rest) :
    Truncated program l.offset ↔
      ∃ op modes, Word.split word = .ok (op, modes) ∧ rest.length < op.operands.length := by
  have hlength := h.length
  have hw : program[l.offset]? = some word := h.getElem? 0
  constructor
  · rintro ⟨word', op, modes, hw', hs, hend⟩
    rw [hw] at hw'
    cases hw'
    exact ⟨op, modes, hs, by omega⟩
  · rintro ⟨op, modes, hs, hshort⟩
    exact ⟨word, op, modes, hw, hs, by omega⟩

end Line.Stands

/-- A line shows what the cells from its address on begin with, and the lines
after it show the cells after those. -/
theorem lines_cursor (h : (lines offset cells)[k]? = some l) :
    ∃ before word rest, cells = before ++ word :: rest ∧ l.offset = offset + before.length ∧
      l.content = (first word rest).1 ∧
      (lines offset cells).drop (k + 1) =
        lines (l.offset + l.content.cells.length) (first word rest).2 := by
  fun_induction lines offset cells generalizing k with
  | case1 => cases h
  | case2 offset word rest ih =>
    cases k with
    | zero =>
      cases h
      exact ⟨[], word, rest, rfl, rfl, rfl, rfl⟩
    | succ k =>
      obtain ⟨before, word', rest', hcells, hoffset, hcontent, hdrop⟩ := ih h
      refine ⟨(first word rest).1.cells ++ before, word', rest', ?_, ?_, hcontent, hdrop⟩
      · rw [← cells_first word rest, hcells, List.append_assoc]
      · rw [hoffset, List.length_append]
        omega

theorem head_lines (offset : Nat) (cells : List Int) :
    (lines offset cells)[0]?.map Line.offset = if cells = [] then none else some offset := by
  cases cells <;> simp [lines]

/-- The next line starts after the cells that the line shows. -/
theorem startAfter_eq (h : (lines 0 program)[k]? = some l) :
    startAfter program k = l.offset + l.content.cells.length := by
  obtain ⟨before, word, rest, hcells, hoffset, hcontent, hdrop⟩ := lines_cursor h
  have hnext := head_lines (l.offset + l.content.cells.length) (first word rest).2
  rw [← hdrop, List.getElem?_drop, Nat.add_zero] at hnext
  have hlength := congrArg List.length (cells_first word rest)
  rw [← hcontent, List.length_append, List.length_cons] at hlength
  unfold startAfter
  cases hl : (lines 0 program)[k + 1]? with
  | some next =>
    rw [hl, Option.map_some] at hnext
    split at hnext
    · cases hnext
    · exact Option.some.inj hnext
  | none =>
    rw [hl] at hnext
    split at hnext
    · rename_i hend
      rw [hend, List.length_nil] at hlength
      rw [hcells, List.length_append, List.length_cons]
      dsimp only
      omega
    · cases hnext

theorem stands (h : (lines 0 program)[k]? = some l) : ∃ word rest, l.Stands program word rest := by
  obtain ⟨before, word, rest, hcells, hoffset, hcontent, -⟩ := lines_cursor h
  refine ⟨word, rest, ?_, hcontent⟩
  rw [hcells, hoffset, Nat.zero_add, List.drop_left]

/-- No instruction has a text that could be taken for data. -/
theorem isData_iff : l.IsData ↔ ∃ word, l.content = .data word := by
  constructor
  · rintro ⟨word, h⟩
    have htext : l.content.text = (Content.data word).text := h
    have same := Content.text_inj.1 htext
    cases hc : l.content with
    | data word' => exact ⟨word', rfl⟩
    | instruction =>
      rw [hc] at same
      cases same
  · rintro ⟨word, h⟩
    exact ⟨word, by rw [h]; rfl⟩

/-- Data is shown where a word cannot be split or its operands run past the
end. -/
theorem Line.Stands.isData_iff (h : l.Stands program word rest) :
    l.IsData ↔ (∃ f, Word.split word = .error f) ∨ Truncated program l.offset := by
  rw [Listing.isData_iff, h.truncated_iff, h.content]
  rcases first_cases word rest with ⟨op, modes, hs, harity, hfirst⟩ | ⟨hdata, hfirst⟩ <;>
    rw [hfirst]
  · refine iff_of_false (by simp) ?_
    rintro (⟨f, hs'⟩ | ⟨op', modes', hs', hshort⟩) <;> rw [hs] at hs' <;> cases hs'
    omega
  · exact iff_of_true ⟨word, rfl⟩ hdata

/-- What is shown of an instruction is its word as it is split, and the cells
after it. -/
theorem Line.Stands.instruction {word' : Int} (h : l.Stands program word rest)
    (hc : l.content = .instruction word' op modes literals) :
    Word.split word = .ok (op, modes) ∧ word' = word ∧ op.operands.length ≤ rest.length ∧
      literals = rest.take op.operands.length := by
  rw [h.content] at hc
  rcases first_cases word rest with ⟨op', modes', hs, harity, hfirst⟩ | ⟨hdata, hfirst⟩ <;>
    rw [hfirst] at hc <;> cases hc
  exact ⟨hs, rfl, harity, rfl⟩

/-! ### Decoding a program -/

/-- The tape of a program, the pointer at an address. -/
def tape (program : List Int) (base : Int) (offset : Nat) : Tape :=
  ⟨fun a => program.getD a 0, offset, base, []⟩

theorem ofCells_eq {memory : Memory}
    (h : Memory.ofCells (program.map .int) none = .ok memory) :
    memory = ⟨program.toArray, none⟩ := by
  cases hd : Datum.toCells .cell 0 (program.map .int) with
  | error f =>
    rw [Memory.ofCells, hd] at h
    cases h
  | ok cells =>
    rw [Memory.ofCells, hd] at h
    cases h
    have hcells := (Datum.toCells_ok hd).1
    rw [(List.map_inj_right fun _ _ => Datum.int.inj).1 hcells]

theorem fetch_program {memory : Memory} (h : Memory.ofCells (program.map .int) none = .ok memory)
    (base : Int) (offset : Nat) :
    (memory.fetch base offset).1 =
      ((decode (tape program base offset).reader base offset).on ()).1 := by
  obtain rfl := ofCells_eq h
  refine Memory.fetch_answer (t := tape program base offset) rfl ?_
  funext a
  simp [Memory.cell, tape]

section Decode

variable {t : Tape}

/-- An operand that is read comes to its value, and one that is written to to its
address. -/
theorem outcome_operand (h : 0 ≤ t.pointer) (mode : Mode) (i : Nat) :
    Tape.outcome (operandValue t.reader t.base mode (t.pointer + 1 + i)) =
        operand t.cells t.base .read mode (t.literal i) ∧
      ∀ word, Tape.outcome (operandTarget t.reader t.base word t.pointer i mode) =
        operand t.cells t.base .write mode (t.literal i) := by
  have hliteral : Tape.outcome (t.reader (t.pointer + 1 + i)) = .ok (t.literal i) :=
    Tape.outcome_reader t (by omega)
  have read (a : Int) : Tape.outcome (t.reader a) =
      if a < 0 then .error .addressError else .ok (t.cells a.toNat) := by
    split
    · exact Tape.outcome_reader_negative t ‹_›
    · exact Tape.outcome_reader t (by omega)
  have checked (a word : Int) : Tape.outcome
      (if a < 0 then Access.fail (.negativeTarget a word t.pointer) else pure a) =
        if a < 0 then .error .addressError else .ok a := by
    split <;> rfl
  refine ⟨?_, fun word => ?_⟩
  · rw [operandValue, Tape.outcome_bind, hliteral]
    cases mode with
    | position => exact read _
    | immediate => rfl
    | relative => exact read _
  · rw [operandTarget, Tape.outcome_bind, hliteral]
    cases mode with
    | position => exact checked _ word
    | immediate => rfl
    | relative => exact checked _ word

/-- An operation is resolved to what its operands come to. -/
theorem outcome_shown {value target : Nat → Access Unit Int} {cells : Nat → Int}
    (hl : literals.length = op.operands.length)
    (hv : ∀ i literal, literals[i]? = some literal →
      Tape.outcome (value i) = operand cells base .read (Word.modeAt modes i) literal)
    (ht : ∀ i literal, literals[i]? = some literal →
      Tape.outcome (target i) = operand cells base .write (Word.modeAt modes i) literal) :
    (Tape.outcome (resolve value target op)).map (fun i => (i.opcode, i.operands)) =
      (operands cells base op.operands (shown modes 0 literals)).map fun xs => (op, xs) := by
  cases op with
  | add | multiply | lessThan | equals =>
    obtain ⟨a, b, c, rfl⟩ := List.length_eq_three.1 hl
    simp only [resolve, Tape.outcome_bind, hv 0 a rfl, hv 1 b rfl, ht 2 c rfl, operands,
      shown, Opcode.operands]
    cases operand cells base .read (Word.modeAt modes 0) a with
    | error kind => rfl
    | ok x =>
      cases operand cells base .read (Word.modeAt modes 1) b with
      | error kind => rfl
      | ok y => cases operand cells base .write (Word.modeAt modes 2) c <;> rfl
  | input =>
    obtain ⟨a, rfl⟩ := List.length_eq_one_iff.1 hl
    simp only [resolve, Tape.outcome_bind, ht 0 a rfl, operands, shown, Opcode.operands]
    cases operand cells base .write (Word.modeAt modes 0) a <;> rfl
  | output | adjustRelativeBase =>
    obtain ⟨a, rfl⟩ := List.length_eq_one_iff.1 hl
    simp only [resolve, Tape.outcome_bind, hv 0 a rfl, operands, shown, Opcode.operands]
    cases operand cells base .read (Word.modeAt modes 0) a <;> rfl
  | jumpIfTrue | jumpIfFalse =>
    obtain ⟨a, b, rfl⟩ := List.length_eq_two.1 hl
    simp only [resolve, Tape.outcome_bind, hv 0 a rfl, hv 1 b rfl, operands, shown, Opcode.operands]
    cases operand cells base .read (Word.modeAt modes 0) a with
    | error kind => rfl
    | ok x => cases operand cells base .read (Word.modeAt modes 1) b <;> rfl
  | halt =>
    rw [List.eq_nil_of_length_eq_zero hl]
    rfl

end Decode

section Fetch

variable {memory : Memory}

theorem tape_word (hw : program[offset]? = some word) (base : Int) :
    ((tape program base offset).reader offset).on () = (.ok word, ()) := by
  refine (Tape.reader_on _ (Int.natCast_nonneg offset)).trans ?_
  simp [Tape.cell, tape, hw]

/-- A word that cannot be split is not decoded. -/
theorem fetch_malformed {f : Fault} (hm : Memory.ofCells (program.map .int) none = .ok memory)
    (hw : program[offset]? = some word) (hs : Word.split word = .error f) (base : Int) :
    (memory.fetch base offset).1 = .error f := by
  rw [fetch_program hm, Access.decode_malformed (tape_word hw base) hs]

/-- An instruction whose word is split is not decoded only for an address or
because it writes to an operand that is immediate. -/
theorem fetch_stopped {f : Fault} (hm : Memory.ofCells (program.map .int) none = .ok memory)
    (hw : program[offset]? = some word) (hs : Word.split word = .ok (op, modes))
    (hf : (memory.fetch base offset).1 = .error f) :
    f.kind = .addressError ∨ ∃ i, f = .immediateTarget i word offset := by
  rw [fetch_program hm] at hf
  let F (f : Fault) : Prop := f.kind = .addressError ∨ ∃ i, f = .immediateTarget i word offset
  have read (a : Int) :
      Access.Faults (fun _ => True) F ((tape program base offset).reader a) := by
    intro _ _
    unfold Tape.reader
    split
    · exact ⟨trivial, fun f h => by cases h; exact .inl rfl⟩
    · exact ⟨trivial, fun f h => by cases h⟩
  exact Access.decode_stopped (tape_word hw base) hs trivial read (fun i => .inr ⟨i, rfl⟩)
    (fun a => .inl rfl) hf

/-- Where an instruction stands whole, decoding comes to its operation and what its
operands come to. -/
theorem fetch_shown (hm : Memory.ofCells (program.map .int) none = .ok memory)
    (hw : program[offset]? = some word) (hs : Word.split word = .ok (op, modes))
    (hl : literals.length = op.operands.length)
    (hstands : ∀ i literal, literals[i]? = some literal → program[offset + 1 + i]? = some literal)
    (base : Int) :
    ((memory.fetch base offset).1.mapError Fault.kind).map
        (fun decoded => (decoded.1.opcode, decoded.1.operands, decoded.2)) =
      (operands (fun a => program.getD a 0) base op.operands (shown modes 0 literals)).map
        fun xs => (op, xs, (offset + 1 + op.operands.length : Int)) := by
  let t := tape program base offset
  have hpointer : 0 ≤ t.pointer := Int.natCast_nonneg offset
  have hliteral (i : Nat) (literal : Int) (h : literals[i]? = some literal) :
      t.literal i = literal := by
    have ha : (t.pointer + 1 + i).toNat = offset + 1 + i := by
      simp only [t, tape]
      omega
    rw [Tape.literal, Tape.cell, ha]
    simp [t, tape, hstands i literal h]
  have hvalue (i : Nat) (literal : Int) (h : literals[i]? = some literal) :
      Tape.outcome (operandValue t.reader base (Word.modeAt modes i) (offset + 1 + i)) =
        operand t.cells base .read (Word.modeAt modes i) literal := by
    rw [← hliteral i literal h]
    exact (outcome_operand hpointer _ i).1
  have htarget (i : Nat) (literal : Int) (h : literals[i]? = some literal) :
      Tape.outcome (operandTarget t.reader base word offset i (Word.modeAt modes i)) =
        operand t.cells base .write (Word.modeAt modes i) literal := by
    rw [← hliteral i literal h]
    exact (outcome_operand hpointer _ i).2 word
  have hshown := outcome_shown hl hvalue htarget
  rw [fetch_program hm, Access.decode_split (tape_word hw base) hs, ← Tape.outcome,
    Tape.outcome_bind]
  change Except.map _ (Tape.outcome (resolve _ _ op) >>= fun i => .ok (i, _)) =
    Except.map _ (operands t.cells base op.operands (shown modes 0 literals))
  generalize Tape.outcome (resolve _ _ op) = resolved at hshown ⊢
  generalize operands t.cells base op.operands (shown modes 0 literals) = answers at hshown ⊢
  cases resolved <;> cases answers <;> cases hshown <;> rfl

/-- The decoder finds no instruction, an immediate target apart, just where the
word cannot be split. -/
theorem undecoded_iff (hm : Memory.ofCells (program.map .int) none = .ok memory)
    (hw : program[offset]? = some word) (base : Int) :
    (∃ f, Undecoded memory base offset f ∧ ∀ i word p, f ≠ .immediateTarget i word p) ↔
      ∃ f, Word.split word = .error f := by
  constructor
  · rintro ⟨f, ⟨hf, hk⟩, himmediate⟩
    cases hs : Word.split word with
    | error g => exact ⟨g, rfl⟩
    | ok split =>
      rcases fetch_stopped hm hw hs hf with haddress | ⟨i, rfl⟩
      · simp [haddress] at hk
      · exact absurd rfl (himmediate i word offset)
  · rintro ⟨f, hs⟩
    obtain ⟨hk, himmediate⟩ := Access.split_fault hs
    exact ⟨f, ⟨fetch_malformed hm hw hs base, hk⟩, himmediate⟩

/-- Where an instruction is listed, decoding comes to it and ends behind the cells
shown. -/
theorem Line.Stands.fetch {word' : Int} (h : l.Stands program word rest)
    (hm : Memory.ofCells (program.map .int) none = .ok memory)
    (hc : l.content = .instruction word' op modes literals) (base : Int) :
    ((memory.fetch base l.offset).1.mapError Fault.kind).map
        (fun decoded => (decoded.1.opcode, decoded.1.operands, decoded.2)) =
      (operands (fun a => program.getD a 0) base op.operands (shown modes 0 literals)).map
        fun xs => (op, xs, ((l.offset + l.content.cells.length : Nat) : Int)) := by
  obtain ⟨hs, rfl, harity, rfl⟩ := h.instruction hc
  have hw : program[l.offset]? = some word' := h.getElem? 0
  have hlength := List.length_take_of_le harity
  have hend : ((l.offset + l.content.cells.length : Nat) : Int) =
      l.offset + 1 + op.operands.length := by
    rw [hc, Content.cells, List.length_cons, hlength]
    omega
  rw [hend]
  refine fetch_shown hm hw hs hlength (fun i literal hi => ?_) base
  rw [Nat.add_assoc, h.getElem?, Nat.add_comm 1 i, List.getElem?_cons_succ]
  rw [List.getElem?_take] at hi
  split at hi
  · exact hi
  · cases hi

end Fetch

/-- Every line of a program agrees with the decoder at its address, whatever the
relative base. -/
theorem line_agrees {memory : Memory} (base : Int)
    (hm : Memory.ofCells (program.map .int) none = .ok memory)
    (hl : (lines 0 program)[k]? = some l) :
    l.Agrees program memory base (startAfter program k) := by
  have hnext := startAfter_eq hl
  obtain ⟨word, rest, h⟩ := stands hl
  have hw : program[l.offset]? = some word := h.getElem? 0
  refine ⟨?_, ?_, ?_, ?_⟩
  · rw [undecoded_iff hm hw]
    exact h.isData_iff
  · rw [h.cells, h.content, ← cells_first word rest, List.take_left]
  · intro hinstruction
    cases hc : l.content with
    | data word' => exact absurd (isData_iff.2 ⟨word', hc⟩) hinstruction
    | instruction word' op modes literals =>
      obtain ⟨hs, rfl, harity, rfl⟩ := h.instruction hc
      exact ⟨word', op, modes, _, rfl, hs, List.length_take_of_le harity⟩
  · -- An instruction of the same text is the one listed, up to modes that no operand has.
    intro _ op modes literals htext
    have same := Content.text_inj.1 htext
    cases hc : l.content with
    | data word' =>
      rw [hc] at same
      cases same
    | instruction word' op' modes' literals' =>
      rw [hc] at same
      obtain ⟨rfl, hshown⟩ : op' = op ∧ shown modes' 0 literals' = shown modes 0 literals := by
        simpa [Content.meaning] using same
      rw [← hshown, hnext]
      exact h.fetch hm hc base

theorem line_agrees_multiply :
    Memory.ofCells ([1002, 4, 3, 4, 33].map .int) none = .ok ⟨#[1002, 4, 3, 4, 33], none⟩ ∧
      (lines 0 [1002, 4, 3, 4, 33])[0]? =
        some ⟨0, .instruction 1002 .multiply [.position, .immediate] [4, 3, 4]⟩ ∧
      Line.Agrees ⟨0, .instruction 1002 .multiply [.position, .immediate] [4, 3, 4]⟩
        [1002, 4, 3, 4, 33] ⟨#[1002, 4, 3, 4, 33], none⟩ 0 (startAfter [1002, 4, 3, 4, 33] 0) := by
  have hm : Memory.ofCells ([1002, 4, 3, 4, 33].map .int) none =
      .ok ⟨#[1002, 4, 3, 4, 33], none⟩ := by rfl
  have hl : (lines 0 [1002, 4, 3, 4, 33])[0]? =
      some ⟨0, .instruction 1002 .multiply [.position, .immediate] [4, 3, 4]⟩ := by
    decide +kernel
  exact ⟨hm, hl, line_agrees 0 hm hl⟩

/-- The input at address zero writes to an operand that is immediate, which the
decoder refuses. It is listed as an input. -/
theorem immediate_target_listed :
    (lines 0 [103, 0, 99])[0]? = some ⟨0, .instruction 103 .input [.immediate] [0]⟩ ∧
      ¬ (Line.IsData ⟨0, .instruction 103 .input [.immediate] [0]⟩ ↔
        (∃ f, Undecoded ⟨#[103, 0, 99], none⟩ 0 0 f) ∨ Truncated [103, 0, 99] 0) := by
  have hf : (Memory.fetch 0 0 ⟨#[103, 0, 99], none⟩).1 = .error (.immediateTarget 1 103 0) := by
    decide +kernel
  refine ⟨by decide +kernel, fun h => ?_⟩
  obtain ⟨word, hc⟩ := isData_iff.1 (h.2 (.inl ⟨_, hf, .inr rfl⟩))
  cases hc

end Listing
end Intcode
