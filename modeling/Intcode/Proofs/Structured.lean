/-
# The shape of structured programs

From every source a structured program is drawn as a row of whole instructions, all
legal and none a halt, then perhaps one word that ends it early, and then a halt
(`Case.gives_structured`). That word is refused wherever it stands, at every relative base: some
words have no opcode or a digit that is no mode, and some write to an immediate operand
(`Word.refused_of_split`, `Word.refused_of_immediate`). An instruction is drawn with all its
modes, and its word is split into these but for position modes at the end, which an operand
has without them (`Word.modeAt_withoutDefaults`).

Key definitions: `Word.Refused`, `Case.Row`.
Key theorems: `Word.refused_of_split`, `Word.refused_of_immediate`, `Case.gives_legal`,
`Case.gives_refused`, `Case.gives_row`, `Case.gives_structured`.
-/
import Intcode.Proofs.Generate
import Intcode.Proofs.Legal
import Intcode.Proofs.Listing
import Intcode.Proofs.WordFormat

namespace Intcode

/-! ### Words that are refused wherever they stand -/

theorem Mode.ofDigit_eq_immediate {d : Nat} (h : Mode.ofDigit d = .immediate) : d = 1 := by
  match d with
  | 1 => rfl
  | 0 | 2 | _ + 3 => cases h

namespace Word

/-- In a memory without a limit the word is not decoded, wherever it stands and whatever the
relative base and the cells behind it are. -/
def Refused (word : Int) : Prop :=
  ∀ (memory : Memory) (base : Int) (offset : Nat), memory.limit = none →
    memory.cell offset = word → ∃ f, Listing.Undecoded memory base offset f

variable {word : Int} {op : Opcode} {modes : List Mode}

/-- What is refused on a tape is refused in a memory. -/
theorem refused_of_tape (h : ∀ t : Tape, 0 ≤ t.pointer → t.word = word →
    ∃ kind, Tape.outcome (decode t.reader t.base t.pointer) = .error kind ∧
      (kind = .invalidInstruction ∨ kind = .invalidMode)) : Refused word := by
  intro memory base offset unlimited hword
  let t : Tape := ⟨memory.cell, offset, base, []⟩
  obtain ⟨kind, houtcome, hkind⟩ := h t (Int.natCast_nonneg offset) hword
  have hanswer := Memory.fetch_answer (t := t) unlimited rfl
  rw [Tape.outcome, ← hanswer] at houtcome
  rcases hfetch : (memory.fetch t.base t.pointer).1 with f | a <;> rw [hfetch] at houtcome
  · cases houtcome
    exact ⟨f, hfetch, hkind⟩
  · cases houtcome

theorem refused_of_split {f : Fault} (h : split word = .error f) : Refused word := by
  refine refused_of_tape fun t hpointer hword => ⟨f.kind, ?_, (Access.split_fault h).1⟩
  rw [Tape.outcome_decode hpointer, hword, h]

/-- A word is refused if it writes to an operand and all its operands are immediate. -/
theorem refused_of_immediate (h : split word = .ok (op, modes)) (hwrite : .write ∈ op.operands)
    (himmediate : ∀ i < op.operands.length, modeAt modes i = .immediate) : Refused word := by
  refine refused_of_tape fun t hpointer hword => ⟨.invalidMode, ?_, .inr rfl⟩
  have hsplit := t.split_word
  rw [hword, h] at hsplit
  have hhalt : op ≠ .halt := by
    rintro rfl
    cases hwrite
  have hmode (i : Nat) (hi : i < op.operands.length) : t.mode i = 1 := by
    have hm := himmediate i hi
    rw [hsplit.2.2 hhalt, modeAt_digits] at hm
    exact Mode.ofDigit_eq_immediate hm
  have hfirst : Hazard.first? (t.operandHazards op) = some .invalidMode := by
    cases op with
    | add | multiply | lessThan | equals =>
      have h0 := hmode 0 (by decide)
      have h1 := hmode 1 (by decide)
      have h2 := hmode 2 (by decide)
      simp [Tape.operandHazards, Tape.reads, Tape.writes, Hazard.first?, h0, h1, h2]
    | input =>
      have h0 := hmode 0 (by decide)
      simp [Tape.operandHazards, Tape.writes, Hazard.first?, h0]
    | output | jumpIfTrue | jumpIfFalse | adjustRelativeBase | halt =>
      simp [Opcode.operands] at hwrite
  rw [Tape.outcome_decode hpointer, hword, h]
  simp only [Hazard.past, hfirst]

theorem modeAt_withoutDefaults (ms : List Mode) (i : Nat) :
    modeAt (withoutDefaults ms) i = modeAt ms i := by
  induction ms generalizing i with
  | nil => rfl
  | cons m ms ih =>
    rw [withoutDefaults_cons]
    split
    · rename_i h
      obtain ⟨hnone, rfl⟩ := h
      cases i with
      | zero => rfl
      | succ i =>
        show _ = modeAt ms i
        rw [← ih, hnone]
        rfl
    · cases i with
      | zero => rfl
      | succ i => exact ih i

end Word

namespace Case

open Draw Listing

/-! ### Instructions -/

theorem gives_drawAll_each {σ α β : Type} {draw : α → Draw σ β} {P : α → β → Prop}
    (h : ∀ a, Gives (draw a) (P a)) (as : List α) :
    Gives (drawAll draw as) fun bs => List.Forall₂ P as bs := by
  induction as with
  | nil => exact gives_pure .nil
  | cons a as ih =>
    rw [drawAll]
    exact (h a).bind fun b hb => ih.bind fun bs hbs => gives_pure (.cons hb hbs)

variable {σ : Type} [Source σ]

theorem gives_drawMode_write (kind : OperandKind) :
    Gives (drawMode kind : Draw σ Mode) fun mode => kind = .write → mode ≠ .immediate := by
  cases kind with
  | read => exact gives_choose fun _ _ => nofun
  | write => exact gives_choose (by decide)

theorem gives_drawOperand_any {span : Int} (h : 0 ≤ span) (mode : Mode) :
    Gives (drawOperand span mode : Draw σ Int) fun _ => True := by
  have any {low high : Int} (hle : low ≤ high) :
      Gives (integer low high : Draw σ Int) fun _ => True :=
    (gives_integer hle).mono fun _ _ => trivial
  unfold drawOperand
  refine .ite (fun _ => any (by omega)) fun _ => ?_
  exact (gives_chance negativeAddress).bind fun b _ =>
    .ite (fun _ => any (by decide)) fun _ => any h

/-- An instruction is drawn whole and legal, with one input if it takes one. -/
theorem gives_legal {span : Int} (h : 0 ≤ span) {op : Opcode} (hop : op ≠ .halt) :
    Gives (drawInstruction span op : Draw σ (List Int × List Int)) fun p =>
      ∃ c : Content, p.1 = c.cells ∧ c.Legal ∧ c.operation? = some op ∧
        p.2.length = if op = .input then 1 else 0 := by
  unfold drawInstruction
  refine (gives_drawAll_each gives_drawMode_write _).bind fun modes hmodes => ?_
  refine (gives_drawAll (gives_drawOperand_any h) _).bind fun operands hoperands => ?_
  have hlength : operands.length = op.operands.length := hoperands.1.trans hmodes.length_eq.symm
  have hwrites : ∀ i < op.operands.length, op.operands[i]? = some .write →
      Word.modeAt (Word.withoutDefaults modes) i ≠ .immediate := by
    intro i hi hwrite
    have hi' : i < modes.length := hmodes.length_eq ▸ hi
    have hmode := hmodes.get hi hi'
    rw [Word.modeAt_withoutDefaults, Word.modeAt, List.getD_eq_getElem _ _ hi']
    rw [List.getElem?_eq_getElem hi] at hwrite
    exact hmode (Option.some.inj hwrite)
  have legal : (Content.instruction (Word.ofModes op modes) op (Word.withoutDefaults modes)
      operands).Legal := .instruction (Word.split_ofModes hop modes) hlength hwrites
  refine .ite (fun hinput => ?_) fun hinput => ?_
  · refine (gives_times (P := fun _ => True) ((gives_integer (by decide)).mono fun _ _ => trivial)
      1).bind fun inputs hinputs => gives_pure ⟨_, rfl, legal, rfl, ?_⟩
    rw [if_pos hinput, hinputs.1]
  · refine gives_pure ⟨_, rfl, legal, rfl, ?_⟩
    rw [if_neg hinput]
    rfl

/-! ### The word that ends a program early -/

/-- A malformed word is refused, also if its operands are the halt behind it and cells past the
end. -/
theorem gives_refused : Gives (drawMalformed : Draw σ Int) Word.Refused := by
  unfold drawMalformed
  refine (gives_integer (by decide)).bind fun unknown hunknown => gives_choose ?_
  have hzero : Word.Refused 0 := Word.refused_of_split Word.split_zero
  have hopcode : Word.Refused unknown := by
    have hnone : Opcode.ofCode? (unknown.toNat % 100) = none :=
      Opcode.ofCode?_eq_none_iff.2 (by omega)
    refine Word.refused_of_split (f := .unknownOpcode (unknown.toNat % 100) unknown) ?_
    rw [Word.split_digits (by omega), hnone]
  have hdigit : Word.Refused 301 := by
    refine Word.refused_of_split (f := .unknownMode 3 301) ?_
    rw [Word.split_digits (by decide)]
    rfl
  have hsum : Word.Refused 11101 := by
    have hsplit : Word.split 11101 = .ok (.add, [.immediate, .immediate, .immediate]) :=
      Word.split_of_eq (by decide) (by decide) (by decide)
    exact Word.refused_of_immediate hsplit (by decide) (by decide)
  have hinput : Word.Refused 103 := by
    have hsplit : Word.split 103 = .ok (.input, [.immediate]) :=
      Word.split_of_eq (by decide) (by decide) (by decide)
    exact Word.refused_of_immediate hsplit (by decide) (by decide)
  intro word hword
  simp only [List.mem_cons, List.not_mem_nil, or_false] at hword
  rcases hword with rfl | rfl | rfl | rfl | rfl
  · exact hzero
  · exact hopcode
  · exact hdigit
  · exact hsum
  · exact hinput

/-! ### Structured programs -/

/-- Cells that are a row of legal instructions, none of which is a halt, and then a refused word
if there is one. There are as many inputs as the row has instructions that take one. -/
structure Row (cells inputs : List Int) (row : List Content) (malformed : Option Int) : Prop where
  cells : cells = cellsOf row ++ malformed.toList
  legal : ∀ c ∈ row, c.Legal ∧ ∃ op ∈ Opcode.operations, c.operation? = some op
  refused : ∀ word, malformed = some word → Word.Refused word
  inputs : inputs.length = row.countP (·.operation? = some .input)

section Row

variable {cells cells' inputs inputs' : List Int} {row : List Content} {malformed : Option Int}

theorem row_nil : Row [] [] [] none := ⟨rfl, nofun, nofun, rfl⟩

/-- A refused word ends a row, and takes no input. -/
theorem row_refused {word : Int} (h : Word.Refused word) : Row [word] [] [] (some word) := by
  refine ⟨rfl, nofun, ?_, rfl⟩
  rintro _ ⟨⟩
  exact h

/-- An instruction in front of a row. -/
theorem Row.cons {c : Content} {op : Opcode} (h : Row cells' inputs' row malformed)
    (hcells : cells = c.cells) (hlegal : c.Legal) (hop : op ∈ Opcode.operations)
    (hoperation : c.operation? = some op) (hinputs : inputs.length = if op = .input then 1 else 0) :
    Row (cells ++ cells') (inputs ++ inputs') (c :: row) malformed where
  cells := by rw [hcells, h.cells, cellsOf_cons, List.append_assoc]
  legal := List.forall_mem_cons.2 ⟨⟨hlegal, op, hop, hoperation⟩, h.legal⟩
  refused := h.refused
  inputs := by
    rw [List.length_append, hinputs, h.inputs, List.countP_cons, hoperation, Nat.add_comm]
    simp only [Option.some.injEq, decide_eq_true_eq]

end Row

theorem operations_mem {family : Family} {op : Opcode} {ops : List Opcode}
    (h : family.operations = some (op, ops)) : ∀ o ∈ op :: ops, o ∈ Opcode.operations := by
  cases family <;> cases h <;> decide

/-- Up to `n` instructions are drawn as a row, with the word that ends it early counted, and one
at least unless `n` is zero. -/
theorem gives_row {span : Int} (h : 0 ≤ span) (n : Nat) :
    Gives (drawInstructions span n : Draw σ (List Int × List Int)) fun p =>
      ∃ row malformed, Row p.1 p.2 row malformed ∧ row.length + malformed.toList.length ≤ n ∧
        (n ≠ 0 → 1 ≤ row.length + malformed.toList.length) := by
  induction n with
  | zero => exact gives_pure ⟨[], none, row_nil, Nat.le_refl 0, nofun⟩
  | succ n ih =>
    rw [drawInstructions]
    have hfamily : Gives (Family.draw : Draw σ Family) fun _ => True :=
      gives_weighted fun _ _ => trivial
    refine hfamily.bind fun family _ => ?_
    cases hoperations : family.operations with
    | none =>
      refine gives_refused.bind fun word hword => gives_pure ?_
      exact ⟨[], some word, row_refused hword, Nat.succ_le_succ (Nat.zero_le n), fun _ =>
        Nat.le_refl 1⟩
    | some operations =>
      obtain ⟨op, ops⟩ := operations
      refine (gives_choose (operations_mem hoperations)).bind fun op hop => ?_
      have hne : op ≠ .halt := Opcode.mem_operations_iff.1 hop
      refine (gives_legal h hne).bind fun p hp => ih.bind fun q hq => ?_
      obtain ⟨c, hcells, hlegal, hoperation, hinputs⟩ := hp
      obtain ⟨row, malformed, hrow, hmost, -⟩ := hq
      have hcons := hrow.cons hcells hlegal hop hoperation hinputs
      refine gives_pure ⟨c :: row, malformed, hcons, ?_, ?_⟩
      · rw [List.length_cons]
        omega
      · rw [List.length_cons]
        omega

/-- From every source a structured program is drawn, and it is a row of legal instructions, then
perhaps a refused word, and then a halt. Of instructions and refused words there are at least one
and at most as many as were asked for. -/
theorem gives_structured {maxInstructions : Int} (h : 1 ≤ maxInstructions) :
    Gives (drawStructured maxInstructions : Draw σ Case) fun c => ∃ cells row malformed,
      c.program = cells ++ [99] ∧ Row cells c.inputs row malformed ∧
        1 ≤ row.length + malformed.toList.length ∧
        (row.length + malformed.toList.length : Int) ≤ maxInstructions := by
  unfold drawStructured
  refine (gives_integer h).bind fun count hcount => ?_
  refine (gives_row (by omega) _).bind fun p hp => ?_
  obtain ⟨row, malformed, hrow, hmost, hsome⟩ := hp
  refine gives_pure ⟨p.1, row, malformed, rfl, hrow, hsome (by omega), ?_⟩
  omega

/-- A structured program of up to three instructions that the Mersenne Twister draws. -/
theorem gives_structured_three : ∃ c rest cells row malformed,
    (drawStructured 3).on (Twister.ofSeed 7) = (.ok c, rest) ∧ c.program = cells ++ [99] ∧
      Row cells c.inputs row malformed ∧ 1 ≤ row.length + malformed.toList.length ∧
      (row.length + malformed.toList.length : Int) ≤ 3 := by
  have hone : (1 : Int) ≤ 3 := by decide
  obtain ⟨c, rest, hdrawn, cells, row, malformed, hshape⟩ :=
    gives_structured hone (Twister.ofSeed 7)
  exact ⟨c, rest, cells, row, malformed, hdrawn, hshape⟩

end Case
end Intcode
