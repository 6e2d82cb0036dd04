/-
# A step is what the table says

A memory stands for the tape of its cells with zeros behind them. Growth does
not show on the tape, so decoding from a memory follows decoding from its tape,
but for a memory limit that may stop it (`Memory.fetch_follows`).

A step of a machine without a memory limit therefore comes to what the table
says (`Machine.step_tape`): it fails under the class of the first hazard that is
met, or tells the event of the row and leaves its tape.

Key definitions: `Machine.tape`, `Access.Follows`, `Machine.Tells`.
Key theorems: `Memory.fetch_follows`, `Machine.fetch_operands`, `Machine.step_row`,
`Machine.step_tape`.
-/
import Intcode.Proofs.Step
import Intcode.Proofs.Tape

namespace Intcode

/-- The tape that a machine works on: its cells, and zeros behind them. -/
def Machine.tape (m : Machine) : Tape := ⟨m.memory.cell, m.pointer, m.base, m.inputs⟩

/-! ### Decoding from a memory -/

namespace Access

variable {α : Type}

/-- An access to a memory with these cells leaves them and the limit as they
are, and answers as the other does, unless the limit stops it. -/
def Follows (cells : Nat → Int) (x : Access Memory α) (y : Access Unit α) : Prop :=
  ∀ m : Memory, m.cell = cells → (x.on m).2.cell = cells ∧ (x.on m).2.limit = m.limit ∧
    ((x.on m).1 = (y.on ()).1 ∨
      m.limit ≠ none ∧ ∃ f, (x.on m).1 = .error f ∧ f.kind = .memoryLimitExceeded)

theorem follows_compositional (cells : Nat → Int) :
    Compositional (fun _ => True) (fun {_} x y => Follows cells x y) where
  answer _ _ h := ⟨h, rfl, .inl rfl⟩
  fault _ _ _ h := ⟨h, rfl, .inl rfl⟩
  bind {_ _ x y f g} hx hf m h := by
    obtain ⟨hcell, hlimit, hanswer⟩ := hx m h
    simp only [bind_apply]
    rcases hxm : x.on m with ⟨e | a, m'⟩ <;> rw [hxm] at hcell hlimit hanswer
    · refine ⟨hcell, hlimit, ?_⟩
      rcases hanswer with hsame | hstopped
      · left
        rcases hy : y.on () with ⟨e' | a', ⟨⟩⟩ <;> rw [hy] at hsame <;> cases hsame
        rfl
      · obtain ⟨hl, f, hf, hk⟩ := hstopped
        cases hf
        exact .inr ⟨hl, e, rfl, hk⟩
    · rcases hanswer with hsame | ⟨-, f, hf, -⟩
      · rcases hy : y.on () with ⟨e' | a', ⟨⟩⟩ <;> rw [hy] at hsame <;> cases hsame
        obtain ⟨hcell', hlimit', hanswer'⟩ := hf a m' hcell
        exact ⟨hcell', hlimit'.trans hlimit, by rwa [hlimit] at hanswer'⟩
      · cases hf

end Access

namespace Memory

/-- A read follows that of the tape. -/
theorem read_follows (t : Tape) (a : Int) :
    Access.Follows t.cells (Access.of (read a)) (t.reader a) := by
  intro m h
  rw [Access.on_of]
  cases hr : m.refusal? a with
  | some f =>
    rw [read_of_refusal hr]
    refine ⟨h, rfl, ?_⟩
    unfold refusal? at hr
    by_cases hneg : a < 0
    · rw [if_pos hneg] at hr
      cases hr
      left
      rw [Tape.reader, if_pos hneg]
      rfl
    · rw [if_neg hneg] at hr
      right
      split at hr
      · cases hr
      · cases hl : m.limit with
        | none => rw [hl] at hr; cases hr
        | some l =>
          rw [hl] at hr
          dsimp only at hr
          split at hr <;> cases hr
          exact ⟨by simp, _, rfl, rfl⟩
  | none =>
    have hpos : 0 ≤ a := (refusal?_eq_none_iff.1 hr).1
    rw [read_eq hr, Tape.reader, if_neg (by omega)]
    refine ⟨?_, rfl, .inl ?_⟩
    · funext b
      rw [cell_pad, h]
    · rw [h]
      rfl

/-- Decoding from a memory follows decoding from its tape. -/
theorem fetch_follows (t : Tape) :
    Access.Follows t.cells (decode (fun a => Access.of (read a)) t.base t.pointer)
      (decode t.reader t.base t.pointer) :=
  Access.decode_related (Access.follows_compositional t.cells) (fun _ _ => trivial)
    (read_follows t) t.base t.pointer

/-- Without a limit, decoding from a memory answers as decoding from its tape. -/
theorem fetch_answer {m : Memory} {t : Tape} (unlimited : m.limit = none)
    (hcells : m.cell = t.cells) :
    (m.fetch t.base t.pointer).1 = ((decode t.reader t.base t.pointer).on ()).1 := by
  obtain ⟨-, -, hsame | ⟨hl, -⟩⟩ := fetch_follows t m hcells
  · exact hsame
  · exact absurd unlimited hl

end Memory

/-! ### Steps -/

namespace Machine

open Tape Hazard

variable {m : Machine}

theorem fetch_cells (m : Machine) : m.fetch.2.cell = m.memory.cell :=
  (Memory.fetch_follows m.tape m.memory rfl).1

theorem fetch_limit (m : Machine) : m.fetch.2.limit = m.memory.limit :=
  (Memory.fetch_follows m.tape m.memory rfl).2.1

/-- Without a limit a machine decodes what its tape says. -/
theorem fetch_outcome (unlimited : m.memory.limit = none) :
    m.fetch.1.mapError Fault.kind = outcome (decode m.tape.reader m.tape.base m.tape.pointer) :=
  congrArg (Except.mapError Fault.kind) (Memory.fetch_answer (t := m.tape) unlimited rfl)

/-- An instruction that is decoded, within whatever limit, is that of an
operation, and no hazard of its operands is met. -/
theorem fetch_operands {i : Instruction} {next : Int} {decoded : Memory}
    (hf : m.fetch = (.ok (i, next), decoded)) :
    ∃ op, first? (m.tape.operandHazards op) = none ∧ m.tape.instruction op = i := by
  have hanswer := (Memory.fetch_follows m.tape m.memory rfl).2.2
  change m.fetch.1 = _ ∨ _ ∧ ∃ f, m.fetch.1 = _ ∧ _ at hanswer
  rw [hf] at hanswer
  have hout : outcome (decode m.tape.reader m.tape.base m.tape.pointer) = .ok (i, next) := by
    rcases hanswer with hsame | ⟨-, f, hf, -⟩
    · rw [outcome, ← hsame]
      rfl
    · cases hf
  by_cases hneg : m.tape.pointer < 0
  · rw [outcome_decode_negative hneg] at hout
    cases hout
  · rw [outcome_decode (by omega)] at hout
    cases hs : Word.split m.tape.word with
    | error f =>
      rw [hs] at hout
      cases hout
    | ok split =>
      rw [hs] at hout
      obtain ⟨hfirst, heq⟩ := past_ok hout
      exact ⟨split.1, hfirst, congrArg Prod.fst heq⟩

/-- The answer of a step, and the machine after it, are as a row says. If a
hazard is met, the answer is a fault under the class of the first, and the tape
is as it was. -/
def Tells (row : Row) (t : Tape) (hs : List Hazard)
    (told : Except Fault (Option Event) × Machine) : Prop :=
  match first? hs with
  | some kind => (∃ f, told.1 = .error f ∧ f.kind = kind) ∧ told.2.tape = t
  | none => told.1 = .ok row.event ∧ told.2.tape = row.after t

/-- A decoding that fails is a step that fails. -/
theorem step_undecoded (live : m.status ≠ .halted) {kind : Fault.Kind}
    (hf : m.fetch.1.mapError Fault.kind = .error kind) :
    (∃ f, m.step.1 = .error f ∧ f.kind = kind) ∧ m.step.2.tape = m.tape := by
  have hcell := fetch_cells m
  rw [step_eq live]
  rcases h : m.fetch with ⟨f | ⟨i, next⟩, decoded⟩ <;> rw [h] at hf hcell
  · cases hf
    refine ⟨⟨f, rfl, rfl⟩, ?_⟩
    simp only [tape, hcell]
  · cases hf

/-- A step is told by its row if the effect of the instruction, carried out on
the memory that decoding leaves, is. -/
theorem step_tells {row : Row} {hs extra : List Hazard} {i : Instruction} {next : Int}
    (live : m.status ≠ .halted) (unlimited : m.memory.limit = none)
    (hf : m.fetch.1.mapError Fault.kind = past hs (i, next)) (hrow : row.hazards = hs ++ extra)
    (carried : first? hs = none → ∀ memory : Memory, memory.cell = m.memory.cell →
      memory.limit = none →
      Tells row m.tape extra (carryOut next (i.effect next) m.toRegisters memory)) :
    Tells row m.tape row.hazards m.step := by
  rw [hrow, Tells, first?_append]
  cases hfirst : first? hs with
  | some kind =>
    have hfail : past hs (i, next) = .error kind := by rw [past, hfirst]
    exact step_undecoded live (hf.trans hfail)
  | none =>
    have hanswer : past hs (i, next) = .ok (i, next) := by rw [past, hfirst]
    have hcell := fetch_cells m
    have hlimit := (fetch_limit m).trans unlimited
    rw [hanswer] at hf
    rcases h : m.fetch with ⟨f | decodedInstruction, decoded⟩ <;> rw [h] at hf hcell hlimit <;>
      cases hf
    have hcarried := carried hfirst decoded hcell hlimit
    rw [Tells] at hcarried
    rw [step_fetched live h]
    exact hcarried

section Effects

variable {memory : Memory} {dst v next : Int} {rest : List Int}

theorem address_nonneg {t : Tape} {i : Nat} (h : first? (t.writes i) = none) :
    0 ≤ t.address i := by
  by_contra hneg
  have hlt : t.address i < 0 := by omega
  by_cases hm : t.mode i = 1
  · simp [writes, first?, hm] at h
  · simp [writes, first?, hm, hlt] at h

/-- A value is written if it fits. -/
theorem write_tells (hcell : memory.cell = m.memory.cell) (hlimit : memory.limit = none)
    (hdst : 0 ≤ dst) (v : Int) :
    (first? (fits v) = some .cellOverflow ∧
      ∃ f, memory.write dst (.int v) = (.error f, memory) ∧ f.kind = .cellOverflow) ∨
    (first? (fits v) = none ∧ ∃ memory', memory.write dst (.int v) = (.ok (), memory') ∧
      memory'.cell = fun b => if b = dst.toNat then v else m.memory.cell b) := by
  by_cases hv : InCell v
  · obtain ⟨memory', hw⟩ := Memory.write_unlimited hlimit hdst hv
    refine .inr ⟨by simp [fits, first?, hv], memory', hw, ?_⟩
    funext b
    rw [(Memory.write_ok hw).2.2 b, hcell]
  · exact .inl ⟨by simp [fits, first?, hv], _, Memory.write_overflow hv, rfl⟩

theorem store_tells (hcell : memory.cell = m.memory.cell) (hlimit : memory.limit = none)
    (hdst : 0 ≤ dst) :
    Tells { m.tape.moves 0 with written := some (dst, v), pointer := next } m.tape (fits v)
      (carryOut next (.store dst v) m.toRegisters memory) := by
  rw [Tells]
  rcases write_tells hcell hlimit hdst v with ⟨hf, f, hw, hk⟩ | ⟨hf, memory', hw, hcell'⟩ <;>
    simp only [hf, carryOut, hw]
  · refine ⟨⟨f, rfl, hk⟩, ?_⟩
    simp only [tape, hcell]
  · refine ⟨rfl, ?_⟩
    simp only [tape, hcell']
    rfl

theorem take_tells (hcell : memory.cell = m.memory.cell) (hlimit : memory.limit = none)
    (hdst : 0 ≤ dst) (hq : m.inputs = v :: rest) :
    Tells { m.tape.moves 0 with written := some (dst, v), pointer := next, inputs := rest } m.tape
      (fits v) (carryOut next (.take dst) m.toRegisters memory) := by
  rw [Tells]
  rcases write_tells hcell hlimit hdst v with ⟨hf, f, hw, hk⟩ | ⟨hf, memory', hw, hcell'⟩ <;>
    simp only [hf, carryOut, hq, hw]
  · refine ⟨⟨f, rfl, hk⟩, ?_⟩
    simp only [tape, hcell]
  · refine ⟨rfl, ?_⟩
    simp only [tape, hcell']
    rfl

theorem wait_tells (hcell : memory.cell = m.memory.cell) (hq : m.inputs = []) :
    Tells { m.tape.moves 0 with event := some (.awaiting dst) } m.tape []
      (carryOut next (.take dst) m.toRegisters memory) := by
  rw [Tells, first?, carryOut, hq]
  refine ⟨rfl, ?_⟩
  simp [tape, hcell, hq, Row.after, moves]

theorem rebase_tells {offset : Int} (hcell : memory.cell = m.memory.cell) :
    Tells { m.tape.moves 0 with pointer := next, base := m.base + offset } m.tape
      (fits (m.base + offset)) (carryOut next (.rebase offset) m.toRegisters memory) := by
  rw [Tells]
  by_cases hv : InCell (m.base + offset)
  · have hf : first? (fits (m.base + offset)) = none := by simp [fits, first?, hv]
    simp only [hf, carryOut, Datum.toCell_int hv]
    refine ⟨rfl, ?_⟩
    simp only [tape, hcell]
    rfl
  · have hf : first? (fits (m.base + offset)) = some .cellOverflow := by
      simp [fits, first?, hv]
    simp only [hf, carryOut, Datum.toCell, hv, if_false]
    refine ⟨⟨_, rfl, rfl⟩, ?_⟩
    simp only [tape, hcell]

theorem emit_tells (hcell : memory.cell = m.memory.cell) :
    Tells { m.tape.moves 0 with event := some (.output v), pointer := next } m.tape []
      (carryOut next (.emit v) m.toRegisters memory) := by
  refine ⟨rfl, ?_⟩
  simp only [tape, carryOut, hcell]
  rfl

theorem goto_tells {target : Int} (hcell : memory.cell = m.memory.cell) :
    Tells { m.tape.moves 0 with pointer := target } m.tape []
      (carryOut next (.goto target) m.toRegisters memory) := by
  refine ⟨rfl, ?_⟩
  simp only [tape, carryOut, hcell]
  rfl

theorem halt_tells (hcell : memory.cell = m.memory.cell) :
    Tells { m.tape.moves 0 with event := some .halted } m.tape []
      (carryOut next .halt m.toRegisters memory) := by
  refine ⟨rfl, ?_⟩
  simp [tape, carryOut, hcell, Row.after, moves]

end Effects

/-- The step of a machine whose word has an opcode is told by the row of this
opcode. -/
theorem step_row {op : Opcode} {row : Row} (live : m.status ≠ .halted)
    (unlimited : m.memory.limit = none) (hcode : m.tape.opcode = op.code)
    (hrow : m.tape.row? = some row)
    (hf : m.fetch.1.mapError Fault.kind = past (m.tape.operandHazards op)
      (m.tape.instruction op, m.tape.pointer + (op.operands.length + 1 : Nat))) :
    Tells row m.tape row.hazards m.step := by
  have stored {i : Nat} {hs : List Hazard} (h : first? (hs ++ m.tape.writes i) = none) :
      0 ≤ m.tape.address i := address_nonneg (first?_append_none.1 h).2
  rw [row?, hcode] at hrow
  cases op with
  | add | multiply | lessThan | equals =>
    cases hrow
    exact step_tells live unlimited hf rfl fun hnone memory hcell hlimit =>
      store_tells hcell hlimit (stored hnone)
  | input =>
    cases hrow
    have hinputs : m.tape.inputs = m.inputs := rfl
    rcases hq : m.inputs with _ | ⟨v, rest⟩ <;> simp only [takes, hinputs, hq]
    · exact step_tells live unlimited hf (List.append_nil _).symm fun _ memory hcell _ =>
        wait_tells hcell hq
    · exact step_tells live unlimited hf rfl fun hnone memory hcell hlimit =>
        take_tells hcell hlimit (address_nonneg hnone) hq
  | output =>
    cases hrow
    exact step_tells live unlimited hf (List.append_nil _).symm fun _ memory hcell _ =>
      emit_tells hcell
  | jumpIfTrue | jumpIfFalse =>
    cases hrow
    exact step_tells live unlimited hf (List.append_nil _).symm fun _ memory hcell _ =>
      goto_tells hcell
  | adjustRelativeBase =>
    cases hrow
    exact step_tells live unlimited hf rfl fun _ memory hcell _ => rebase_tells hcell
  | halt =>
    cases hrow
    exact step_tells live unlimited hf rfl fun _ memory hcell _ => halt_tells hcell

/-- A step of a running machine without a memory limit comes to what the table
says of its tape. If some condition is fatal, the step fails under the class of
the first that is met. Otherwise it succeeds and tells the event of the row,
and pointer, relative base, queue and tape are those of the row: of the cells
only the one that the row writes may differ. -/
theorem step_tape {m : Machine} (running : m.status = .running)
    (unlimited : m.memory.limit = none) :
    match m.tape.fatal? with
    | some kind => (∃ f, m.step.1 = .error f ∧ f.kind = kind) ∧ m.step.2.tape = m.tape
    | none => ∃ row, m.tape.row? = some row ∧ m.step.1 = .ok row.event ∧
        m.step.2.tape = row.after m.tape := by
  have live : m.status ≠ .halted := by rw [running]; decide
  have hout := fetch_outcome unlimited
  by_cases hneg : m.tape.pointer < 0
  · have hfatal : m.tape.fatal? = some .addressError := by
      simp [fatal?, hazards, first?, hneg]
    rw [outcome_decode_negative hneg] at hout
    rw [hfatal]
    exact step_undecoded live hout
  have hfatal : m.tape.fatal? =
      (first? m.tape.wordHazards).or (first? ((m.tape.row?.map Row.hazards).getD [])) := by
    rw [← first?_append]
    simp [fatal?, hazards, first?, hneg]
  rw [outcome_decode (by omega)] at hout
  have hsplit := split_word m.tape
  have hsome := isNone_row? m.tape
  cases hs : Word.split m.tape.word with
  | error f =>
    rw [hs] at hout hsplit
    rw [hsplit] at hfatal
    rw [hfatal]
    exact step_undecoded live hout
  | ok split =>
    obtain ⟨op, modes⟩ := split
    rw [hs] at hout hsplit
    obtain ⟨hfirst, hcode, -⟩ := hsplit
    rw [hcode, Opcode.ofCode?_code] at hsome
    obtain ⟨row, hrow⟩ : ∃ row, m.tape.row? = some row := by
      cases hr : m.tape.row? with
      | some row => exact ⟨row, rfl⟩
      | none => rw [hr] at hsome; cases hsome
    have hnext : m.tape.pointer + 1 + (op.operands.length : Int) =
        m.tape.pointer + (op.operands.length + 1 : Nat) := by omega
    dsimp only at hout
    rw [hnext] at hout
    have htells := step_row live unlimited hcode hrow hout
    rw [hfirst, hrow] at hfatal
    simp only [Option.none_or, Option.map_some, Option.getD_some] at hfatal
    rw [Tells] at htells
    rw [hfatal]
    cases hf : first? row.hazards with
    | some kind =>
      rw [hf] at htells
      exact htells
    | none =>
      rw [hf] at htells
      exact ⟨row, hrow, htells⟩

/-- An addition of a cell past the end, in relative mode, and an immediate value,
which goes to another cell past the end. -/
theorem step_tape_past_end :
    let m : Machine := { base := 10, memory := ⟨#[1201, 20, 7, 5], none⟩ }
    m.status = .running ∧ m.memory.limit = none ∧ m.tape.fatal? = none ∧
      m.step.1 = .ok none ∧ m.step.2.pointer = 4 ∧ m.step.2.memory.cell 5 = 7 ∧
      ∀ a, a ≠ 5 → m.step.2.memory.cell a = m.memory.cell a := by
  intro m
  have hfatal : m.tape.fatal? = none := by decide
  have htold := step_tape (m := m) rfl rfl
  rw [hfatal] at htold
  obtain ⟨row, hrow, hanswer, htape⟩ := htold
  have hopcode : m.tape.opcode = 1 := by decide
  have hvalue : m.tape.value 0 + m.tape.value 1 = 7 := by decide
  have haddress : m.tape.address 2 = 5 := by decide
  rw [row?, hopcode, hvalue] at hrow
  cases hrow
  have hcells : m.step.2.memory.cell = fun b => if b = 5 then 7 else m.memory.cell b := by
    have h := congrArg Tape.cells htape
    simp only [stores, Row.after, haddress] at h
    exact h
  refine ⟨rfl, rfl, hfatal, hanswer, congrArg Tape.pointer htape, ?_, fun a ha => ?_⟩
  · rw [hcells]
    rfl
  · rw [hcells]
    exact if_neg ha

end Machine
end Intcode
