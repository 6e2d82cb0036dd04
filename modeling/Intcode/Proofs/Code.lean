/-
# Code in memory

What is decoded where given cells stand (`Memory.Holds`), for operands that
need no growth of the memory. From this, one lemma for each instruction of
the code of an expression: the step it makes on a machine whose relative base
is the stack pointer (`Machine.At`).

Key definitions: `Memory.Holds`, `Memory.store`, `Machine.At`.
Key theorems: `Memory.holds_append`, `Machine.At.fetch`, `Machine.step_binary`,
`Machine.step_pushConstant`, `Machine.step_pushInput`, `Machine.fetch_binaryTop`,
`Machine.step_moveStack`, `Machine.step_jumpIfZero`, `Machine.step_jumpAlways`.
-/
import Intcode.Expr.Code
import Intcode.Proofs.Run
import Intcode.Proofs.Word

namespace Intcode
namespace Memory

/-- These cells stand in the memory from an address on. -/
def Holds (m : Memory) : Nat → List Int → Prop
  | _, [] => True
  | p, x :: xs => m.cells[p]? = some x ∧ m.Holds (p + 1) xs

/-- The memory with a value in a cell, extended to have the cell. -/
def store (a : Nat) (v : Int) (m : Memory) : Memory := (m.pad (a + 1)).put a v

/-- The memories have the same cells below an address. -/
def SameBelow (n : Nat) (m m' : Memory) : Prop := ∀ a, a < n → m'.cells[a]? = m.cells[a]?

variable {m m' m'' : Memory} {p a n : Nat} {xs ys : List Int}

theorem lt_size_of_getElem? {x : Int} (h : m.cells[p]? = some x) : p < m.size :=
  (Array.getElem?_eq_some_iff.1 h).1

theorem cell_of_getElem? {x : Int} (h : m.cells[p]? = some x) : m.cell p = x := by
  simp [cell, Array.getD_eq_getD_getElem?, h]

theorem getElem?_of_lt_size (h : a < m.size) : m.cells[a]? = some (m.cell a) := by
  obtain ⟨x, hx⟩ : ∃ x, m.cells[a]? = some x := ⟨_, Array.getElem?_eq_getElem h⟩
  rw [hx, cell_of_getElem? hx]

theorem holds_append : m.Holds p (xs ++ ys) ↔ m.Holds p xs ∧ m.Holds (p + xs.length) ys := by
  induction xs generalizing p with
  | nil => simp [Holds]
  | cons x xs ih =>
    have hp : p + 1 + xs.length = p + (x :: xs).length := by rw [List.length_cons]; omega
    simp only [List.cons_append, Holds, ih, hp, and_assoc]

theorem holds_toArray (before xs : List Int) (limit : Option Int) :
    Holds ⟨(before ++ xs).toArray, limit⟩ before.length xs := by
  induction xs generalizing before with
  | nil => trivial
  | cons x xs ih =>
    refine ⟨by simp, ?_⟩
    have := ih (before ++ [x])
    simpa using this

theorem Holds.mono (h : m.Holds p xs) (hs : SameBelow n m m') (hn : p + xs.length ≤ n) :
    m'.Holds p xs := by
  induction xs generalizing p with
  | nil => trivial
  | cons x xs ih =>
    rw [List.length_cons] at hn
    exact ⟨by rw [hs p (by omega)]; exact h.1, ih h.2 (by omega)⟩

theorem SameBelow.refl (n : Nat) (m : Memory) : SameBelow n m m := fun _ _ => rfl

theorem SameBelow.trans {k : Nat} (h : SameBelow n m m') (h' : SameBelow k m' m'') (hk : n ≤ k) :
    SameBelow n m m'' :=
  fun a ha => (h' a (by omega)).trans (h a ha)

theorem sameBelow_store (h : a ≤ m.size) (v : Int) : SameBelow a m (m.store a v) := by
  intro b hb
  have hb' : b < m.cells.size := Nat.lt_of_lt_of_le hb h
  simp only [store, put, pad]
  rw [Array.getElem?_setIfInBounds_ne (by omega), Array.getElem?_append_left hb']

theorem getElem?_store (m : Memory) (a : Nat) (v : Int) : (m.store a v).cells[a]? = some v := by
  have ha : a < (m.pad (a + 1)).cells.size := by
    have := size_pad m (a + 1)
    simp only [size] at this
    omega
  simp only [store, put]
  rw [Array.getElem?_setIfInBounds_self_of_lt ha]

theorem size_store (m : Memory) (a : Nat) (v : Int) : (m.store a v).size = max m.size (a + 1) := by
  rw [store, size_put, size_pad]

theorem refusal?_store (h : m.refusal? a = none) (v : Int) : (m.store a v).refusal? = m.refusal? := by
  rw [store, refusal?_put]
  exact refusal?_pad (Permits.of_refusal? h)

theorem write_store (h : m.refusal? a = none) {v : Int} (hv : InCell v) :
    m.write a (.int v) = (.ok (), m.store a v) := by
  rw [write_int hv, h]
  rfl

theorem read_held {x : Int} (h : m.cells[p]? = some x) {a : Int} (ha : a = p) :
    m.read a = (.ok x, m) := by
  have hp := lt_size_of_getElem? h
  subst ha
  rw [read_eq (refusal?_eq_none_iff.2 ⟨by omega, .inl (by omega)⟩), Int.toNat_natCast,
    cell_of_getElem? h, pad_of_le hp]

/-! ### Decoding without growth -/

/-- Reads of a memory as accesses. -/
abbrev reader (a : Int) : Access Memory Int := Access.of (read a)

variable {base literalAt lit x : Int}

theorem reader_held (h : m.cells[p]? = some lit) (hp : literalAt = p) :
    (reader literalAt).on m = (.ok lit, m) :=
  read_held h hp

theorem operandValue_immediate (h : m.cells[p]? = some lit) (hp : literalAt = p) :
    (operandValue reader base .immediate literalAt).on m = (.ok lit, m) :=
  Access.bind_on (reader_held h hp)

theorem operandValue_relative (h : m.cells[p]? = some lit) (hp : literalAt = p)
    (hx : m.cells[a]? = some x) (ha : base + lit = a) :
    (operandValue reader base .relative literalAt).on m = (.ok x, m) :=
  (Access.bind_on (reader_held h hp)).trans (read_held hx ha)

theorem operandTarget_relative {word pointer : Int} {i : Nat} (h : m.cells[p]? = some lit)
    (hp : pointer + 1 + i = p) (ha : base + lit = a) :
    (operandTarget reader base word pointer i .relative).on m = (.ok (a : Int), m) := by
  refine (Access.bind_on (reader_held h hp)).trans ?_
  simp only [ha]
  rw [if_neg (by omega)]
  rfl

/-- A word that is split and resolved without growth is decoded without
growth. -/
theorem fetch_resolved {word pointer next : Int} {op : Opcode} {modes : List Mode}
    {i : Instruction} (hw : m.cells[p]? = some word) (hp : pointer = p)
    (hs : Word.split word = .ok (op, modes)) (hn : next = pointer + 1 + op.operands.length)
    (hi : (resolve (fun i => operandValue reader base (Word.modeAt modes i) (pointer + 1 + i))
      (fun i => operandTarget reader base word pointer i (Word.modeAt modes i)) op).on m = (.ok i, m)) :
    m.fetch base pointer = (.ok (i, next), m) := by
  rw [hn]
  exact (Access.decode_split (reader_held hw hp) hs).trans (Access.bind_on hi)

end Memory

/-! ### Operations on two values -/

namespace BinaryOp

/-- The instruction of an operation on two values. -/
def instruction (op : BinaryOp) (a b dst : Int) : Instruction :=
  match op with
  | add => .add a b dst
  | multiply => .multiply a b dst
  | lessThan => .lessThan a b dst
  | equals => .equals a b dst

/-- The value of an operation, whether it fits a cell or not. -/
def value (op : BinaryOp) (a b : Int) : Int :=
  match op with
  | add => a + b
  | multiply => a * b
  | lessThan => truthCell (a < b)
  | equals => truthCell (a = b)

theorem inCell_truthCell (p : Prop) [Decidable p] : InCell (truthCell p) := by
  unfold truthCell
  split
  · exact inCell_one
  · exact inCell_zero

theorem apply_eq (op : BinaryOp) (a b : Int) : op.apply a b =
    if InCell (op.value a b) then .ok (op.value a b)
    else .error (.intermediateOverflow (op.value a b)) := by
  cases op with
  | add | multiply => rfl
  | lessThan | equals => simp only [apply, value, inCell_truthCell, if_true]

theorem effect_instruction (op : BinaryOp) (next a b dst : Int) :
    (op.instruction a b dst).effect next = .store dst (op.value a b) := by
  cases op <;> rfl

theorem resolve_instruction {σ : Type} {value target : Nat → Access σ Int} {s : σ} {a b dst : Int}
    (op : BinaryOp) (ha : (value 0).on s = (.ok a, s)) (hb : (value 1).on s = (.ok b, s))
    (hd : (target 2).on s = (.ok dst, s)) :
    (resolve value target op.opcode).on s = (.ok (op.instruction a b dst), s) := by
  cases op <;>
    exact (Access.bind_on ha).trans ((Access.bind_on hb).trans ((Access.bind_on hd).trans rfl))

end BinaryOp

/-! ### The instructions of compiled code -/

namespace Machine

open Intcode.Expr

/-- The machine runs, stands at an address and has its stack end below
another. -/
structure At (m : Machine) (p sp : Nat) : Prop where
  running : m.status = .running
  pointer : m.pointer = p
  base : m.base = sp

variable {m : Machine} {p sp : Nat}

theorem At.not_halted (h : m.At p sp) : m.status ≠ .halted := by
  rw [h.running]
  decide

/-- The instruction of `size` cells that is decoded where the machine stands. -/
theorem At.fetch {word : Int} {op : Opcode} {modes : List Mode} {i : Instruction} (h : m.At p sp)
    (size : Nat) (hw : m.memory.cells[p]? = some word) (hs : Word.split word = .ok (op, modes))
    (hn : size = op.operands.length + 1)
    (hi : (resolve
      (fun i => operandValue Memory.reader sp (Word.modeAt modes i) ((p : Int) + 1 + i))
      (fun i => operandTarget Memory.reader sp word p i (Word.modeAt modes i)) op).on m.memory =
        (.ok i, m.memory)) : m.fetch = (.ok (i, (p : Int) + size), m.memory) := by
  have hnext : (p : Int) + size = (p : Int) + 1 + op.operands.length := by omega
  rw [Machine.fetch, h.base, h.pointer]
  exact Memory.fetch_resolved hw rfl hs hnext hi

/-- An operation on two values stores its value, if that fits. -/
theorem step_binary {op : BinaryOp} {a b next : Int} {dst : Nat} (h : m.status ≠ .halted)
    (hf : m.fetch = (.ok (op.instruction a b dst, next), m.memory))
    (hr : m.memory.refusal? dst = none) (hv : InCell (op.value a b)) :
    m.step = (.ok none, { m with
      pointer := next
      steps := m.steps + 1
      memory := m.memory.store dst (op.value a b) }) := by
  rw [step_fetched h hf, op.effect_instruction, carryOut, Memory.write_store hr hv]

theorem step_binary_overflow {op : BinaryOp} {a b dst next : Int} (h : m.status ≠ .halted)
    (hf : m.fetch = (.ok (op.instruction a b dst, next), m.memory))
    (hv : ¬ InCell (op.value a b)) :
    m.step = (.error (.overflow (op.value a b) (.address dst)), m) := by
  rw [step_fetched h hf, op.effect_instruction, carryOut, Memory.write_overflow hv]

theorem step_pushConstant {v : Int} (h : m.At p sp)
    (hc : m.memory.Holds p [pushConstant, v, 0, 0]) (hr : m.memory.refusal? sp = none)
    (hv : InCell v) :
    m.step = (.ok none, { m with
      pointer := p + 4
      steps := m.steps + 1
      memory := m.memory.store sp v }) := by
  obtain ⟨h0, h1, h2, h3, -⟩ := hc
  have hs : Word.split pushConstant = .ok (.add, [.immediate, .immediate, .relative]) :=
    Word.split_of_eq pushConstant_eq (by decide) rfl
  have hf : m.fetch = (.ok (BinaryOp.add.instruction v 0 sp, (p : Int) + 4), m.memory) := by
    refine h.fetch 4 h0 hs rfl (BinaryOp.add.resolve_instruction ?_ ?_ ?_)
    · exact Memory.operandValue_immediate h1 (by omega)
    · exact Memory.operandValue_immediate h2 (by omega)
    · exact Memory.operandTarget_relative h3 (by omega) (by omega)
  have hv0 : BinaryOp.add.value v 0 = v := Int.add_zero v
  rw [step_binary h.not_halted hf hr (by rwa [hv0]), hv0]

theorem fetch_pushInput (h : m.At p sp) (hc : m.memory.Holds p [pushInput, 0]) :
    m.fetch = (.ok (.input sp, (p : Int) + 2), m.memory) := by
  obtain ⟨h0, h1, -⟩ := hc
  have hs : Word.split pushInput = .ok (.input, [.relative]) :=
    Word.split_of_eq pushInput_eq (by decide) rfl
  refine h.fetch 2 h0 hs rfl ?_
  exact Access.bind_on (Memory.operandTarget_relative h1 (by omega) (by omega))

theorem step_pushInput {v : Int} {rest : List Int} (h : m.At p sp)
    (hc : m.memory.Holds p [pushInput, 0]) (hr : m.memory.refusal? sp = none)
    (hq : m.inputs = v :: rest) (hv : InCell v) :
    m.step = (.ok none, { m with
      pointer := p + 2
      steps := m.steps + 1
      status := .running
      inputs := rest
      awaited := none
      memory := m.memory.store sp v }) := by
  rw [step_fetched h.not_halted (fetch_pushInput h hc), Instruction.effect, carryOut]
  simp only [hq, Memory.write_store hr hv]

theorem step_pushInput_empty (h : m.At p sp) (hc : m.memory.Holds p [pushInput, 0])
    (hq : m.inputs = []) : m.step = (.ok (some (.awaiting sp)),
      { m with status := .awaitingInput, awaited := some (sp : Int) }) := by
  rw [step_fetched h.not_halted (fetch_pushInput h hc), Instruction.effect, carryOut]
  simp only [hq]

theorem step_moveStack {k : Int} (h : m.At p sp) (hc : m.memory.Holds p [moveStack, k])
    (hk : InCell (sp + k)) :
    m.step = (.ok none, { m with pointer := p + 2, steps := m.steps + 1, base := sp + k }) := by
  obtain ⟨h0, h1, -⟩ := hc
  have hs : Word.split moveStack = .ok (.adjustRelativeBase, [.immediate]) :=
    Word.split_of_eq moveStack_eq (by decide) rfl
  have hf : m.fetch = (.ok (.adjustRelativeBase k, (p : Int) + 2), m.memory) := by
    refine h.fetch 2 h0 hs rfl ?_
    exact Access.bind_on (Memory.operandValue_immediate h1 (by omega))
  rw [step_fetched h.not_halted hf, Instruction.effect, carryOut]
  simp only [h.base, Datum.toCell_int hk]

theorem fetch_binaryTop {op : BinaryOp} {a b : Int} (h : m.At p (sp + 2))
    (hc : m.memory.Holds p [binaryTop op, -2, -1, -2]) (ha : m.memory.cells[sp]? = some a)
    (hb : m.memory.cells[sp + 1]? = some b) :
    m.fetch = (.ok (op.instruction a b sp, (p : Int) + 4), m.memory) := by
  obtain ⟨h0, h1, h2, h3, -⟩ := hc
  have hs : Word.split (binaryTop op) = .ok (op.opcode, [.relative, .relative, .relative]) :=
    Word.split_of_eq (binaryTop_eq op) (by cases op <;> decide) rfl
  refine h.fetch 4 h0 hs (by cases op <;> rfl) (op.resolve_instruction ?_ ?_ ?_)
  · exact Memory.operandValue_relative h1 (by omega) ha (by omega)
  · exact Memory.operandValue_relative h2 (by omega) hb (by omega)
  · exact Memory.operandTarget_relative h3 (by omega) (by omega)

theorem step_jumpIfZero {v target : Int} (h : m.At p sp)
    (hc : m.memory.Holds p [jumpIfZero, 0, target]) (hv : m.memory.cells[sp]? = some v) :
    m.step = (.ok none,
      { m with pointer := if v = 0 then target else p + 3, steps := m.steps + 1 }) := by
  obtain ⟨h0, h1, h2, -⟩ := hc
  have hs : Word.split jumpIfZero = .ok (.jumpIfFalse, [.relative, .immediate]) :=
    Word.split_of_eq jumpIfZero_eq (by decide) rfl
  have hf : m.fetch = (.ok (.jumpIfFalse v target, (p : Int) + 3), m.memory) := by
    refine h.fetch 3 h0 hs rfl ?_
    refine (Access.bind_on (Memory.operandValue_relative h1 (by omega) hv (by omega))).trans ?_
    exact Access.bind_on (Memory.operandValue_immediate h2 (by omega))
  rw [step_fetched h.not_halted hf]
  rfl

theorem step_jumpAlways {target : Int} (h : m.At p sp)
    (hc : m.memory.Holds p [jumpAlways, 1, target]) :
    m.step = (.ok none, { m with pointer := target, steps := m.steps + 1 }) := by
  obtain ⟨h0, h1, h2, -⟩ := hc
  have hs : Word.split jumpAlways = .ok (.jumpIfTrue, [.immediate, .immediate]) :=
    Word.split_of_eq jumpAlways_eq (by decide) rfl
  have hf : m.fetch = (.ok (.jumpIfTrue 1 target, (p : Int) + 3), m.memory) := by
    refine h.fetch 3 h0 hs rfl ?_
    refine (Access.bind_on (Memory.operandValue_immediate h1 (by omega))).trans ?_
    exact Access.bind_on (Memory.operandValue_immediate h2 (by omega))
  rw [step_fetched h.not_halted hf]
  rfl

theorem step_outputTop {v : Int} (h : m.At p (sp + 1)) (hc : m.memory.Holds p [outputTop, -1])
    (hv : m.memory.cells[sp]? = some v) :
    m.step = (.ok (some (.output v)),
      { m with pointer := p + 2, steps := m.steps + 1, lastOutput := some v }) := by
  obtain ⟨h0, h1, -⟩ := hc
  have hs : Word.split outputTop = .ok (.output, [.relative]) :=
    Word.split_of_eq outputTop_eq (by decide) rfl
  have hf : m.fetch = (.ok (.output v, (p : Int) + 2), m.memory) := by
    refine h.fetch 2 h0 hs rfl ?_
    exact Access.bind_on (Memory.operandValue_relative h1 (by omega) hv (by omega))
  rw [step_fetched h.not_halted hf]
  rfl

theorem step_haltWord (h : m.At p sp) (hc : m.memory.Holds p [(Opcode.halt.code : Int)]) :
    m.step = (.ok (some .halted), { m with status := .halted, steps := m.steps + 1 }) := by
  obtain ⟨h0, -⟩ := hc
  have hs : Word.split (Opcode.halt.code : Int) = .ok (.halt, []) := by
    simp [Word.split, Opcode.code, Opcode.ofCode?]
  have hf : m.fetch = (.ok (.halt, (p : Int) + 1), m.memory) :=
    h.fetch 1 h0 hs rfl rfl
  rw [step_fetched h.not_halted hf]
  rfl

end Machine
end Intcode
