/-
# Steps that fail

A step may fail at the word, at an operand, at the write or at the move of the
relative base, and decoding may have grown the memory before. The growth is all
that a failed step leaves behind (`Machine.step_error`). It does not show in the
step that is made from there (`Machine.step_decoded`), so a failed step that is
tried again fails in the same way, and then leaves nothing behind.

Key theorems: `Machine.step_decoded`, `Machine.step_fails_again`.
-/
import Intcode.Proofs.Schedule

namespace Intcode
namespace Machine

/-- A machine whose memory has grown as far as decoding makes it grow makes the
step that it would have made without the growth. -/
theorem step_decoded {m : Machine} (h : m.status ≠ .halted) : m.decoded.step = m.step := by
  obtain ⟨k, hk, hsize, hd⟩ := decoded_eq_pad h
  have hpad : m.step.2.pad k = m.step.2 := by
    have hmemory : m.step.2.memory.pad k = m.step.2.memory := Memory.pad_of_le hsize
    simp only [pad, hmemory]
  rw [hd, step_pad hk, hpad]

/-- A step that fails changes no register: not the pointer, the relative base,
the status, the queue, the awaited address, the last output or the number of
steps. The memory has its cells as before, with zeros behind them at most. The
step made again fails by the same fault, and changes nothing at all. -/
theorem step_fails_again {m m' : Machine} {f : Fault} (failed : m.step = (.error f, m')) :
    m'.toRegisters = m.toRegisters ∧ m'.memory.limit = m.memory.limit ∧
      (∃ n, m'.memory.cells = m.memory.cells ++ Array.replicate n 0) ∧
      m'.step = (.error f, m') := by
  obtain ⟨hlive, rfl⟩ := step_error failed
  obtain ⟨k, -, -, hd⟩ := decoded_eq_pad hlive
  have hmemory : m.decoded.memory = m.memory.pad k := congrArg Machine.memory hd
  refine ⟨rfl, ?_, ⟨k - m.memory.size, ?_⟩, ?_⟩
  · rw [hmemory, Memory.limit_pad]
  · rw [hmemory]
    rfl
  · rw [step_decoded hlive, failed]

/-- An addition that reads past the end of the memory, within the limit, and is
to write at the limit. The memory stays grown, and the queue is kept. -/
theorem step_fails_again_limit :
    let m : Machine := { inputs := [7], memory := ⟨#[1, 5, 6, 8], some 8⟩ }
    let m' : Machine := { inputs := [7], memory := ⟨#[1, 5, 6, 8, 0, 0, 0], some 8⟩ }
    m.step = (.error (.pastLimit 8 8), m') ∧ m'.toRegisters = m.toRegisters ∧
      m'.step = (.error (.pastLimit 8 8), m') := by
  intro m m'
  have failed : m.step = (.error (.pastLimit 8 8), m') := by with_unfolding_all rfl
  obtain ⟨registers, -, -, again⟩ := step_fails_again failed
  exact ⟨failed, registers, again⟩

end Machine
end Intcode
