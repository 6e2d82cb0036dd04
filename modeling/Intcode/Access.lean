/-
# Access to a store, which may fail and keeps what it did

An `Access σ α` works on a store of type `σ`. It gives an `α` or a fault,
and in either case the store as it is afterwards: what was done before a
fault stays done.

Key definitions: `Access`, `Access.fail`, `Access.lift`.
Key theorem: `Access.bind_apply`.
-/
import Intcode.Fault

namespace Intcode

/-- A computation on a store that may fail, and whose effects survive a
failure. -/
abbrev Access (σ : Type) := ExceptT Fault (StateM σ)

namespace Access

variable {σ α β : Type}

/-- An access from its action on the store. -/
@[inline] def of (f : σ → Except Fault α × σ) : Access σ α := f

/-- The answer of an access and the store it leaves. -/
@[inline] def on (x : Access σ α) (s : σ) : Except Fault α × σ := x s

/-- The access that fails and leaves the store alone. -/
@[inline] def fail (f : Fault) : Access σ α := of fun s => (.error f, s)

/-- An answer that needs no store. -/
@[inline] def lift (x : Except Fault α) : Access σ α := of fun s => (x, s)

@[simp] theorem on_of (f : σ → Except Fault α × σ) (s : σ) : (of f).on s = f s := rfl

@[simp] theorem pure_apply (a : α) (s : σ) : (pure a : Access σ α).on s = (.ok a, s) := rfl

@[simp] theorem fail_apply (f : Fault) (s : σ) : (fail f : Access σ α).on s = (.error f, s) := rfl

@[simp] theorem lift_apply (x : Except Fault α) (s : σ) : (lift x).on s = (x, s) := rfl

/-- One access after another: the second runs on the store that the first
leaves, unless that failed. -/
@[simp] theorem bind_apply (x : Access σ α) (f : α → Access σ β) (s : σ) :
    (x >>= f).on s = match x.on s with
      | (.error e, s) => (.error e, s)
      | (.ok a, s) => (f a).on s := by
  simp only [on, bind, ExceptT.bind, ExceptT.mk, StateT.bind]
  rcases x s with ⟨_ | _, _⟩ <;> rfl

end Access
end Intcode
