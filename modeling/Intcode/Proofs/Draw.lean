/-
# What draws give

A draw gives values of a kind if it never fails, whatever the source, and all
its values are of this kind (`Draw.Gives`). One rule for each way to put draws
together takes a draw apart; no rule asks for more of a source than that its
numbers lie in their ranges.

Key definitions: `Draw.Gives`.
Key theorems: `Draw.Gives.bind`, `Draw.gives_integer`, `Draw.gives_choose`,
`Draw.gives_weighted`, `Draw.gives_times`.
-/
import Intcode.Random.Draw

namespace Intcode
namespace Draw

variable {σ α β : Type}

/-- From every state of the source a value is drawn, and it has the
property. -/
def Gives (x : Draw σ α) (P : α → Prop) : Prop := ∀ s, ∃ a t, x.on s = (.ok a, t) ∧ P a

section Rules

variable {P : α → Prop} {Q : β → Prop}

theorem gives_pure {a : α} (h : P a) : Gives (pure a : Draw σ α) P :=
  fun s => ⟨a, s, rfl, h⟩

theorem gives_lift {x : Except Fault α} {a : α} (hx : x = .ok a) (h : P a) :
    Gives (Access.lift x : Draw σ α) P := by
  intro s
  exact ⟨a, s, by rw [Access.lift_apply, hx], h⟩

theorem Gives.bind {x : Draw σ α} {f : α → Draw σ β} (hx : Gives x P)
    (hf : ∀ a, P a → Gives (f a) Q) : Gives (x >>= f) Q := by
  intro s
  obtain ⟨a, t, hs, ha⟩ := hx s
  obtain ⟨b, u, ht, hb⟩ := hf a ha t
  refine ⟨b, u, ?_, hb⟩
  rw [Access.bind_apply, hs]
  exact ht

theorem Gives.mono {P' : α → Prop} {x : Draw σ α} (hx : Gives x P) (h : ∀ a, P a → P' a) :
    Gives x P' := by
  intro s
  obtain ⟨a, t, hs, ha⟩ := hx s
  exact ⟨a, t, hs, h a ha⟩

theorem Gives.ite {c : Prop} [Decidable c] {x y : Draw σ α} (hx : c → Gives x P)
    (hy : ¬ c → Gives y P) : Gives (if c then x else y) P := by
  by_cases h : c
  · rw [if_pos h]
    exact hx h
  · rw [if_neg h]
    exact hy h

end Rules

/-! ### Basic draws -/

section Basic

variable [Source σ]

theorem gives_fraction : Gives (fraction : Draw σ Nat) (· < 1 <<< 53) :=
  fun s => ⟨_, _, rfl, Source.fraction_lt s⟩

theorem gives_below {n : Nat} (h : 0 < n) : Gives (below n : Draw σ Nat) (· < n) :=
  fun s => ⟨_, _, rfl, Source.below_lt h s⟩

theorem gives_integer {low high : Int} (h : low ≤ high) :
    Gives (integer low high : Draw σ Int) fun n => low ≤ n ∧ n ≤ high := by
  unfold integer
  refine Gives.ite (fun hlt => absurd hlt (by omega)) fun _ => ?_
  exact (gives_below (by omega)).bind fun n hn => gives_pure (by omega)

theorem gives_choose {P : α → Prop} {first : α} {rest : List α} (h : ∀ a ∈ first :: rest, P a) :
    Gives (choose first rest : Draw σ α) P := by
  unfold choose
  refine (gives_below (Nat.succ_pos _)).bind fun n hn => gives_pure (h _ ?_)
  have hlt : n < (first :: rest).length := hn
  rw [List.getD_eq_getElem?_getD, List.getElem?_eq_getElem hlt, Option.getD_some]
  exact List.getElem_mem hlt

theorem gives_chance (p : Binary64) : Gives (chance p : Draw σ Bool) fun _ => True := by
  unfold chance
  exact gives_fraction.bind fun n _ => gives_pure trivial

theorem reach_mem (exceeded : Nat → Bool) (sum : Nat) (last : α) (table : List (α × Nat)) :
    reach exceeded sum last table ∈ last :: table.map (·.1) := by
  induction table generalizing sum last with
  | nil => simp [reach]
  | cons entry table ih =>
    obtain ⟨a, w⟩ := entry
    rw [reach]
    split
    · simp
    · exact List.mem_cons_of_mem _ (ih ..)

theorem gives_weighted {P : α → Prop} {first : α} {table : List (α × Nat)}
    (h : ∀ a ∈ first :: table.map (·.1), P a) : Gives (weighted first table : Draw σ α) P := by
  unfold weighted
  exact gives_fraction.bind fun n _ => gives_pure (h _ (reach_mem ..))

end Basic

theorem gives_times {x : Draw σ α} {P : α → Prop} (h : Gives x P) (n : Nat) :
    Gives (times x n) fun as => as.length = n ∧ ∀ a ∈ as, P a := by
  induction n with
  | zero => exact gives_pure ⟨rfl, fun a ha => by cases ha⟩
  | succ n ih =>
    refine h.bind fun a ha => ih.bind fun as has => gives_pure ⟨?_, ?_⟩
    · rw [List.length_cons, has.1]
    · intro b hb
      rcases List.mem_cons.1 hb with rfl | hb
      · exact ha
      · exact has.2 b hb

end Draw
end Intcode
