/-
# Lazy lists

A list whose rest is made only when it is asked for, so that the first
members of a very long enumeration are cheap.

Key definitions: `LazyList`, `LazyList.toList`, `LazyList.append`,
`LazyList.flatMap`, `LazyList.slice`, `LazyList.count`.
Key theorems: `LazyList.toList_ofList`, `LazyList.toList_append`,
`LazyList.toList_flatMap`, `LazyList.toList_map`, `LazyList.slice_map_ok`,
`LazyList.count_map_ok`.
-/
import Intcode.Fault

namespace Intcode

/-- A list whose rest is made on demand. -/
inductive LazyList (α : Type) where
  | nil
  | cons (head : α) (rest : Unit → LazyList α)

namespace LazyList

variable {α β : Type}

/-- All members. -/
def toList : LazyList α → List α
  | nil => []
  | cons a rest => a :: (rest ()).toList

/-- The members of a list. -/
def ofList : List α → LazyList α
  | [] => nil
  | a :: as => cons a fun _ => ofList as

/-- The members of one list and then those of another. -/
def append : LazyList α → (Unit → LazyList α) → LazyList α
  | nil, l => l ()
  | cons a rest, l => cons a fun _ => (rest ()).append l

/-- The members of the lists made of the members of a list. -/
def flatMap (f : α → LazyList β) : List α → LazyList β
  | [] => nil
  | a :: as => (f a).append fun _ => flatMap f as

/-- A function of every member. -/
def map (f : α → β) : LazyList α → LazyList β
  | nil => nil
  | cons a rest => cons (f a) fun _ => (rest ()).map f

@[simp] theorem toList_ofList (as : List α) : (ofList as).toList = as := by
  induction as with
  | nil => rfl
  | cons a as ih => simp [ofList, toList, ih]

@[simp] theorem toList_append (s : LazyList α) (l : Unit → LazyList α) :
    (s.append l).toList = s.toList ++ (l ()).toList := by
  induction s with
  | nil => rfl
  | cons a rest ih => simp [append, toList, ih]

@[simp] theorem toList_flatMap (f : α → LazyList β) (as : List α) :
    (flatMap f as).toList = as.flatMap fun a => (f a).toList := by
  induction as with
  | nil => rfl
  | cons a as ih => simp [flatMap, ih]

@[simp] theorem toList_map (f : α → β) (s : LazyList α) : (s.map f).toList = s.toList.map f := by
  induction s with
  | nil => rfl
  | cons a rest ih => simp [map, toList, ih]

/-- The members after the first `skip`, at most `take` of them, of a list
that a fault may end. The fault counts only if it is met. -/
def slice (skip take : Nat) : LazyList (Except Fault α) → Except Fault (List α)
  | nil => .ok []
  | cons item rest =>
    if take = 0 then .ok []
    else match item with
      | .error f => .error f
      | .ok a => match skip with
        | skip + 1 => (rest ()).slice skip take
        | 0 => ((rest ()).slice 0 (take - 1)).map (a :: ·)

/-- Without a fault a slice is what is left of the list after the skipped
members, cut to length. -/
theorem slice_map_ok (s : LazyList α) (skip take : Nat) :
    (s.map Except.ok).slice skip take = .ok ((s.toList.drop skip).take take) := by
  induction s generalizing skip take with
  | nil => simp [map, slice, toList]
  | cons a rest ih =>
    unfold map slice
    rcases take with _ | take
    · simp
    · rcases skip with _ | skip
      · simp [ih, toList, Except.map]
      · simp [ih, toList]

/-- The number of members of a list that a fault may end, and `n` more. -/
def count (n : Nat) : LazyList (Except Fault α) → Except Fault Nat
  | nil => .ok n
  | cons (.ok _) rest => (rest ()).count (n + 1)
  | cons (.error f) _ => .error f

theorem count_map_ok (s : LazyList α) (n : Nat) :
    (s.map Except.ok).count n = .ok (n + s.toList.length) := by
  induction s generalizing n with
  | nil => rfl
  | cons a rest ih =>
    unfold map count
    rw [ih, toList, List.length_cons]
    congr 1
    omega

end LazyList
end Intcode
