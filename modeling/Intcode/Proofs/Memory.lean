/-
# Growth of a memory

`Memory.pad` adds zeros up to a length. Every growth is such an addition, at
addresses that are not refused (`Memory.Permits`). Zeros added this way are
seen in the length alone: the cells are the same, the same accesses are
refused (`refusal?_pad`), and reads and writes go alike with and without them
(`read_pad`, `write_pad`).

Key definitions: `Memory.pad`, `Memory.Permits`, `Memory.Grown`.
Key theorems: `Memory.refusal?_pad`, `Memory.read_pad`, `Memory.write_pad`,
`Memory.fetch_pad`, `Memory.fetch_grown`, `Memory.fetch_again`.
-/
import Intcode.Memory
import Intcode.Proofs.Access

namespace Intcode

/-- A value that is refused is no integer, or one that does not fit. -/
theorem Datum.toCells_fault {place : Nat → Place} {index : Nat} {ds : List Datum} {f : Fault}
    (h : toCells place index ds = .error f) : f.kind = .typeError ∨ f.kind = .cellOverflow := by
  induction ds generalizing index with
  | nil => cases h
  | cons d ds ih =>
    simp only [toCells, bind, Except.bind] at h
    cases hd : d.toCell (place index) with
    | error g =>
      rw [hd] at h
      cases h
      unfold toCell at hd
      split at hd
      · split at hd <;> cases hd
        exact .inr rfl
      · cases hd
        exact .inl rfl
    | ok n =>
      rw [hd] at h
      cases hs : toCells place (index + 1) ds with
      | error g =>
        rw [hs] at h
        cases h
        exact ih hs
      | ok ns =>
        rw [hs] at h
        cases h

namespace Memory

/-- The memory extended with zeros, if need be, to at least `n` cells. -/
def pad (n : Nat) (m : Memory) : Memory :=
  { m with cells := m.cells ++ Array.replicate (n - m.size) 0 }

/-- No access to an address below `n` is refused. -/
def Permits (m : Memory) (n : Nat) : Prop := ∀ a : Nat, a < n → m.refusal? a = none

/-- The second memory is the first with zeros added where no access is
refused. -/
def Grown (m m' : Memory) : Prop := ∃ n, m.Permits n ∧ m' = m.pad n

/-! ### Memories by their cells -/

theorem ext_cell {m m' : Memory} (hl : m.limit = m'.limit) (hs : m.size = m'.size)
    (hc : ∀ a, m.cell a = m'.cell a) : m = m' := by
  obtain ⟨cells, limit⟩ := m
  obtain ⟨cells', limit'⟩ := m'
  simp only [size, cell, Array.getD_eq_getD_getElem?] at hl hs hc
  subst hl
  congr 1
  apply Array.ext hs
  intro i h h'
  simpa [h, h'] using hc i

@[simp] theorem limit_pad (m : Memory) (n : Nat) : (m.pad n).limit = m.limit := rfl

@[simp] theorem size_pad (m : Memory) (n : Nat) : (m.pad n).size = max m.size n := by
  simp only [pad, size, Array.size_append, Array.size_replicate]
  omega

@[simp] theorem cell_pad (m : Memory) (n a : Nat) : (m.pad n).cell a = m.cell a := by
  simp only [pad, cell, size, Array.getD_eq_getD_getElem?, Array.getElem?_append,
    Array.getElem?_replicate]
  split
  · rfl
  · rename_i h
    rw [Array.getElem?_eq_none (Nat.le_of_not_lt h)]
    split <;> rfl

theorem reach_eq_pad (m : Memory) (a : Nat) : m.reach a = m.pad (a + 1) := by
  apply ext_cell
  · rw [limit_reach, limit_pad]
  · rw [size_reach, size_pad]
  · intro b
    rw [cell_reach, cell_pad]

theorem pad_of_le {m : Memory} {n : Nat} (h : n ≤ m.size) : m.pad n = m := by
  refine ext_cell rfl ?_ ?_
  · rw [size_pad]; omega
  · exact cell_pad m n

/-- Only the length reached matters. -/
theorem pad_congr {m : Memory} {n k : Nat} (h : max n m.size = max k m.size) :
    m.pad n = m.pad k := by
  refine ext_cell rfl ?_ ?_
  · simp only [size_pad]; omega
  · simp

theorem pad_zero (m : Memory) : m.pad 0 = m := pad_of_le (Nat.zero_le _)

theorem pad_pad (m : Memory) (a b : Nat) : (m.pad a).pad b = m.pad (max a b) := by
  refine ext_cell rfl ?_ ?_
  · simp only [size_pad]; omega
  · simp

/-- Zeros may be added before a cell is set or after it. -/
theorem put_pad {m : Memory} {a : Nat} (h : a < m.size) (n : Nat) (v : Int) :
    (m.pad n).put a v = (m.put a v).pad n := by
  refine ext_cell rfl ?_ ?_
  · simp only [size_put, size_pad]
  · intro b
    rw [cell_put (by rw [size_pad]; omega), cell_pad, cell_pad, cell_put h]

/-! ### What is refused -/

theorem refusal?_congr {m m' : Memory} (hl : m.limit = m'.limit) (hs : m.size = m'.size) :
    m.refusal? = m'.refusal? := by
  funext a
  simp only [refusal?, hl, hs]

theorem refusal?_eq_none_iff {m : Memory} {a : Int} :
    m.refusal? a = none ↔ 0 ≤ a ∧ (a < m.size ∨ ∀ l, m.limit = some l → a < l) := by
  unfold refusal?
  split
  · simp only [reduceCtorEq, false_iff, not_and]
    omega
  · split
    · simp only [true_iff]
      omega
    · rename_i h0 hs
      cases m.limit with
      | none => simp; omega
      | some l =>
        by_cases hl : l ≤ a
        · simp [hl]; omega
        · simp [hl]; omega

theorem permits_iff {m : Memory} {n : Nat} :
    m.Permits n ↔ n ≤ m.size ∨ ∀ l, m.limit = some l → (n : Int) ≤ l := by
  constructor
  · intro h
    by_cases hn : n ≤ m.size
    · exact .inl hn
    · right
      intro l hl
      obtain ⟨-, hlt | hlt⟩ := refusal?_eq_none_iff.1 (h (n - 1) (by omega))
      · omega
      · have := hlt l hl
        omega
  · intro h a ha
    rw [refusal?_eq_none_iff]
    refine ⟨by omega, ?_⟩
    rcases h with h | h
    · exact .inl (by omega)
    · right
      intro l hl
      have := h l hl
      omega

theorem permits_zero (m : Memory) : m.Permits 0 := fun _ h => absurd h (Nat.not_lt_zero _)

theorem Permits.mono {m : Memory} {a b : Nat} (h : m.Permits b) (hab : a ≤ b) : m.Permits a :=
  fun c hc => h c (Nat.lt_of_lt_of_le hc hab)

theorem Permits.congr {m m' : Memory} {n : Nat} (h : m.Permits n) (hr : m'.refusal? = m.refusal?) :
    m'.Permits n := by
  intro a ha
  rw [hr]
  exact h a ha

theorem Permits.max {m : Memory} {a b : Nat} (ha : m.Permits a) (hb : m.Permits b) :
    m.Permits (max a b) := by
  intro c hc
  by_cases h : c < a
  · exact ha c h
  · exact hb c (by omega)

theorem Permits.of_refusal? {m : Memory} {a : Int} (h : m.refusal? a = none) :
    m.Permits (a.toNat + 1) := by
  obtain ⟨h0, h | h⟩ := refusal?_eq_none_iff.1 h
  · exact permits_iff.2 (.inl (by omega))
  · refine permits_iff.2 (.inr fun l hl => ?_)
    have := h l hl
    omega

/-- Growth changes nothing about what is refused. -/
theorem refusal?_pad {m : Memory} {n : Nat} (h : m.Permits n) :
    (m.pad n).refusal? = m.refusal? := by
  rcases permits_iff.1 h with h | h
  · rw [pad_of_le h]
  · funext a
    by_cases ha : m.refusal? a = none
    · rw [ha, refusal?_eq_none_iff, size_pad, limit_pad]
      obtain ⟨h0, hlt | hlt⟩ := refusal?_eq_none_iff.1 ha
      · exact ⟨h0, .inl (by omega)⟩
      · exact ⟨h0, .inr hlt⟩
    · unfold refusal? at ha ⊢
      rw [limit_pad, size_pad]
      by_cases h0 : a < 0
      · simp [h0]
      · cases hl : m.limit with
        | none => simp [h0, hl] at ha
        | some l =>
          have hn := h l hl
          by_cases hs : a < m.size
          · simp [h0, hs] at ha
          · by_cases hla : l ≤ a
            · have : ¬ a < (Max.max m.size n : Nat) := by omega
              simp only [h0, hs, this, if_false]
            · simp [h0, hs, hl, hla] at ha

theorem refusal?_put (m : Memory) (a : Nat) (v : Int) : (m.put a v).refusal? = m.refusal? :=
  refusal?_congr rfl (size_put m a v)

theorem Permits.pad {m : Memory} {n k : Nat} (hn : m.Permits n) (hk : m.Permits k) :
    (m.pad n).Permits k := by
  intro a ha
  rw [refusal?_pad hn]
  exact hk a ha

theorem Permits.put {m : Memory} {n : Nat} (h : m.Permits n) (a : Nat) (v : Int) :
    (m.put a v).Permits n := by
  intro b hb
  rw [refusal?_put]
  exact h b hb

theorem Grown.refl (m : Memory) : Grown m m := ⟨0, m.permits_zero, (pad_zero m).symm⟩

theorem Grown.trans {a b c : Memory} (hab : Grown a b) (hbc : Grown b c) : Grown a c := by
  obtain ⟨n, hn, rfl⟩ := hab
  obtain ⟨k, hk, rfl⟩ := hbc
  refine ⟨Max.max n k, hn.max fun d hd => ?_, pad_pad a n k⟩
  rw [← refusal?_pad hn]
  exact hk d hd

theorem Grown.refusal? {m m' : Memory} (h : Grown m m') : m'.refusal? = m.refusal? := by
  obtain ⟨n, hn, rfl⟩ := h
  exact refusal?_pad hn

theorem Grown.size_le {m m' : Memory} (h : Grown m m') : m.size ≤ m'.size := by
  obtain ⟨n, -, rfl⟩ := h
  rw [size_pad]
  omega

/-! ### Reads and writes -/

theorem read_of_refusal {m : Memory} {a : Int} {f : Fault} (h : m.refusal? a = some f) :
    m.read a = (.error f, m) := by
  simp only [read, h]

theorem read_eq {m : Memory} {a : Int} (h : m.refusal? a = none) :
    m.read a = (.ok (m.cell a.toNat), m.pad (a.toNat + 1)) := by
  simp only [read, h, reach_eq_pad]

theorem write_int {m : Memory} {a : Int} {v : Int} (hv : InCell v) :
    m.write a (.int v) = match m.refusal? a with
      | some f => (.error f, m)
      | none => (.ok (), (m.pad (a.toNat + 1)).put a.toNat v) := by
  rw [write, Datum.toCell_int hv]
  cases m.refusal? a with
  | some f => rfl
  | none => simp only [reach_eq_pad]

theorem write_overflow {m : Memory} {a : Int} {v : Int} (hv : ¬ InCell v) :
    m.write a (.int v) = (.error (.overflow v (.address a)), m) := by
  simp only [write, Datum.toCell, hv, if_false]

/-- An access is refused because the address is negative or because the limit
is reached. -/
theorem refusal?_kind {m : Memory} {a : Int} {f : Fault} (h : m.refusal? a = some f) :
    f.kind = .addressError ∨ f.kind = .memoryLimitExceeded := by
  unfold refusal? at h
  split at h
  · cases h; exact .inl rfl
  · split at h
    · cases h
    · split at h
      · cases h
      · split at h <;> cases h
        exact .inr rfl

/-- A read fails at a negative address, or past the limit. -/
theorem read_fault {m : Memory} {a : Int} {f : Fault} (h : (m.read a).1 = .error f) :
    f.kind = .addressError ∨ f.kind = .memoryLimitExceeded := by
  cases hr : m.refusal? a with
  | some g =>
    rw [read_of_refusal hr] at h
    cases h
    exact refusal?_kind hr
  | none =>
    rw [read_eq hr] at h
    cases h

/-- A read leads to a grown memory. -/
theorem read_grown (m : Memory) (a : Int) : Grown m (m.read a).2 := by
  cases h : m.refusal? a with
  | some f => rw [read_of_refusal h]; exact .refl m
  | none => rw [read_eq h]; exact ⟨_, .of_refusal? h, rfl⟩

/-- Reads go alike with more zeros and without. -/
theorem read_pad {m : Memory} {n : Nat} (h : m.Permits n) (a : Int) :
    (m.pad n).read a = ((m.read a).1, (m.read a).2.pad n) := by
  cases ha : m.refusal? a with
  | some f => rw [read_of_refusal ha, read_of_refusal (by rw [refusal?_pad h, ha])]
  | none =>
    rw [read_eq ha, read_eq (by rw [refusal?_pad h, ha]), cell_pad, pad_pad, pad_pad, Nat.max_comm]

/-- Writes go alike with more zeros and without. -/
theorem write_pad {m : Memory} {n : Nat} (h : m.Permits n) (a : Int) (v : Datum) :
    (m.pad n).write a v = ((m.write a v).1, (m.write a v).2.pad n) := by
  unfold write
  rw [refusal?_pad h]
  cases v.toCell (.address a) with
  | error f => rfl
  | ok x =>
    cases m.refusal? a with
    | some f => rfl
    | none =>
      dsimp only
      rw [reach_eq_pad, reach_eq_pad, pad_pad, Nat.max_comm, ← pad_pad, put_pad (by rw [size_pad]; omega)]

/-- A write never shortens a memory. -/
theorem size_le_write (m : Memory) (a : Int) (v : Datum) : m.size ≤ (m.write a v).2.size := by
  unfold write
  split
  · exact Nat.le_refl _
  · split
    · exact Nat.le_refl _
    · rw [size_put, size_reach]
      omega

/-- A write does not change what is refused. -/
theorem refusal?_write (m : Memory) (a : Int) (v : Datum) :
    (m.write a v).2.refusal? = m.refusal? := by
  unfold write
  split
  · rfl
  · split
    · rfl
    · rename_i h
      rw [refusal?_put, reach_eq_pad, refusal?_pad (.of_refusal? h)]

/-- A refused write changes nothing. -/
theorem write_error {m m' : Memory} {a : Int} {v : Datum} {f : Fault}
    (h : m.write a v = (.error f, m')) : m' = m := by
  unfold write at h
  split at h
  · cases h; rfl
  · split at h <;> cases h
    rfl

/-- A write that succeeds has written an integer. -/
theorem write_ok_int {m m' : Memory} {a : Int} {d : Datum} (h : m.write a d = (.ok (), m')) :
    ∃ n, d = .int n ∧ m.write a (.int n) = (.ok (), m') := by
  cases hd : d.toCell (.address a) with
  | error f =>
    rw [write, hd] at h
    cases h
  | ok n =>
    obtain ⟨rfl, -⟩ := Datum.toCell_ok.1 hd
    exact ⟨n, rfl, h⟩

/-- A write that succeeds changes the one cell. -/
theorem write_ok {m m' : Memory} {a v : Int} (h : m.write a (.int v) = (.ok (), m')) :
    InCell v ∧ 0 ≤ a ∧ ∀ b, m'.cell b = if b = a.toNat then v else m.cell b := by
  by_cases hv : InCell v
  · rw [write_int hv] at h
    cases hr : m.refusal? a <;> rw [hr] at h <;> cases h
    refine ⟨hv, (refusal?_eq_none_iff.1 hr).1, fun b => ?_⟩
    rw [cell_put (by rw [size_pad]; omega), cell_pad]
  · rw [write_overflow hv] at h
    cases h

/-- Without a limit, a value that fits can be written at every address from
zero. -/
theorem write_unlimited {m : Memory} {a v : Int} (hl : m.limit = none) (ha : 0 ≤ a)
    (hv : InCell v) : ∃ m', m.write a (.int v) = (.ok (), m') := by
  have hr : m.refusal? a = none := by
    rw [refusal?_eq_none_iff, hl]
    exact ⟨ha, .inr fun _ h => by cases h⟩
  rw [write_int hv, hr]
  exact ⟨_, rfl⟩

/-! ### Decoding from a memory -/

/-- Decodes the instruction at a pointer. -/
def fetch (base pointer : Int) (m : Memory) : Except Fault (Instruction × Int) × Memory :=
  (decode (fun a => Access.of (read a)) base pointer).on m

/-- A decoding leads to a grown memory. -/
theorem fetch_grown (m : Memory) (base pointer : Int) : Grown m (m.fetch base pointer).2 := by
  refine Access.decode_invariant (P := Grown m) (fun a s hs => ?_) base pointer (.refl m)
  exact hs.trans (read_grown s a)

/-- Decoding goes alike with more zeros and without. -/
theorem fetch_pad {m : Memory} {n : Nat} (h : m.Permits n) (base pointer : Int) :
    (m.pad n).fetch base pointer =
      ((m.fetch base pointer).1, (m.fetch base pointer).2.pad n) := by
  have hread (a : Int) : Access.Alike (fun s t => t = s.pad n ∧ s.Permits n)
      (Access.of (read a)) (Access.of (read a)) := by
    rintro s _ ⟨rfl, hs⟩
    simp only [Access.on_of, read_pad hs, true_and]
    obtain ⟨k, hk, hsk⟩ := read_grown s a
    rw [hsk]
    exact hk.pad hs
  obtain ⟨ha, hm, -⟩ := Access.decode_alike hread base pointer m (m.pad n) ⟨rfl, h⟩
  exact Prod.ext ha.symm hm

/-- A decoding fails because the instruction is malformed or because a read
is refused. -/
theorem fetch_fault {m m' : Memory} {base pointer : Int} {f : Fault}
    (h : m.fetch base pointer = (.error f, m')) :
    f.kind = .invalidInstruction ∨ f.kind = .invalidMode ∨ f.kind = .addressError ∨
      f.kind = .memoryLimitExceeded := by
  let F (f : Fault) : Prop := f.kind = .invalidInstruction ∨ f.kind = .invalidMode ∨
    f.kind = .addressError ∨ f.kind = .memoryLimitExceeded
  have malformed (f : Fault) (hf : Access.Malformed f) : F f := by
    rcases hf.kind with hk | hk | hk <;> simp [F, hk]
  have refused (a : Int) : Access.Faults (fun _ : Memory => True) F (Access.of (read a)) := by
    refine fun s _ => ⟨trivial, fun f hf => ?_⟩
    rcases read_fault hf with hk | hk <;> simp [F, hk]
  exact (Access.decode_faults malformed refused base pointer m trivial).2 f (congrArg Prod.fst h)

/-- Decoding again gives the same answer and needs no growth. -/
theorem fetch_again {m m' : Memory} {base pointer : Int} {x : Except Fault (Instruction × Int)}
    (h : m.fetch base pointer = (x, m')) : m'.fetch base pointer = (x, m') := by
  obtain ⟨n, hn, hm⟩ := fetch_grown m base pointer
  rw [h] at hm
  dsimp only at hm
  rw [hm, fetch_pad hn, h, hm, pad_pad, Nat.max_self]

end Memory
end Intcode
