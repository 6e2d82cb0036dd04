/-
# A memory limit cuts a run short and does nothing else

Under a limit a machine does what it does without one, up to the first access
to an address that the program does not reach and the limit does not allow.
There it fails. The accesses are those of the machine without a limit: the word
and the literals that are fetched, the cells that operands are read from, and
the cell that is written (`Machine.accesses`).

A limit is looked at only where a memory is to grow, so it has to be shown that
how far a memory has grown does not come into it. Without a limit, and as long
as all accesses stay below the bound, a memory is at least as long as the
program and at most as long as the bound (`Memory.Below`). Then the same
accesses are refused under the limit, and those past the bound as well
(`Memory.refusal?_capped`).

Key definitions: `Memory.capped`, `Memory.Below`, `Memory.Traced`, `Machine.accesses`,
`Machine.StaysBelow`.
Key theorems: `Memory.refusal?_capped`, `Memory.fetch_capped`, `Machine.step_capped`,
`Machine.steps_capped`, `Machine.limit_cuts_short`.
-/
import Intcode.Proofs.Run

namespace Intcode

/-- The first address in a row that is at or past a bound. -/
def firstPast (bound : Int) (accesses : List Int) : Option Int := accesses.find? (bound ≤ ·)

theorem firstPast_eq_none {bound : Int} {accesses : List Int} :
    firstPast bound accesses = none ↔ ∀ a ∈ accesses, a < bound := by
  simp only [firstPast, List.find?_eq_none, decide_eq_true_eq, Int.not_le]

theorem firstPast_append (bound : Int) (accesses more : List Int) :
    firstPast bound (accesses ++ more) =
      (firstPast bound accesses).or (firstPast bound more) := List.find?_append

theorem firstPast_singleton (bound a : Int) :
    firstPast bound [a] = if bound ≤ a then some a else none := by
  by_cases h : bound ≤ a <;> simp [firstPast, h]

/-- What an address at or past the bound is first in, it is first in whatever
follows. -/
theorem firstPast_initial (bound : Int) {l l' : List Int} (h : l <+: l') :
    (firstPast bound l' = none → firstPast bound l = none) ∧
      ∀ a, firstPast bound l = some a → firstPast bound l' = some a := by
  obtain ⟨more, rfl⟩ := h
  rw [firstPast_append]
  cases firstPast bound l <;> simp

namespace Memory

/-- The memory under a limit. -/
def capped (limit : Int) (m : Memory) : Memory := { m with limit := some limit }

/-- The memory has no limit and has come from one of the given length by
accesses below a bound: the length, or the limit that it might have if that is
greater. -/
structure Below (length : Nat) (limit : Int) (m : Memory) : Prop where
  unlimited : m.limit = none
  long : length ≤ m.size
  short : (m.size : Int) ≤ max (length : Int) limit

section Capped

variable {length : Nat} {limit : Int} {m : Memory}

/-- Under the limit an access is refused at and past the bound. Below the bound
it is refused just if it is refused without the limit. -/
theorem refusal?_capped (h : m.Below length limit) (a : Int) :
    (m.capped limit).refusal? a =
      if max (length : Int) limit ≤ a then some (.pastLimit a limit) else m.refusal? a := by
  have hlong := h.long
  have hshort := h.short
  have hsize : (m.capped limit).size = m.size := rfl
  have hlimit : (m.capped limit).limit = some limit := rfl
  unfold refusal?
  rw [hsize, hlimit, h.unlimited]
  by_cases hneg : a < 0
  · have hbound : ¬ max (length : Int) limit ≤ a := by omega
    simp only [hneg, hbound, if_true, if_false]
  by_cases hin : a < m.size
  · have hbound : ¬ max (length : Int) limit ≤ a := by omega
    simp only [hneg, hin, hbound, if_true, if_false]
  · -- the address is past the program, so the bound is the limit
    have hbound : max (length : Int) limit ≤ a ↔ limit ≤ a := by omega
    simp only [hneg, hin, hbound, if_false]

/-- A memory grows below the bound up to the bound at most. -/
theorem Below.pad (h : m.Below length limit) {a : Int} (ha : m.refusal? a = none)
    (hb : a < max (length : Int) limit) : (m.pad (a.toNat + 1)).Below length limit := by
  have hpos : 0 ≤ a := (refusal?_eq_none_iff.1 ha).1
  have hlong := h.long
  have hshort := h.short
  refine ⟨h.unlimited, ?_, ?_⟩
  · rw [size_pad]
    omega
  · rw [size_pad]
    omega

theorem Below.put (h : m.Below length limit) (a : Nat) (v : Int) :
    (m.put a v).Below length limit := by
  refine ⟨h.unlimited, ?_, ?_⟩
  · rw [size_put]
    exact h.long
  · rw [size_put]
    exact h.short

theorem read_capped_past (h : m.Below length limit) {a : Int}
    (ha : max (length : Int) limit ≤ a) :
    (m.capped limit).read a = (.error (.pastLimit a limit), m.capped limit) := by
  apply read_of_refusal
  rw [refusal?_capped h, if_pos ha]

/-- Below the bound, reads go alike under the limit and without. -/
theorem read_capped (h : m.Below length limit) {a : Int} (ha : a < max (length : Int) limit) :
    (m.capped limit).read a = ((m.read a).1, (m.read a).2.capped limit) ∧
      (m.read a).2.Below length limit := by
  have hrefusal : (m.capped limit).refusal? a = m.refusal? a := by
    rw [refusal?_capped h, if_neg (by omega)]
  cases hr : m.refusal? a with
  | some f =>
    rw [hr] at hrefusal
    rw [read_of_refusal hr, read_of_refusal hrefusal]
    exact ⟨rfl, h⟩
  | none =>
    rw [hr] at hrefusal
    rw [read_eq hr, read_eq hrefusal]
    exact ⟨rfl, h.pad hr ha⟩

/-- A write goes alike under the limit and without, unless it is to an address
at or past the bound. A value that does not fit is refused before that. -/
theorem write_capped (h : m.Below length limit) (a v : Int) :
    match firstPast (max (length : Int) limit) (if InCell v then [a] else []) with
    | none => (m.capped limit).write a (.int v) =
        ((m.write a (.int v)).1, (m.write a (.int v)).2.capped limit) ∧
          (m.write a (.int v)).2.Below length limit
    | some b => (m.capped limit).write a (.int v) =
        (.error (.pastLimit b limit), m.capped limit) := by
  by_cases hv : InCell v
  · rw [if_pos hv, firstPast_singleton, write_int hv, write_int hv, refusal?_capped h]
    by_cases ha : max (length : Int) limit ≤ a
    · simp only [ha, if_true]
    · simp only [ha, if_false]
      cases hr : m.refusal? a with
      | some f => exact ⟨rfl, h⟩
      | none => exact ⟨rfl, (h.pad hr (by omega)).put _ _⟩
  · rw [if_neg hv, write_overflow hv, write_overflow hv]
    exact ⟨rfl, h⟩

end Capped

/-! ### The accesses of a decoding -/

/-- A memory and the addresses accessed so far, oldest first. -/
structure Traced where
  memory : Memory
  accessed : List Int

/-- Reads a memory and notes the address. -/
def Traced.read (a : Int) (t : Traced) : Except Fault Int × Traced :=
  match t.memory.read a with
  | (answer, memory) => (answer, ⟨memory, t.accessed ++ [a]⟩)

/-- Decodes the instruction at a pointer and notes the addresses that are
read. -/
def fetchTraced (base pointer : Int) (m : Memory) : Except Fault (Instruction × Int) × Traced :=
  (decode (fun a => Access.of (Traced.read a)) base pointer).on ⟨m, []⟩

/-- To note the addresses changes nothing about a decoding. -/
theorem fetchTraced_eq (m : Memory) (base pointer : Int) :
    (m.fetchTraced base pointer).1 = (m.fetch base pointer).1 ∧
      (m.fetchTraced base pointer).2.memory = (m.fetch base pointer).2 := by
  have hread (a : Int) : Access.Alike (fun (t : Traced) (m : Memory) => t.memory = m)
      (Access.of (Traced.read a)) (Access.of (read a)) := by
    rintro t _ rfl
    exact ⟨rfl, rfl⟩
  exact Access.decode_alike hread base pointer ⟨m, []⟩ m rfl

/-- An access to a memory under the limit does what the other does without it,
up to the first address at or past the bound that this one accesses. There it
fails. -/
structure CutShort {α : Type} (length : Nat) (limit : Int) (x : Access Traced α)
    (y : Access Memory α) : Prop where
  accessed : ∀ t, t.accessed <+: (x.on t).2.accessed
  same : ∀ t, t.memory.Below length limit →
    firstPast (max (length : Int) limit) (x.on t).2.accessed = none →
    y.on (t.memory.capped limit) = ((x.on t).1, (x.on t).2.memory.capped limit) ∧
      (x.on t).2.memory.Below length limit
  cut : ∀ t a, t.memory.Below length limit →
    firstPast (max (length : Int) limit) t.accessed = none →
    firstPast (max (length : Int) limit) (x.on t).2.accessed = some a →
    (y.on (t.memory.capped limit)).1 = .error (.pastLimit a limit)

theorem cutShort_compositional (length : Nat) (limit : Int) :
    Access.Compositional (fun _ => True) (fun {_} x y => CutShort length limit x y) where
  answer a := by
    refine ⟨fun t => List.prefix_rfl, fun t hb _ => ⟨rfl, hb⟩, fun t a' hb hn ha => ?_⟩
    rw [Access.pure_apply, hn] at ha
    cases ha
  fault f _ := by
    refine ⟨fun t => List.prefix_rfl, fun t hb _ => ⟨rfl, hb⟩, fun t a' hb hn ha => ?_⟩
    rw [Access.fail_apply, hn] at ha
    cases ha
  bind {_ _ x y f g} hx hf := by
    have hafter (t : Traced) : (x.on t).2.accessed <+: ((x >>= f).on t).2.accessed := by
      rw [Access.bind_apply]
      rcases x.on t with ⟨e | a, t'⟩
      · exact List.prefix_rfl
      · exact (hf a).accessed t'
    refine ⟨fun t => (hx.accessed t).trans (hafter t), fun t hb hn => ?_, fun t a hb hn ha => ?_⟩
    · have hfirst := (firstPast_initial _ (hafter t)).1 hn
      obtain ⟨hy, hb'⟩ := hx.same t hb hfirst
      rw [Access.bind_apply] at hn ⊢
      rw [Access.bind_apply, hy]
      rcases hxt : x.on t with ⟨e | a, t'⟩ <;> rw [hxt] at hn hb'
      · exact ⟨rfl, hb'⟩
      · exact (hf a).same t' hb' hn
    · cases hfirst : firstPast (max (length : Int) limit) (x.on t).2.accessed with
      | some b =>
        have hcut := hx.cut t b hb hn hfirst
        have hboth := (firstPast_initial _ (hafter t)).2 b hfirst
        rw [ha] at hboth
        cases hboth
        rw [Access.bind_apply]
        rcases hyt : y.on (t.memory.capped limit) with ⟨e | v, m'⟩ <;> rw [hyt] at hcut <;>
          cases hcut
        rfl
      | none =>
        obtain ⟨hy, hb'⟩ := hx.same t hb hfirst
        rw [Access.bind_apply] at ha
        rw [Access.bind_apply, hy]
        rcases hxt : x.on t with ⟨e | v, t'⟩ <;> rw [hxt] at ha hfirst hb'
        · rw [hfirst] at ha
          cases ha
        · exact (hf v).cut t' a hb' hfirst ha

theorem read_cutShort (length : Nat) (limit : Int) (a : Int) :
    CutShort length limit (Access.of (Traced.read a)) (Access.of (read a)) := by
  have hnoted (t : Traced) : (Access.on (Access.of (Traced.read a)) t).2.accessed =
      t.accessed ++ [a] := rfl
  refine ⟨fun t => ?_, fun t hb hn => ?_, fun t b hb hn hb' => ?_⟩
  · rw [hnoted]
    exact List.prefix_append ..
  · rw [hnoted, firstPast_eq_none] at hn
    exact read_capped hb (hn a (List.mem_append_right _ (List.mem_singleton_self a)))
  · rw [hnoted, firstPast_append, hn, Option.none_or, firstPast_singleton] at hb'
    split at hb' <;> cases hb'
    rw [Access.on_of, read_capped_past hb ‹_›]

/-- Decoding under the limit goes as without it, up to the first access at or
past the bound. -/
theorem fetch_capped {length : Nat} {limit : Int} {m : Memory} (h : m.Below length limit)
    (base pointer : Int) :
    match firstPast (max (length : Int) limit) (m.fetchTraced base pointer).2.accessed with
    | none => (m.capped limit).fetch base pointer =
        ((m.fetch base pointer).1, (m.fetch base pointer).2.capped limit) ∧
          (m.fetch base pointer).2.Below length limit
    | some a => ((m.capped limit).fetch base pointer).1 = .error (.pastLimit a limit) := by
  have hcut := Access.decode_related (cutShort_compositional length limit) (fun _ _ => trivial)
    (read_cutShort length limit) base pointer
  obtain ⟨hanswer, hmemory⟩ := fetchTraced_eq m base pointer
  cases hfirst : firstPast (max (length : Int) limit) (m.fetchTraced base pointer).2.accessed with
  | none =>
    rw [← hanswer, ← hmemory]
    exact hcut.same ⟨m, []⟩ h hfirst
  | some a => exact hcut.cut ⟨m, []⟩ a h rfl hfirst

end Memory

/-! ### The accesses of a step -/

/-- The address that an effect writes to, if it writes. A value that does not
fit is refused before the memory is accessed. -/
def Effect.written (inputs : List Int) : Effect → List Int
  | .store dst v => if InCell v then [dst] else []
  | .take dst => match inputs with
    | [] => []
    | v :: _ => if InCell v then [dst] else []
  | .emit _ | .goto _ | .rebase _ | .halt => []

namespace Machine

/-- The addresses that a step accesses, in order: those of its decoding, and
then the one that it writes to. -/
def accesses (m : Machine) : List Int :=
  if m.status = .halted then []
  else match m.memory.fetchTraced m.base m.pointer with
    | (.error _, t) => t.accessed
    | (.ok (i, next), t) => t.accessed ++ (i.effect next).written m.inputs

/-- The machine with its memory under a limit. -/
def capped (limit : Int) (m : Machine) : Machine := { m with memory := m.memory.capped limit }

/-- For so many instructions of its own a machine accesses no address at or past
the bound. -/
def StaysBelow (bound : Int) (n : Nat) (m : Machine) : Prop :=
  ∀ k < n, ∀ out m', Steps k m out m' → ∀ a ∈ m'.accesses, a < bound

section Capped

variable {length : Nat} {limit : Int} {m m' : Machine}

theorem carryOut_capped {memory : Memory} (h : memory.Below length limit) (next : Int)
    (effect : Effect) (r : Registers) :
    match firstPast (max (length : Int) limit) (effect.written r.inputs) with
    | none => carryOut next effect r (memory.capped limit) =
        ((carryOut next effect r memory).1, (carryOut next effect r memory).2.capped limit) ∧
          (carryOut next effect r memory).2.memory.Below length limit
    | some a => carryOut next effect r (memory.capped limit) =
        (.error (.pastLimit a limit), ⟨r, memory.capped limit⟩) := by
  cases effect with
  | emit v | goto target | halt => exact ⟨rfl, h⟩
  | rebase offset =>
    simp only [carryOut]
    rcases (Datum.int (r.base + offset)).toCell .relativeBase with f | base <;> exact ⟨rfl, h⟩
  | store dst v =>
    have hw := Memory.write_capped h dst v
    simp only [Effect.written, carryOut]
    split at hw
    · obtain ⟨hw, hb⟩ := hw
      rw [hw]
      rcases hm : memory.write dst (.int v) with ⟨f | ⟨⟩, memory'⟩ <;> rw [hm] at hb <;>
        exact ⟨rfl, hb⟩
    · rw [hw]
  | take dst =>
    rcases hq : r.inputs with _ | ⟨v, rest⟩
    · simp only [carryOut, hq]
      exact ⟨rfl, h⟩
    · have hw := Memory.write_capped h dst v
      simp only [Effect.written, carryOut, hq]
      split at hw
      · obtain ⟨hw, hb⟩ := hw
        rw [hw]
        rcases hm : memory.write dst (.int v) with ⟨f | ⟨⟩, memory'⟩ <;> rw [hm] at hb <;>
        exact ⟨rfl, hb⟩
      · rw [hw]

/-- The accesses of a step begin with those of its decoding. -/
theorem accesses_decoding (hh : m.status ≠ .halted) :
    (m.memory.fetchTraced m.base m.pointer).2.accessed <+: m.accesses := by
  rw [accesses, if_neg hh]
  rcases m.memory.fetchTraced m.base m.pointer with ⟨f | ⟨i, next⟩, t⟩
  · exact List.prefix_rfl
  · exact List.prefix_append ..

/-- A step under the limit goes as without it, unless it accesses an address at
or past the bound. Then it fails at the first one, and changes no register. -/
theorem step_capped (h : m.memory.Below length limit) :
    match firstPast (max (length : Int) limit) m.accesses with
    | none => (m.capped limit).step = (m.step.1, m.step.2.capped limit) ∧
        m.step.2.memory.Below length limit
    | some a => ∃ memory, (m.capped limit).step =
        (.error (.pastLimit a limit), { m with memory := memory }) := by
  by_cases hh : m.status = .halted
  · have haccesses : m.accesses = [] := if_pos hh
    rw [haccesses, step_halted hh, step_halted (m := m.capped limit) hh]
    exact ⟨rfl, h⟩
  have hfetch := Memory.fetch_capped h m.base m.pointer
  have hdecoding := firstPast_initial (max (length : Int) limit) (accesses_decoding hh)
  cases hfirst : firstPast (max (length : Int) limit)
      (m.memory.fetchTraced m.base m.pointer).2.accessed with
  | some a =>
    -- the decoding is cut short, whatever it was to come to
    simp only [hfirst] at hfetch
    rw [hdecoding.2 a hfirst, step_eq (m := m.capped limit) hh]
    have hcut : (m.capped limit).fetch.1 = .error (.pastLimit a limit) := hfetch
    rcases hf : (m.capped limit).fetch with ⟨f | ⟨i, next⟩, memory⟩ <;> rw [hf] at hcut <;>
      cases hcut
    exact ⟨memory, rfl⟩
  | none =>
    simp only [hfirst] at hfetch
    have hf : m.fetch = ((m.memory.fetchTraced m.base m.pointer).1,
        (m.memory.fetchTraced m.base m.pointer).2.memory) :=
      Prod.ext (Memory.fetchTraced_eq ..).1.symm (Memory.fetchTraced_eq ..).2.symm
    have hcapped : (m.capped limit).fetch = (m.fetch.1, m.fetch.2.capped limit) := hfetch.1
    have hbelow : m.fetch.2.Below length limit := hfetch.2
    rw [accesses, if_neg hh]
    rcases htraced : m.memory.fetchTraced m.base m.pointer with ⟨f | ⟨i, next⟩, t⟩ <;>
      rw [htraced] at hf hfirst <;> rw [hf] at hcapped hbelow
    · rw [step_eq hh, step_eq (m := m.capped limit) hh, hcapped, hf]
      simp only [hfirst]
      exact ⟨rfl, hbelow⟩
    · have heffect := carryOut_capped hbelow next (i.effect next) m.toRegisters
      rw [step_fetched hh hf, step_fetched (m := m.capped limit) hh hcapped]
      simp only [firstPast_append, hfirst, Option.none_or]
      cases hwritten : firstPast (max (length : Int) limit) ((i.effect next).written m.inputs) with
      | none =>
        simp only [hwritten] at heffect
        exact heffect
      | some a =>
        simp only [hwritten] at heffect
        exact ⟨_, heffect⟩

/-- A step that stays below the bound goes alike under the limit and
without. -/
theorem step_capped_below (h : m.memory.Below length limit)
    (ha : ∀ a ∈ m.accesses, a < max (length : Int) limit) :
    (m.capped limit).step = (m.step.1, m.step.2.capped limit) ∧
      m.step.2.memory.Below length limit := by
  have hstep := step_capped h
  rw [firstPast_eq_none.2 ha] at hstep
  exact hstep

theorem StaysBelow.first {bound : Int} {n : Nat} (h : m.StaysBelow bound (n + 1)) :
    ∀ a ∈ m.accesses, a < bound := h 0 (Nat.succ_pos n) [] m (.refl m)

/-- What stays below a bound for some instructions stays below it for the
instructions after the first. -/
theorem StaysBelow.rest {bound : Int} {n : Nat} {event : Option Event}
    (h : m.StaysBelow bound (n + 1)) (hs : m.step = (.ok event, m'))
    (he : event = none ∨ ∃ v, event = some (.output v)) : m'.StaysBelow bound n := by
  intro k hk out m'' hr
  rcases he with rfl | ⟨v, rfl⟩
  · exact h (k + 1) (by omega) out m'' (.silent hs hr)
  · exact h (k + 1) (by omega) (v :: out) m'' (.output hs hr)

/-- A run that stays below the bound goes alike under the limit and without. -/
theorem steps_capped {n : Nat} {out : List Int} (hr : Steps n m out m')
    (h : m.memory.Below length limit) (hb : m.StaysBelow (max (length : Int) limit) n) :
    Steps n (m.capped limit) out (m'.capped limit) ∧ m'.memory.Below length limit := by
  induction hr with
  | refl m => exact ⟨.refl _, h⟩
  | silent hs _ ih =>
    obtain ⟨hstep, hnext⟩ := step_capped_below h hb.first
    rw [hs] at hstep hnext
    obtain ⟨hr, hlast⟩ := ih hnext (hb.rest hs (.inl rfl))
    exact ⟨.silent hstep hr, hlast⟩
  | output hs _ ih =>
    obtain ⟨hstep, hnext⟩ := step_capped_below h hb.first
    rw [hs] at hstep hnext
    obtain ⟨hr, hlast⟩ := ih hnext (hb.rest hs (.inr ⟨_, rfl⟩))
    exact ⟨.output hstep hr, hlast⟩

/-- The stretch with its machine under a limit. -/
def Stretch.capped (limit : Int) (s : Stretch) : Stretch :=
  ⟨s.outputs, s.ending, s.machine.capped limit⟩

/-- So does a drive to the halt. -/
theorem collect_capped (n : Nat) (h : m.memory.Below length limit)
    (hb : m.StaysBelow (max (length : Int) limit) n) (window : Nat) (before : List Int) :
    (m.capped limit).collect window before n = (m.collect window before n).capped limit := by
  induction n generalizing m window before with
  | zero => rfl
  | succ n ih =>
    obtain ⟨hstep, hnext⟩ := step_capped_below h hb.first
    rcases hs : m.step with ⟨f | _ | v | a | _, m'⟩ <;> rw [hs] at hstep hnext <;>
      simp only [collect, hstep, hs]
    · rfl
    · exact ih hnext (hb.rest hs (.inl rfl)) window before
    · exact ih hnext (hb.rest hs (.inr ⟨v, rfl⟩)) n (v :: before)
    · rfl
    · rfl

end Capped

theorem boot_capped {program : List Datum} {u : Machine} (h : boot program none = .ok u)
    (limit : Int) : boot program (some limit) = .ok (u.capped limit) ∧ u.status = .running ∧
      u.memory.Below program.length limit := by
  obtain ⟨xs, rfl, hx, rfl⟩ := boot_fresh h
  have hsize : (fresh xs none).memory.size = (xs.map Datum.int).length := by
    simp [fresh, Memory.size]
  exact ⟨boot_ints hx (some limit), rfl, rfl, Nat.le_of_eq hsize.symm, by rw [hsize]; omega⟩

/-- The run of a program under a limit, beside its run without one. The bound is
the length of the program, or the limit if that is greater. As long as all
accesses of the unlimited run are below the bound, the run under the limit is
the same step for step: the same events, registers and cells. If a step accesses
an address at or past the bound, the run under the limit fails at the first such
access, by the fault for it. If none ever does, the runs come to the same end, or
go on together for ever. -/
theorem limit_cuts_short {program : List Datum} {xs : List Int} {u : Machine}
    (boot : boot program none = .ok u) (inputs : ∀ x ∈ xs, InCell x) (limit : Int) :
    let bound := max (program.length : Int) limit
    let c := u.capped limit
    let start := u.enqueue xs
    Machine.boot program (some limit) = .ok c ∧
    u.feed (xs.map .int) = (.ok (), start) ∧
    c.feed (xs.map .int) = (.ok (), start.capped limit) ∧
    (∀ n out m, Steps n start out m → start.StaysBelow bound n →
      Steps n (start.capped limit) out (m.capped limit) ∧
      ((∀ a ∈ m.accesses, a < bound) →
        (m.capped limit).step = (m.step.1, m.step.2.capped limit)) ∧
      ∀ a, firstPast bound m.accesses = some a → ∃ memory,
        (m.capped limit).step = (.error (.pastLimit a limit), { m with memory := memory }) ∧
        c.Runs (xs.map .int) (.error (.pastLimit a limit)) { m with memory := memory }) ∧
    ((∀ n, start.StaysBelow bound n) → ∀ fuel, c.run (xs.map .int) none fuel =
      ((u.run (xs.map .int) none fuel).1, (u.run (xs.map .int) none fuel).2.capped limit)) := by
  intro bound c start
  obtain ⟨hboot, hs, hu⟩ := boot_capped boot limit
  have hstart : start.memory.Below program.length limit := hu
  have hfeed : c.feed (xs.map .int) = (.ok (), start.capped limit) :=
    feed_running (m := c) hs inputs
  refine ⟨hboot, feed_running hs inputs, hfeed, fun n out m hr hb => ?_, fun hb fuel => ?_⟩
  · obtain ⟨hr', hm⟩ := steps_capped hr hstart hb
    refine ⟨hr', fun ha => (step_capped_below hm ha).1, fun a ha => ?_⟩
    have hstep := step_capped hm
    rw [show firstPast (max (program.length : Int) limit) m.accesses = some a from ha] at hstep
    obtain ⟨memory, hstep⟩ := hstep
    exact ⟨memory, hstep, .of_steps (m := c) hs inputs hr' hstep rfl rfl⟩
  · have hcollect := collect_capped fuel hstart (hb fuel) fuel []
    have hanswer (t : Stretch) : (t.capped limit).answer none = t.answer none := by
      obtain ⟨out, ending, m⟩ := t
      cases ending <;> rfl
    have hrun : c.run (xs.map .int) none fuel =
        (((start.capped limit).collect fuel [] fuel).answer none,
          ((start.capped limit).collect fuel [] fuel).machine) :=
      run_eq (m := c) hs inputs none fuel
    rw [hrun, hcollect, hanswer, run_eq hs inputs]
    rfl

/-- A program that puts its input past its end and gives out a cell further on.
Under a limit of eight cells the input is put, and then the output fails. A limit
of ten cells is never met. -/
theorem limit_cuts_short_output :
    let u : Machine := { memory := ⟨#[3, 6, 4, 9, 99], none⟩ }
    let taken : Machine := { pointer := 2, steps := 1, memory := ⟨#[3, 6, 4, 9, 99, 0, 7], none⟩ }
    boot ([3, 6, 4, 9, 99].map .int) none = .ok u ∧ (∀ x ∈ [(7 : Int)], InCell x) ∧
      boot ([3, 6, 4, 9, 99].map .int) (some 8) = .ok (u.capped 8) ∧
      Steps 1 (u.enqueue [7]) [] taken ∧ firstPast 8 taken.accesses = some 9 ∧
      (∃ m, (u.capped 8).Runs ([7].map .int) (.error (.pastLimit 9 8)) m) ∧
      ∀ fuel, (u.capped 10).run ([7].map .int) none fuel =
        ((u.run ([7].map .int) none fuel).1, (u.run ([7].map .int) none fuel).2.capped 10) := by
  intro u taken
  let told : Machine :=
    { pointer := 4, lastOutput := some 0, steps := 2,
      memory := ⟨#[3, 6, 4, 9, 99, 0, 7, 0, 0, 0], none⟩ }
  have boots : boot ([3, 6, 4, 9, 99].map .int) none = .ok u := boot_ints (by decide) none
  have fits : ∀ x ∈ [(7 : Int)], InCell x := by decide
  have takes : (u.enqueue [7]).step = (.ok none, taken) := by with_unfolding_all rfl
  have tells : taken.step = (.ok (some (.output 0)), told) := by with_unfolding_all rfl
  have halts : told.step = (.ok (some .halted), { told with status := .halted, steps := 3 }) := by
    with_unfolding_all rfl
  have one : Steps 1 (u.enqueue [7]) [] taken := .one takes
  have two : Steps 2 (u.enqueue [7]) [0] told := .silent takes (.output tells (.refl told))
  -- the program makes no more than these steps
  have below {bound : Int} {n : Nat} (h₀ : ∀ a ∈ (u.enqueue [7]).accesses, a < bound)
      (h₁ : 1 < n → ∀ a ∈ taken.accesses, a < bound) (h₂ : 2 < n → ∀ a ∈ told.accesses, a < bound) :
      (u.enqueue [7]).StaysBelow bound n := by
    intro k hk out m hr
    match k with
    | 0 =>
      cases hr
      exact h₀
    | 1 =>
      obtain ⟨-, rfl⟩ := hr.det one
      exact h₁ hk
    | 2 =>
      obtain ⟨-, rfl⟩ := hr.det two
      exact h₂ hk
    | k + 3 =>
      rcases hr with _ | ⟨first, hr⟩ | ⟨first, -⟩ <;> rw [takes] at first <;> cases first
      rcases hr with _ | ⟨second, -⟩ | ⟨second, hr⟩ <;> rw [tells] at second <;> cases second
      rcases hr with _ | ⟨third, -⟩ | ⟨third, -⟩ <;> rw [halts] at third <;> cases third
  have past : firstPast 8 taken.accesses = some 9 := by decide +kernel
  obtain ⟨hboot, -, -, cut, -⟩ := limit_cuts_short boots fits 8
  obtain ⟨-, -, -, -, same⟩ := limit_cuts_short boots fits 10
  refine ⟨boots, fits, hboot, one, past, ?_, same fun n => below ?_ ?_ ?_⟩
  · obtain ⟨-, -, fails⟩ := cut 1 [] taken one (below (by decide +kernel) (by omega) (by omega))
    obtain ⟨memory, -, hruns⟩ := fails 9 past
    exact ⟨_, hruns⟩
  · decide +kernel
  · exact fun _ => by decide +kernel
  · exact fun _ => by decide +kernel

end Machine
end Intcode
