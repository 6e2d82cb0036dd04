/-
# A ring is so many machines by themselves

The machines of a ring know nothing of each other. What a machine hears reaches
it late, a value at a time, and may pile up unread, and it is passed over once
it has halted. All the same, it gives out what it gives out by itself with its
phase and all that it hears queued beforehand, and no more (`Ring.Station`).

The signal is the only thing that the machines share. It is always the last
value that any of them has given out (`Ring.latest`).

A turn keeps a machine at its station (`Ring.Station.turn`), and passes the
signal on. A round is a row of turns and of machines passed over
(`Ring.Sweep`), and the ring is a row of rounds (`Ring.Sound.round`).

Key definitions: `Ring.Station`, `Ring.latest`, `Ring.Sweep`, `Ring.Relays`, `Ring.Sound`.
Key theorems: `Ring.Station.turn`, `Ring.Sweep.each`, `Ring.Sweep.relays`,
`Ring.Sound.round`, `Ring.spin_ok`, `Ring.decomposes`.
-/
import Mathlib.Data.List.Perm.Basic
import Intcode.Ring
import Intcode.Proofs.Schedule

namespace Intcode
namespace Machine

variable {start m m' : Machine} {out : List Int}

/-- Values queued late, on a machine that runs, could have been queued at the
start. -/
theorem Reaches.enqueue (h : Reaches start out m) (hh : m.status ≠ .halted) (xs : List Int) :
    Reaches (start.enqueue xs) out (m.enqueue xs) := by
  cases h with
  | going run => exact .going (run.enqueue xs)
  | halted _ halt => exact absurd (step_halts halt).1 hh

/-- A drive to the next event goes on along the course. -/
theorem Reaches.tick (h : Reaches start out m) (hh : m.status ≠ .halted) {budget : Option Int}
    {fuel : Nat} {event : Event} (ht : m.tick budget fuel = (some (.ok event), m'))
    (hw : ∀ a, event ≠ .awaiting a) : Reaches start (out ++ emitted (.ok (some event))) m' := by
  obtain ⟨k, m₁, silent, last⟩ := tick_ok hh ht
  cases h with
  | halted _ halt => exact absurd (step_halts halt).1 hh
  | going run =>
    have hr := run.trans silent
    rw [List.append_nil] at hr
    cases event with
    | output v => exact .going (hr.trans (.output last (.refl m')))
    | awaiting a => exact absurd rfl (hw a)
    | halted =>
      rw [emitted_halted, List.append_nil]
      exact .halted hr last

/-- A machine that runs has come from one that ran. -/
theorem Reaches.running (h : Reaches start out m) (hs : start.status = .running)
    (hh : m.status ≠ .halted) : m.status = .running := by
  cases h with
  | going run => exact run.completed.2.1 hs
  | halted _ halt => exact absurd (step_halts halt).1 hh

end Machine

namespace Ring

/-! ### A machine at its station -/

/-- Where a machine of the ring is: where a fresh machine comes to by itself,
with the phase and all that was `heard` queued beforehand, giving out what was
`said`. -/
def Station (fresh : Machine) (phase : Datum) (heard : List Datum) (said : List Int)
    (m : Machine) : Prop :=
  ∃ xs : List Int, phase :: heard = xs.map .int ∧ (∀ x ∈ xs, InCell x) ∧
    (fresh.enqueue xs).Reaches said m

namespace Station

variable {fresh m m' : Machine} {phase : Datum} {heard : List Datum} {said : List Int}

theorem seed (hs : fresh.status = .running) (h : fresh.feed [phase] = (.ok (), m)) :
    Station fresh phase [] [] m := by
  obtain ⟨xs, hxs, hx, rfl⟩ := Machine.feed_accepted hs h
  exact ⟨xs, hxs, hx, .going (.refl _)⟩

/-- A turn is a feeding and a drive to an output or the halt. -/
theorem turn_ok {budget : Option Int} {fuel round index : Nat} {signal : Datum}
    {answer : Option Int} (h : turn budget fuel round index signal m = some (.ok (answer, m'))) :
    ∃ fed event, m.feed [signal] = (.ok (), fed) ∧ fed.tick budget fuel = (some (.ok event), m') ∧
      (∀ a, event ≠ .awaiting a) ∧ emitted (.ok (some event)) = answer.toList := by
  unfold Ring.turn at h
  rcases hf : m.feed [signal] with ⟨f | ⟨⟩, fed⟩ <;> simp only [hf] at h
  · cases h
  · rcases ht : fed.tick budget fuel with ⟨_ | f | v | a | _, m₁⟩ <;> simp only [ht] at h <;> cases h
    · exact ⟨fed, .output v, rfl, ht, nofun, rfl⟩
    · exact ⟨fed, .halted, rfl, ht, nofun, rfl⟩

/-- A turn keeps a machine at its station: it has heard the signal, and said
what it gave out. -/
theorem turn (h : Station fresh phase heard said m) (hs : fresh.status = .running)
    (hh : m.status ≠ .halted) {budget : Option Int} {fuel round index : Nat} {signal : Datum}
    {answer : Option Int}
    (ht : Ring.turn budget fuel round index signal m = some (.ok (answer, m'))) :
    Station fresh phase (heard ++ [signal]) (said ++ answer.toList) m' := by
  obtain ⟨xs, hxs, hx, reaches⟩ := h
  obtain ⟨fed, event, hfeed, htick, hw, hanswer⟩ := turn_ok ht
  obtain ⟨ys, hys, hy, rfl⟩ := Machine.feed_accepted (reaches.running hs hh) hfeed
  have reaches' : (fresh.enqueue (xs ++ ys)).Reaches said (m.enqueue ys) := by
    rw [← Machine.enqueue_enqueue]
    exact reaches.enqueue hh ys
  refine ⟨xs ++ ys, ?_, List.forall_mem_append.2 ⟨hx, hy⟩, ?_⟩
  · rw [← List.cons_append, hxs, hys, List.map_append]
  · rw [← hanswer]
    exact reaches'.tick hh htick hw

/-- A machine at its station that has halted is where a run by itself ends. -/
theorem runs (h : Station fresh phase heard said m) (hs : fresh.status = .running)
    (hh : m.status = .halted) : fresh.Runs (phase :: heard) (.ok said) m := by
  obtain ⟨xs, hxs, hx, reaches⟩ := h
  rw [hxs]
  cases reaches with
  | going run =>
    have := run.completed.2.1 hs
    rw [hh] at this
    cases this
  | halted run halt => exact .of_steps hs hx run halt rfl rfl

end Station

/-! ### The signal -/

/-- The last value given out in some turns, or the signal before them if none
was. -/
def latest (signal : Datum) (turns : List Turn) : Datum :=
  match (turns.filterMap (·.said)).getLast? with
  | some v => .int v
  | none => signal

theorem latest_append (signal : Datum) (turns more : List Turn) :
    latest signal (turns ++ more) = latest (latest signal turns) more := by
  unfold latest
  rw [List.filterMap_append, List.getLast?_append]
  cases (more.filterMap (·.said)).getLast? <;> rfl

theorem latest_singleton (signal : Datum) (t : Turn) :
    latest signal [t] = passOn signal t.said := by
  unfold latest
  cases ht : t.said <;> simp [passOn, ht]

/-- The turns hand the signal on, from the signal before them to the signal
after them. -/
structure Relays (signal : Datum) (turns : List Turn) (after : Datum) : Prop where
  heard : ∀ k t, turns[k]? = some t → t.heard = latest signal (turns.take k)
  after : after = latest signal turns

theorem Relays.nil (signal : Datum) : Relays signal [] signal :=
  ⟨nofun, rfl⟩

theorem Relays.append {signal between after : Datum} {turns more : List Turn}
    (h : Relays signal turns between) (h' : Relays between more after) :
    Relays signal (turns ++ more) after := by
  refine ⟨fun k t ht => ?_, ?_⟩
  · by_cases hk : k < turns.length
    · rw [List.getElem?_append_left hk] at ht
      rw [List.take_append_of_le_length (Nat.le_of_lt hk)]
      exact h.heard k t ht
    · rw [List.getElem?_append_right (by omega)] at ht
      rw [List.take_append, List.take_of_length_le (by omega), latest_append, ← h.after]
      exact h'.heard _ t ht
  · rw [latest_append, ← h.after, h'.after]

theorem Relays.one (index : Nat) (signal : Datum) (said : Option Int) :
    Relays signal [⟨index, signal, said⟩] (passOn signal said) := by
  refine ⟨fun k t ht => ?_, (latest_singleton signal ⟨index, signal, said⟩).symm⟩
  obtain ⟨rfl, rfl⟩ : k = 0 ∧ t = ⟨index, signal, said⟩ := by
    cases k with
    | zero => exact ⟨rfl, by cases ht; rfl⟩
    | succ k => cases ht
  rfl

/-! ### Who heard and said what -/

/-- What the machine of an index heard in some turns. -/
def heardIn (turns : List Turn) (index : Nat) : List Datum :=
  (turns.filter (·.index = index)).map (·.heard)

/-- What the machine of an index said in some turns. -/
def saidIn (turns : List Turn) (index : Nat) : List Int :=
  (turns.filter (·.index = index)).filterMap (·.said)

theorem heardIn_append (turns more : List Turn) (index : Nat) :
    heardIn (turns ++ more) index = heardIn turns index ++ heardIn more index := by
  simp only [heardIn, List.filter_append, List.map_append]

theorem saidIn_append (turns more : List Turn) (index : Nat) :
    saidIn (turns ++ more) index = saidIn turns index ++ saidIn more index := by
  simp only [saidIn, List.filter_append, List.filterMap_append]

theorem heardIn_cons (t : Turn) (turns : List Turn) (index : Nat) :
    heardIn (t :: turns) index =
      if t.index = index then t.heard :: heardIn turns index else heardIn turns index := by
  by_cases h : t.index = index <;> simp [heardIn, h]

theorem saidIn_cons (t : Turn) (turns : List Turn) (index : Nat) :
    saidIn (t :: turns) index =
      if t.index = index then t.said.toList ++ saidIn turns index else saidIn turns index := by
  by_cases h : t.index = index <;> cases hs : t.said <;> simp [saidIn, h, hs]

/-! ### A round -/

/-- The turns of a round, from the machine of an index on: a machine that has
halted is passed over, any other takes its turn. -/
inductive Sweep (budget : Option Int) (fuel round : Nat) :
    Nat → Datum → List Machine → List Machine → Datum → List Turn → Prop where
  | done (index : Nat) (signal : Datum) : Sweep budget fuel round index signal [] [] signal []
  | passes {index : Nat} {signal after : Datum} {m : Machine} {ms ms' : List Machine}
      {turns : List Turn} (halted : m.status = .halted)
      (rest : Sweep budget fuel round (index + 1) signal ms ms' after turns) :
      Sweep budget fuel round index signal (m :: ms) (m :: ms') after turns
  | takes {index : Nat} {signal after : Datum} {said : Option Int} {m m' : Machine}
      {ms ms' : List Machine} {turns : List Turn} (live : m.status ≠ .halted)
      (taken : turn budget fuel round index signal m = some (.ok (said, m')))
      (rest : Sweep budget fuel round (index + 1) (passOn signal said) ms ms' after turns) :
      Sweep budget fuel round index signal (m :: ms) (m' :: ms') after
        (⟨index, signal, said⟩ :: turns)

section Round

variable {budget : Option Int} {fuel round index : Nat} {signal after : Datum}
  {ms ms' : List Machine} {turns : List Turn}

theorem finished_iff (m : Machine) : m.finished = true ↔ m.status = .halted := by
  simp only [Machine.finished, beq_iff_eq]

theorem sweep_ok (h : sweep budget fuel round index signal ms = some (.ok (ms', after, turns))) :
    Sweep budget fuel round index signal ms ms' after turns := by
  induction ms generalizing index signal ms' after turns with
  | nil =>
    cases h
    exact .done index signal
  | cons m ms ih =>
    rw [sweep] at h
    by_cases hm : m.finished = true
    · rw [if_pos hm] at h
      rcases hs : sweep budget fuel round (index + 1) signal ms with _ | f | ⟨ms₁, after₁, turns₁⟩ <;>
        rw [hs] at h <;> cases h
      exact .passes ((finished_iff m).1 hm) (ih hs)
    · rw [if_neg hm] at h
      rcases ht : turn budget fuel round index signal m with _ | f | ⟨said, m₁⟩ <;>
        simp only [ht] at h
      · cases h
      · cases h
      · rcases hs : sweep budget fuel round (index + 1) (passOn signal said) ms with
          _ | f | ⟨ms₁, after₁, turns₁⟩ <;> rw [hs] at h <;> cases h
        exact .takes (fun hh => hm ((finished_iff m).2 hh)) ht (ih hs)

namespace Sweep

/-- A row of turns, and of machines passed over, is a round. -/
theorem sweep (h : Sweep budget fuel round index signal ms ms' after turns) :
    Ring.sweep budget fuel round index signal ms = some (.ok (ms', after, turns)) := by
  induction h with
  | done => rfl
  | passes halted _ ih =>
    rw [Ring.sweep, if_pos ((finished_iff _).2 halted), ih]
    rfl
  | takes live taken _ ih =>
    rw [Ring.sweep, if_neg (fun h => live ((finished_iff _).1 h))]
    simp only [taken, ih]
    rfl

/-- The turns of a round are taken in order, at most one by each machine. -/
theorem order (h : Sweep budget fuel round index signal ms ms' after turns) :
    (turns.map (·.index)).Sublist (List.range' index ms.length) := by
  induction h with
  | done => exact List.Sublist.refl _
  | passes _ _ ih => exact ih.cons _
  | takes _ _ _ ih => exact ih.cons_cons _

theorem index_le (h : Sweep budget fuel round index signal ms ms' after turns) :
    ∀ t ∈ turns, index ≤ t.index := by
  intro t ht
  have := h.order.subset (List.mem_map_of_mem ht)
  exact (List.mem_range'_1.1 this).1

/-- The machines before the first of the round hear and say nothing in it. -/
theorem absent (h : Sweep budget fuel round index signal ms ms' after turns) {i : Nat}
    (hi : i < index) : heardIn turns i = [] ∧ saidIn turns i = [] := by
  have hnone : turns.filter (·.index = i) = [] := by
    apply List.filter_eq_nil_iff.2
    intro t ht
    have := h.index_le t ht
    simp only [decide_eq_true_eq]
    omega
  simp only [heardIn, saidIn, hnone, List.map_nil, List.filterMap_nil, and_self]

theorem length (h : Sweep budget fuel round index signal ms ms' after turns) :
    ms'.length = ms.length := by
  induction h with
  | done => rfl
  | passes _ _ ih | takes _ _ _ ih => rw [List.length_cons, List.length_cons, ih]

theorem relays (h : Sweep budget fuel round index signal ms ms' after turns) :
    Relays signal turns after := by
  induction h with
  | done _ signal => exact .nil signal
  | passes _ _ ih => exact ih
  | @takes index signal _ said _ _ _ _ _ _ _ _ ih =>
    exact (Relays.one index signal said).append ih

/-- What a turn makes of each machine that takes one, and what holds of those
passed over, is what a round makes of each machine. The properties may speak of
all that the machine has heard and said. -/
theorem each {P Q : List Datum → List Int → Machine → Prop}
    (passed : ∀ {heard said m}, m.status = .halted → P heard said m → Q heard said m)
    (turned : ∀ {heard said m index signal answer m'}, m.status ≠ .halted → P heard said m →
      turn budget fuel round index signal m = some (.ok (answer, m')) →
      Q (heard ++ [signal]) (said ++ answer.toList) m')
    (h : Sweep budget fuel round index signal ms ms' after turns) {j : Nat} {m : Machine}
    (hm : ms[j]? = some m) {heard : List Datum} {said : List Int} (before : P heard said m) :
    ∃ m', ms'[j]? = some m' ∧
      Q (heard ++ heardIn turns (index + j)) (said ++ saidIn turns (index + j)) m' := by
  -- the machine is the first of the row, or one of the rest, whose indices start one higher
  induction h generalizing j with
  | done => cases hm
  | @passes index _ _ _ _ _ turns halted rest ih =>
    cases j with
    | zero =>
      cases hm
      obtain ⟨hheard, hsaid⟩ := rest.absent (Nat.lt_succ_self index)
      refine ⟨m, rfl, ?_⟩
      rw [Nat.add_zero, hheard, hsaid, List.append_nil, List.append_nil]
      exact passed halted before
    | succ j =>
      have := ih hm
      rwa [Nat.add_right_comm] at this
  | @takes index signal _ answer _ m' _ _ turns live taken rest ih =>
    rw [heardIn_cons, saidIn_cons]
    cases j with
    | zero =>
      cases hm
      obtain ⟨hheard, hsaid⟩ := rest.absent (Nat.lt_succ_self index)
      refine ⟨m', rfl, ?_⟩
      rw [Nat.add_zero, if_pos rfl, if_pos rfl, hheard, hsaid, List.append_nil]
      exact turned live before taken
    | succ j =>
      have hne : index ≠ index + (j + 1) := by omega
      rw [if_neg hne, if_neg hne]
      have := ih hm
      rwa [Nat.add_right_comm] at this

end Sweep

end Round

/-! ### The ring -/

/-- What holds of a ring after any number of rounds: every machine is at its
station, the signal is the last value given out, and the turns are those of the
rounds, in order. -/
structure Sound (program phases : List Datum) (signal : Datum) (r : Ring) : Prop where
  length : r.machines.length = phases.length
  stations : ∀ (i : Nat) phase, phases[i]? = some phase → ∃ fresh m,
    Machine.boot program none = .ok fresh ∧ r.machines[i]? = some m ∧
      Station fresh phase (r.heardBy i) (r.saidBy i) m
  relays : Relays signal r.turns.toList r.signal
  rounds : ∃ rounds : List (List Turn), r.turns.toList = rounds.flatten ∧
    rounds.length = r.rounds ∧
    ∀ round ∈ rounds, (round.map (·.index)).Sublist (List.range phases.length)

/-- A round is a row of turns, which come after those taken before. -/
theorem round_ok {budget : Option Int} {fuel : Nat} {r r' : Ring}
    (h : r.round budget fuel = some (.ok r')) : ∃ taken,
      Sweep budget fuel (r.rounds + 1) 0 r.signal r.machines r'.machines r'.signal taken ∧
      r'.rounds = r.rounds + 1 ∧ r'.turns.toList = r.turns.toList ++ taken ∧
      (∀ i, r'.heardBy i = r.heardBy i ++ heardIn taken i) ∧
      ∀ i, r'.saidBy i = r.saidBy i ++ saidIn taken i := by
  unfold Ring.round at h
  rcases hs : sweep budget fuel (r.rounds + 1) 0 r.signal r.machines with
    _ | f | ⟨ms, after, taken⟩ <;> simp only [hs] at h <;> cases h
  have hturns : (r.turns ++ taken).toList = r.turns.toList ++ taken := by simp
  refine ⟨taken, sweep_ok hs, rfl, hturns, fun i => ?_, fun i => ?_⟩
  · show heardIn (r.turns ++ taken).toList i = _
    rw [hturns, heardIn_append]
    rfl
  · show saidIn (r.turns ++ taken).toList i = _
    rw [hturns, saidIn_append]
    rfl

/-- What rounds keep, a ring that comes to its end keeps, and then all its
machines have halted. -/
theorem spin_ok {budget : Option Int} {fuel n : Nat} {P : Ring → Prop}
    (kept : ∀ {r r'}, r.finished = false → P r → r.round budget fuel = some (.ok r') → P r')
    {r r' : Ring} (h : P r) (hr : r.spin budget fuel n = some (.ok r')) :
    P r' ∧ r'.finished = true := by
  induction n generalizing r with
  | zero =>
    unfold Ring.spin at hr
    split at hr
    · cases hr
      exact ⟨h, ‹_›⟩
    · cases hr
  | succ n ih =>
    unfold Ring.spin at hr
    split at hr
    · cases hr
      exact ⟨h, ‹_›⟩
    · rename_i going
      rcases hround : r.round budget fuel with _ | f | r₁ <;> simp only [hround] at hr
      · cases hr
      · cases hr
      · exact ih (kept (Bool.eq_false_iff.2 going) h hround) hr

theorem boot_running {program : List Datum} {limit : Option Int} {fresh : Machine}
    (h : Machine.boot program limit = .ok fresh) : fresh.status = .running := by
  obtain ⟨memory, rfl⟩ := Machine.boot_ok h
  rfl

theorem assemble_ok {program phases : List Datum} {signal : Datum} {r : Ring}
    (h : assemble program phases signal = .ok r) :
    ∃ ms, stations program phases = .ok ms ∧ r = ⟨ms, signal, 0, #[]⟩ := by
  unfold assemble at h
  rcases hs : stations program phases with f | ms <;> rw [hs] at h <;> cases h
  exact ⟨ms, rfl, rfl⟩

theorem stations_ok {program phases : List Datum} {ms : List Machine}
    (h : stations program phases = .ok ms) : ms.length = phases.length ∧
      ∀ (i : Nat) phase, phases[i]? = some phase → ∃ fresh m,
        Machine.boot program none = .ok fresh ∧ ms[i]? = some m ∧
          fresh.feed [phase] = (.ok (), m) := by
  induction phases generalizing ms with
  | nil =>
    cases h
    exact ⟨rfl, nofun⟩
  | cons first phases ih =>
    rw [stations] at h
    cases hb : Machine.boot program none with
    | error f =>
      rw [hb] at h
      cases h
    | ok fresh =>
      rw [hb] at h
      rcases hf : fresh.feed [first] with ⟨f | ⟨⟩, m⟩ <;>
        simp only [bind, Except.bind, hf] at h
      · cases h
      · cases hs : stations program phases with
        | error f =>
          rw [hs] at h
          cases h
        | ok rest =>
          rw [hs] at h
          cases h
          obtain ⟨hlength, hrest⟩ := ih hs
          refine ⟨by rw [List.length_cons, List.length_cons, hlength], fun i phase hi => ?_⟩
          cases i with
          | zero =>
            cases hi
            exact ⟨fresh, m, rfl, rfl, hf⟩
          | succ i =>
            rw [← hb]
            exact hrest i phase hi

namespace Sound

variable {program phases : List Datum} {initial : Datum} {budget : Option Int} {fuel : Nat}
  {r r' : Ring}

theorem assemble (h : Ring.assemble program phases initial = .ok r) :
    Sound program phases initial r := by
  obtain ⟨ms, hs, rfl⟩ := assemble_ok h
  obtain ⟨hlength, hstations⟩ := stations_ok hs
  refine ⟨hlength, fun i phase hi => ?_, .nil initial, [], rfl, rfl, List.forall_mem_nil _⟩
  obtain ⟨fresh, m, hb, hm, hf⟩ := hstations i phase hi
  exact ⟨fresh, m, hb, hm, .seed (boot_running hb) hf⟩

theorem round (h : Sound program phases initial r) (hr : r.round budget fuel = some (.ok r')) :
    Sound program phases initial r' := by
  obtain ⟨taken, sweep, hrounds, hturns, hheard, hsaid⟩ := round_ok hr
  refine ⟨sweep.length.trans h.length, fun i phase hi => ?_, ?_, ?_⟩
  · obtain ⟨fresh, m, hb, hm, station⟩ := h.stations i phase hi
    have hs := boot_running hb
    -- a round keeps all machines at their stations
    obtain ⟨m', hm', station'⟩ := sweep.each (P := Station fresh phase) (Q := Station fresh phase)
      (fun _ station => station) (fun live station taken => station.turn hs live taken) hm station
    refine ⟨fresh, m', hb, hm', ?_⟩
    rw [Nat.zero_add] at station'
    rwa [hheard, hsaid]
  · rw [hturns]
    exact h.relays.append sweep.relays
  · obtain ⟨rounds, hflat, hcount, horder⟩ := h.rounds
    refine ⟨rounds ++ [taken], ?_, ?_, ?_⟩
    · rw [hturns, hflat]
      simp
    · rw [List.length_append, hcount, hrounds]
      rfl
    · have last : (taken.map (·.index)).Sublist (List.range phases.length) := by
        rw [List.range_eq_range', ← h.length]
        exact sweep.order
      intro round hround
      rcases List.mem_append.1 hround with hround | hround
      · exact horder round hround
      · rw [List.mem_singleton.1 hround]
        exact last

end Sound

/-! ### The values given out -/

theorem flatMap_single {α : Type} {n k : Nat} (h : k < n) (l : List α) :
    (List.range n).flatMap (fun i => if k = i then l else []) = l := by
  induction n with
  | zero => omega
  | succ n ih =>
    rw [List.range_succ, List.flatMap_append, List.flatMap_singleton]
    by_cases hk : k = n
    · have before : (List.range n).flatMap (fun i => if k = i then l else []) = [] := by
        refine List.flatMap_eq_nil_iff.2 fun i hi => if_neg ?_
        have := List.mem_range.1 hi
        omega
      rw [before, if_pos hk, List.nil_append]
    · rw [ih (by omega), if_neg hk, List.append_nil]

/-- The values given out in the turns are those of the machines, each as often
as its machine gives it out. -/
theorem said_perm {turns : List Turn} {n : Nat} (h : ∀ t ∈ turns, t.index < n) :
    (turns.filterMap (·.said)).Perm ((List.range n).flatMap (saidIn turns)) := by
  induction turns with
  | nil =>
    have hnone : (List.range n).flatMap (saidIn []) = [] :=
      List.flatMap_eq_nil_iff.2 fun _ _ => rfl
    rw [hnone]
    exact .refl _
  | cons t turns ih =>
    have hcons : (t :: turns).filterMap (·.said) = t.said.toList ++ turns.filterMap (·.said) := by
      cases hs : t.said <;> simp [hs]
    have hsplit : saidIn (t :: turns) =
        fun i => (if t.index = i then t.said.toList else []) ++ saidIn turns i := by
      funext i
      rw [saidIn_cons]
      split <;> rfl
    have hfirst := flatMap_single (h t List.mem_cons_self) t.said.toList
    have hrest := ih fun u hu => h u (List.mem_cons_of_mem t hu)
    calc (t :: turns).filterMap (·.said)
        = (List.range n).flatMap (fun i => if t.index = i then t.said.toList else []) ++
            turns.filterMap (·.said) := by rw [hcons, hfirst]
      _ |>.Perm _ := (hrest.append_left _).trans (List.flatMap_append_perm ..)
      _ = _ := by rw [hsplit]

/-- The signals of a ring: the one that was current at each turn, and the last
one. -/
def signals (r : Ring) : List Datum := r.turns.toList.map (·.heard) ++ [r.signal]

theorem Relays.next {signal after : Datum} {turns : List Turn} (h : Relays signal turns after)
    {k : Nat} {t : Turn} (ht : turns[k]? = some t) :
    (turns.map (·.heard) ++ [after])[k + 1]? = some (passOn t.heard t.said) := by
  have hlatest : latest signal (turns.take (k + 1)) = passOn t.heard t.said := by
    rw [List.take_add_one, ht, Option.toList_some, latest_append, latest_singleton, h.heard k t ht]
  obtain ⟨hk, -⟩ := List.getElem?_eq_some_iff.1 ht
  by_cases hlast : k + 1 < turns.length
  · have hnext : turns[k + 1]? = some turns[k + 1] := List.getElem?_eq_getElem hlast
    rw [List.getElem?_append_left (by rwa [List.length_map]), List.getElem?_map, hnext,
      Option.map_some, h.heard _ _ hnext, hlatest]
  · rw [List.take_of_length_le (by omega), ← h.after] at hlatest
    have hlength : k + 1 = (turns.map (·.heard)).length := by
      rw [List.length_map]
      omega
    rw [hlength, List.getElem?_concat_length, hlatest]

namespace Sound

variable {program phases : List Datum} {initial : Datum} {r : Ring}

theorem index_lt (h : Sound program phases initial r) :
    ∀ t ∈ r.turns.toList, t.index < phases.length := by
  obtain ⟨rounds, hflat, -, horder⟩ := h.rounds
  intro t ht
  rw [hflat] at ht
  obtain ⟨round, hround, ht⟩ := List.mem_flatten.1 ht
  exact List.mem_range.1 ((horder round hround).subset (List.mem_map_of_mem ht))

/-- When all machines have halted, each is where a run by itself ends. -/
theorem runs (h : Sound program phases initial r) (hr : r.finished = true) {i : Nat}
    {phase : Datum} (hi : phases[i]? = some phase) : ∃ fresh m,
      Machine.boot program none = .ok fresh ∧ r.machines[i]? = some m ∧ m.status = .halted ∧
        fresh.Runs (phase :: r.heardBy i) (.ok (r.saidBy i)) m := by
  obtain ⟨fresh, m, hb, hm, station⟩ := h.stations i phase hi
  have hfinished : m.finished = true := List.all_eq_true.1 hr m (List.mem_of_getElem? hm)
  have halted : m.status = .halted := (finished_iff m).1 hfinished
  exact ⟨fresh, m, hb, hm, halted, station.runs (boot_running hb) halted⟩

end Sound

/-- If a ring comes to its end, then each machine of it has halted where a fresh
machine halts that is run with its phase and all that it heard, and it has given
out what that run answers with.

The turns were taken in rounds, in each round in the order of the ring and at
most one by each machine. At each turn the signal was the last value given out
in the turns before, or the one given at the start, and the turn has made what
it gave out the next signal, or else left the signal as it was. The values that
became the signal are those that the machines gave out, each as often. -/
theorem decomposes {program phases : List Datum} {signal : Datum} {budget : Option Int}
    {fuel : Nat} {r : Ring} (returned : run program phases signal budget fuel = some (.ok r)) :
    (∀ (i : Nat) phase, phases[i]? = some phase → ∃ fresh m,
      Machine.boot program none = .ok fresh ∧ r.machines[i]? = some m ∧ m.status = .halted ∧
        fresh.Runs (phase :: r.heardBy i) (.ok (r.saidBy i)) m) ∧
    (∃ rounds : List (List Turn), r.turns.toList = rounds.flatten ∧ rounds.length = r.rounds ∧
      ∀ round ∈ rounds, (round.map (·.index)).Sublist (List.range phases.length)) ∧
    (∀ k t, r.turns.toList[k]? = some t →
      t.heard = latest signal (r.turns.toList.take k) ∧
        r.signals[k + 1]? = some (passOn t.heard t.said)) ∧
    r.signal = latest signal r.turns.toList ∧
    (r.turns.toList.filterMap (·.said)).Perm ((List.range phases.length).flatMap r.saidBy) := by
  -- a sound ring is what rounds keep; that it has come to its end is used of the machines only
  unfold run at returned
  cases ha : assemble program phases signal with
  | error f =>
    rw [ha] at returned
    cases returned
  | ok start =>
    rw [ha] at returned
    obtain ⟨sound, finished⟩ := spin_ok (fun _ sound hr => Sound.round sound hr)
      (Sound.assemble ha) returned
    refine ⟨fun i phase hi => sound.runs finished hi, sound.rounds, fun k t ht => ⟨?_, ?_⟩,
      sound.relays.after, said_perm sound.index_lt⟩
    · exact sound.relays.heard k t ht
    · exact sound.relays.next ht

/-- Two machines of a program that takes two values and gives out their sum.
Each gives out one value, and halts at its second turn, where what it hears
stays unread. -/
theorem decomposes_two :
    let program : List Datum := [3, 11, 3, 12, 1, 11, 12, 11, 4, 11, 99].map .int
    let fresh : Machine := { memory := ⟨#[3, 11, 3, 12, 1, 11, 12, 11, 4, 11, 99], none⟩ }
    let last (sum signal : Int) : Machine :=
      { pointer := 10, status := .halted, inputs := [8], lastOutput := some sum, steps := 5,
        memory := ⟨#[3, 11, 3, 12, 1, 11, 12, 11, 4, 11, 99, sum, signal], none⟩ }
    let turns : Array Turn :=
      #[⟨0, .int 5, some 6⟩, ⟨1, .int 6, some 8⟩, ⟨0, .int 8, none⟩, ⟨1, .int 8, none⟩]
    let r : Ring := ⟨[last 6 5, last 8 6], .int 8, 2, turns⟩
    run program [.int 1, .int 2] (.int 5) none 9 = some (.ok r) ∧
      Machine.boot program none = .ok fresh ∧
      fresh.Runs [.int 1, .int 5, .int 8] (.ok [6]) (last 6 5) ∧
      fresh.Runs [.int 2, .int 6, .int 8] (.ok [8]) (last 8 6) := by
  intro program fresh last turns r
  have returned : run program [.int 1, .int 2] (.int 5) none 9 = some (.ok r) := by
    decide +kernel
  have boots : Machine.boot program none = .ok fresh := Machine.boot_ints (by decide) none
  obtain ⟨machines, -⟩ := decomposes returned
  have machine {i : Nat} {phase : Datum} {m : Machine} (hi : [.int 1, .int 2][i]? = some phase)
      (hm : r.machines[i]? = some m) : fresh.Runs (phase :: r.heardBy i) (.ok (r.saidBy i)) m := by
    obtain ⟨fresh', m', hb, hm', -, hruns⟩ := machines i phase hi
    rw [boots] at hb
    cases hb
    rw [hm] at hm'
    cases hm'
    exact hruns
  have first : fresh.Runs [.int 1, .int 5, .int 8] (.ok [6]) (last 6 5) :=
    machine (i := 0) rfl rfl
  have second : fresh.Runs [.int 2, .int 6, .int 8] (.ok [8]) (last 8 6) :=
    machine (i := 1) rfl rfl
  exact ⟨returned, boots, first, second⟩

end Ring
end Intcode
