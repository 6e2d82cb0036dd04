/-
# A ring keeps its machines in step

In each round a machine of the ring is fed one signal and gives out one value,
unless it halts. So after `r` rounds each machine that has not halted has given
out `r` values, and it has been fed `r + 1`, the phase among them, that it has
taken or has still queued (`Ring.Paced`). A machine that halts does so in the
round after its last output, and it is passed over from then on.

So the rounds tell the last machine to give out a value (`Ring.Leads`): of those
with the most outputs it is the last in the ring. The ring goes on for one more
round, in which all machines left halt, and the signal stays what that machine
gave out last.

What a machine was fed, what its input instructions took and what it gave out is
told by its life (`Machine.Lived`), feeding by feeding and step by step.

Key definitions: `Machine.Lived`, `Ring.Paced`, `Ring.Leads`, `Ring.Reached`,
`Ring.Lockstep`.
Key theorems: `Machine.Lived.queue`, `Ring.Paced.turn`, `Ring.Sweep.speaks`,
`Ring.Lockstep.round`, `Ring.run_kind`, `Ring.lockstep`.
-/
import Intcode.Proofs.Budget
import Intcode.Proofs.Ring

namespace Intcode
namespace Machine

/-- The values that the step of a machine takes off its queue: the first one, if
the step completes an input instruction. -/
def taking (m : Machine) : List Int :=
  match m.step.1, m.fetch.1 with
  | .ok none, .ok (.input _, _) => m.inputs.take 1
  | _, _ => []

/-- How a machine has come from a fresh one: what it was `fed`, what its input
instructions have `taken`, and what it has `said`, all oldest first. -/
inductive Lived (fresh : Machine) :
    List Datum → List Int → List Int → Machine → Prop where
  | start : Lived fresh [] [] [] fresh
  | feed {fed values : List Datum} {taken said : List Int} {m m' : Machine}
      (before : Lived fresh fed taken said m) (call : m.feed values = (.ok (), m')) :
      Lived fresh (fed ++ values) taken said m'
  | step {fed : List Datum} {taken said : List Int} {m : Machine}
      (before : Lived fresh fed taken said m) :
      Lived fresh fed (taken ++ m.taking) (said ++ emitted m.step.1) m.step.2

/-- A step leaves in the queue what it does not take. -/
theorem taking_append (m : Machine) : m.taking ++ m.step.2.inputs = m.inputs := by
  by_cases hh : m.status = .halted
  · simp only [taking, step_halted hh, List.nil_append]
  have hm := step_move hh
  unfold taking
  generalize m.step.1 = answer, m.step.2 = m' at hm
  cases hm with
  | fails | waits | emits | halts => rfl
  | takes hf hq _ =>
    rw [hf, hq]
    rfl
  | @stores i next _ _ _ _ hf he _ | @goes i next _ _ hf he | @rebases i next _ _ hf he _ =>
    -- an input instruction has another effect
    rw [hf]
    cases i with
    | input dst => simp only [Instruction.effect, reduceCtorEq] at he
    | _ => rfl

namespace Lived

variable {fresh m m' : Machine} {fed : List Datum} {taken said : List Int}

/-- What a machine was fed it has taken or has still queued. -/
theorem queue (h : Lived fresh fed taken said m) :
    fresh.inputs.map .int ++ fed = (taken ++ m.inputs).map .int := by
  induction h with
  | start => simp
  | @feed fed values taken said m m' before call ih =>
    obtain ⟨xs, rfl, -, ⟨-, rfl⟩ | ⟨-, rfl⟩⟩ := feed_taken call
    · rw [← List.append_assoc, ih]
      simp [enqueue]
    · rw [← List.append_assoc, ih]
      simp [resume]
  | @step fed taken said m before ih =>
    rw [ih, List.append_assoc, taking_append]

/-- A life goes on over the steps of a run. -/
theorem steps {n : Nat} {out : List Int} (h : Lived fresh fed taken said m)
    (hr : Steps n m out m') : ∃ more, Lived fresh fed (taken ++ more) (said ++ out) m' := by
  induction hr generalizing taken said with
  | refl m => exact ⟨[], by rwa [List.append_nil, List.append_nil]⟩
  | @silent _ m _ _ _ first _ ih =>
    have next := h.step
    rw [first, show emitted (.ok none) = [] from rfl, List.append_nil] at next
    obtain ⟨more, hlast⟩ := ih next
    exact ⟨m.taking ++ more, by rwa [← List.append_assoc]⟩
  | @output _ m _ _ out v first _ ih =>
    have next := h.step
    rw [first] at next
    obtain ⟨more, hlast⟩ := ih next
    refine ⟨m.taking ++ more, ?_⟩
    rw [← List.append_assoc, List.append_cons]
    exact hlast

/-- A life goes on over a drive to the next event. -/
theorem tick {budget : Option Int} {fuel : Nat} {event : Event}
    (h : Lived fresh fed taken said m) (hh : m.status ≠ .halted)
    (ht : m.tick budget fuel = (some (.ok event), m')) :
    ∃ more, Lived fresh fed (taken ++ more) (said ++ emitted (.ok (some event))) m' := by
  obtain ⟨k, m₁, silent, last⟩ := tick_ok hh ht
  obtain ⟨more, hlived⟩ := h.steps silent
  have next := hlived.step
  rw [last, List.append_nil] at next
  exact ⟨more ++ m₁.taking, by rwa [← List.append_assoc]⟩

end Lived
end Machine

namespace Ring

/-! ### A machine in step -/

/-- A machine of the ring after so many rounds. It has been fed its phase and
what it heard. If it has not halted, it has heard and said something in each
round, and if it has, it has said less. -/
structure Paced (fresh : Machine) (phase : Datum) (rounds : Nat) (heard : List Datum)
    (said : List Int) (m : Machine) : Prop where
  lived : ∃ taken, fresh.Lived (phase :: heard) taken said m
  live : m.status ≠ .halted → heard.length = rounds ∧ said.length = rounds
  halted : m.status = .halted → said.length < rounds

namespace Paced

variable {fresh m m' : Machine} {phase : Datum} {rounds : Nat} {heard : List Datum}
  {said : List Int}

/-- A machine that has been fed its phase is in step. -/
theorem start (hs : fresh.status = .running) (h : fresh.feed [phase] = (.ok (), m)) :
    Paced fresh phase 0 [] [] m := by
  obtain ⟨xs, -, -, rfl⟩ := Machine.feed_accepted hs h
  have hlive : (fresh.enqueue xs).status ≠ .halted := by
    rw [show (fresh.enqueue xs).status = .running from hs]
    exact Status.noConfusion
  exact ⟨⟨[], .feed .start h⟩, fun _ => ⟨rfl, rfl⟩, fun hh => absurd hh hlive⟩

theorem said_le (h : Paced fresh phase rounds heard said m) : said.length ≤ rounds := by
  by_cases hh : m.status = .halted
  · exact Nat.le_of_lt (h.halted hh)
  · exact Nat.le_of_eq (h.live hh).2

/-- A machine that has halted falls behind. -/
theorem pass (h : Paced fresh phase rounds heard said m) (hh : m.status = .halted) :
    Paced fresh phase (rounds + 1) heard said m :=
  ⟨h.lived, fun hlive => absurd hh hlive, fun hh => Nat.lt_succ_of_lt (h.halted hh)⟩

/-- A turn keeps a machine in step: it gives out a value, or halts. -/
theorem turn (h : Paced fresh phase rounds heard said m) (hh : m.status ≠ .halted)
    {budget : Option Int} {fuel round index : Nat} {signal : Datum} {answer : Option Int}
    (ht : Ring.turn budget fuel round index signal m = some (.ok (answer, m'))) :
    Paced fresh phase (rounds + 1) (heard ++ [signal]) (said ++ answer.toList) m' := by
  obtain ⟨taken, lived⟩ := h.lived
  obtain ⟨fed, event, hfeed, htick, hw, hanswer⟩ := Station.turn_ok ht
  obtain ⟨hlive, -⟩ := Machine.feed_live hh hfeed
  obtain ⟨more, lived'⟩ := (lived.feed hfeed).tick hlive htick
  obtain ⟨hheard, hsaid⟩ := h.live hh
  obtain ⟨k, last, -, hlast⟩ := Machine.tick_ok hlive htick
  have hlived : ∃ taken, fresh.Lived (phase :: (heard ++ [signal])) taken
      (said ++ answer.toList) m' := ⟨taken ++ more, by rw [← hanswer]; exact lived'⟩
  cases event with
  | awaiting a => exact absurd rfl (hw a)
  | output v =>
    have hlive' := (Machine.step_live hlast (.inr ⟨v, rfl⟩)).2
    refine ⟨hlived, fun _ => ⟨?_, ?_⟩, fun hh' => absurd hh' hlive'⟩
    · rw [List.length_append, hheard]
      rfl
    · rw [← hanswer, List.length_append, hsaid]
      rfl
  | halted =>
    refine ⟨hlived, fun hlive' => absurd (Machine.step_halts hlast).1 hlive', fun _ => ?_⟩
    rw [← hanswer, emitted_halted, List.append_nil, hsaid]
    exact Nat.lt_succ_self rounds

/-- A machine that has not halted has taken or queued one value more than there
were rounds. -/
theorem consumed {taken : List Int} (h : Paced fresh phase rounds heard said m)
    (hh : m.status ≠ .halted) (hq : fresh.inputs = [])
    (lived : fresh.Lived (phase :: heard) taken said m) :
    taken.length + m.inputs.length = rounds + 1 := by
  have hqueue := congrArg List.length lived.queue
  rw [hq, List.map_nil, List.nil_append, List.length_cons, List.length_map, List.length_append,
    (h.live hh).1] at hqueue
  exact hqueue.symm

end Paced

/-! ### The last to say something -/

/-- A round in which nothing is said leaves the signal as it was. In any other
round the last machine that says something makes it the signal. -/
theorem Sweep.speaks {budget : Option Int} {fuel round index : Nat} {signal after : Datum}
    {ms ms' : List Machine} {turns : List Turn}
    (h : Sweep budget fuel round index signal ms ms' after turns) :
    (after = signal ∧ ∀ i, saidIn turns i = []) ∨
    ∃ j m v, ms[j]? = some m ∧ m.status ≠ .halted ∧ after = .int v ∧
      saidIn turns (index + j) = [v] ∧ ∀ k, index + j < k → saidIn turns k = [] := by
  induction h with
  | done => exact .inl ⟨rfl, fun _ => rfl⟩
  | passes _ _ ih =>
    refine ih.imp_right ?_
    rintro ⟨j, m, v, hm, hlive, hafter, hsaid, hlast⟩
    -- in the longer row the machine's place is one higher
    rw [Nat.add_right_comm] at hsaid hlast
    exact ⟨j + 1, m, v, hm, hlive, hafter, hsaid, hlast⟩
  | @takes index signal _ said m _ _ _ turns live _ _ ih =>
    rcases ih with ⟨hafter, hnone⟩ | ⟨j, m', v, hm, hlive, hafter, hsaid, hlast⟩
    · cases said with
      | none =>
        refine .inl ⟨hafter, fun i => ?_⟩
        rw [saidIn_cons, hnone]
        split <;> rfl
      | some v =>
        refine .inr ⟨0, m, v, rfl, live, hafter, ?_, fun k hk => ?_⟩
        · rw [Nat.add_zero, saidIn_cons, if_pos rfl, hnone]
          rfl
        · have hne : index ≠ k := Nat.ne_of_lt hk
          rw [saidIn_cons, if_neg hne, hnone]
    · rw [Nat.add_right_comm] at hsaid hlast
      refine .inr ⟨j + 1, m', v, hm, hlive, hafter, ?_, fun k hk => ?_⟩
      · have hne : index ≠ index + j + 1 := by omega
        rw [← Nat.add_assoc, saidIn_cons, if_neg hne]
        exact hsaid
      · have hne : index ≠ k := by omega
        rw [saidIn_cons, if_neg hne]
        exact hlast k hk

/-- Of the first `n` machines this one has said the most, and it is the last of
those that have said as much. -/
def Leads (n : Nat) (said : Nat → List Int) (i : Nat) : Prop :=
  i < n ∧ ∀ j < n, (said j).length ≤ (said i).length ∧
    (i < j → (said j).length < (said i).length)

/-- The last of what was said, or the signal before if nothing was. -/
def lastOf (signal : Datum) (said : List Int) : Datum :=
  match said.getLast? with
  | some v => .int v
  | none => signal

theorem lastOf_concat (signal : Datum) (said : List Int) (v : Int) :
    lastOf signal (said ++ [v]) = .int v := by
  simp only [lastOf, List.getLast?_concat]

/-! ### The rounds -/

/-- A ring that is the outcome of some rounds. -/
inductive Reached (program phases : List Datum) (signal : Datum) (budget : Option Int)
    (fuel : Nat) : Ring → Prop where
  | start {r : Ring} (assembled : assemble program phases signal = .ok r) :
      Reached program phases signal budget fuel r
  | round {r r' : Ring} (goes : r.finished = false)
      (before : Reached program phases signal budget fuel r)
      (after : r.round budget fuel = some (.ok r')) : Reached program phases signal budget fuel r'

/-- The machines of a ring are in step. -/
structure InStep (program phases : List Datum) (r : Ring) : Prop where
  length : r.machines.length = phases.length
  paced : ∀ (i : Nat) phase, phases[i]? = some phase → ∃ fresh m,
    Machine.boot program none = .ok fresh ∧ r.machines[i]? = some m ∧
      Paced fresh phase r.rounds (r.heardBy i) (r.saidBy i) m

/-- What holds of a ring after any number of rounds: its machines are in step,
and the last to say something tells the signal and the number of rounds. -/
structure Lockstep (program phases : List Datum) (initial : Datum) (r : Ring) : Prop extends
    InStep program phases r where
  led : phases ≠ [] → ∃ i, Leads phases.length r.saidBy i ∧
    r.signal = lastOf initial (r.saidBy i) ∧ r.rounds ≤ (r.saidBy i).length + 1

section Rounds

variable {program phases : List Datum} {initial : Datum} {budget : Option Int} {fuel : Nat}
  {r r' : Ring}

namespace InStep

theorem machine (h : InStep program phases r) {i : Nat} (hi : i < phases.length) :
    ∃ fresh m, r.machines[i]? = some m ∧
      Paced fresh phases[i] r.rounds (r.heardBy i) (r.saidBy i) m := by
  obtain ⟨fresh, m, -, hm, paced⟩ := h.paced i _ (List.getElem?_eq_getElem hi)
  exact ⟨fresh, m, hm, paced⟩

theorem said_le (h : InStep program phases r) {i : Nat} (hi : i < phases.length) :
    (r.saidBy i).length ≤ r.rounds := by
  obtain ⟨_, _, -, paced⟩ := h.machine hi
  exact paced.said_le

/-- A machine that has not halted has said something in each round. -/
theorem spoken (h : InStep program phases r) {i : Nat} {m : Machine}
    (hm : r.machines[i]? = some m) (hlive : m.status ≠ .halted) :
    i < phases.length ∧ (r.saidBy i).length = r.rounds := by
  have hi : i < phases.length := by
    rw [← h.length]
    exact (List.getElem?_eq_some_iff.1 hm).1
  obtain ⟨fresh, m', hm', paced⟩ := h.machine hi
  rw [hm] at hm'
  cases hm'
  exact ⟨hi, (paced.live hlive).2⟩

theorem round (h : InStep program phases r) (hr : r.round budget fuel = some (.ok r')) :
    InStep program phases r' := by
  obtain ⟨taken, sweep, hrounds, -, hheard, hsaid⟩ := round_ok hr
  refine ⟨sweep.length.trans h.length, fun i phase hi => ?_⟩
  obtain ⟨fresh, m, hb, hm, paced⟩ := h.paced i phase hi
  obtain ⟨m', hm', paced'⟩ := sweep.each (P := Paced fresh phase r.rounds)
    (Q := Paced fresh phase (r.rounds + 1)) (fun halted paced => paced.pass halted)
    (fun live paced taken => paced.turn live taken) hm paced
  rw [Nat.zero_add] at paced'
  refine ⟨fresh, m', hb, hm', ?_⟩
  rwa [hrounds, hheard, hsaid]

end InStep

namespace Lockstep

theorem assemble (h : Ring.assemble program phases initial = .ok r) :
    Lockstep program phases initial r := by
  obtain ⟨ms, hs, rfl⟩ := assemble_ok h
  obtain ⟨hlength, hstations⟩ := stations_ok hs
  refine ⟨⟨hlength, fun i phase hi => ?_⟩, fun hne => ?_⟩
  · obtain ⟨fresh, m, hb, hm, hf⟩ := hstations i phase hi
    exact ⟨fresh, m, hb, hm, .start (boot_running hb) hf⟩
  · -- nothing has been said yet, so the last machine leads
    have hpos := List.length_pos_iff.2 hne
    refine ⟨phases.length - 1, ⟨by omega, fun j hj => ⟨Nat.le_refl _, fun hlast => ?_⟩⟩, rfl,
      Nat.zero_le _⟩
    omega

/-- A round keeps the machines in step. If something is said in it, the last
machine to say something comes to lead, and otherwise the leader stays. -/
theorem round (h : Lockstep program phases initial r) (goes : r.finished = false)
    (hr : r.round budget fuel = some (.ok r')) : Lockstep program phases initial r' := by
  have inStep := h.toInStep.round hr
  refine ⟨inStep, fun hne => ?_⟩
  obtain ⟨taken, sweep, hrounds, -, -, hsaid⟩ := round_ok hr
  rcases sweep.speaks with ⟨hafter, hnone⟩ | ⟨j, m, v, hm, hlive, hafter, hspoken, hlast⟩
  · obtain ⟨i, leads, hsignal, -⟩ := h.led hne
    -- some machine had not halted, so the leader had said something in each round
    have hfull : r.rounds ≤ (r.saidBy i).length := by
      obtain ⟨m, hmem, hm⟩ := List.all_eq_false.1 goes
      obtain ⟨j, hj⟩ := List.mem_iff_getElem?.1 hmem
      obtain ⟨hjn, hcount⟩ := h.spoken hj fun hh => hm ((finished_iff m).2 hh)
      rw [← hcount]
      exact (leads.2 j hjn).1
    have hsame : r'.saidBy = r.saidBy := by
      funext k
      rw [hsaid, hnone, List.append_nil]
    rw [hsame, hafter, hrounds]
    exact ⟨i, leads, hsignal, Nat.succ_le_succ hfull⟩
  · rw [Nat.zero_add] at hspoken hlast
    obtain ⟨hj, hcount⟩ := h.spoken hm hlive
    have hone : r'.saidBy j = r.saidBy j ++ [v] := by rw [hsaid, hspoken]
    have hfull : (r'.saidBy j).length = r'.rounds := by
      rw [hone, List.length_append, hcount, hrounds]
      rfl
    refine ⟨j, ⟨hj, fun k hk => ⟨?_, fun hjk => ?_⟩⟩, ?_, ?_⟩
    · rw [hfull]
      exact inStep.said_le hk
    · rw [hfull, hrounds, hsaid, hlast k hjk, List.append_nil]
      exact Nat.lt_succ_of_le (h.said_le hk)
    · rw [hafter, hone, lastOf_concat]
    · rw [hfull]
      exact Nat.le_succ _

/-- When all machines have halted, so has the leader, and the ring has gone on
for one round after its last output. -/
theorem returned (h : Lockstep program phases initial r) (hr : r.finished = true)
    (hne : phases ≠ []) : ∃ i, Leads phases.length r.saidBy i ∧
      r.rounds = 1 + (r.saidBy i).length ∧ r.signal = lastOf initial (r.saidBy i) := by
  obtain ⟨i, leads, hsignal, hlate⟩ := h.led hne
  obtain ⟨fresh, m, hm, paced⟩ := h.machine leads.1
  have hfinished : m.finished = true := List.all_eq_true.1 hr m (List.mem_of_getElem? hm)
  have hless := paced.halted ((finished_iff m).1 hfinished)
  exact ⟨i, leads, by omega, hsignal⟩

end Lockstep

theorem Reached.inLockstep (h : Reached program phases initial budget fuel r) :
    Lockstep program phases initial r := by
  induction h with
  | start assembled => exact .assemble assembled
  | round goes _ after ih => exact ih.round goes after

/-- What a ring comes to at its end, its rounds bring about. -/
theorem run_reached (h : run program phases initial budget fuel = some (.ok r)) :
    Reached program phases initial budget fuel r ∧ r.finished = true := by
  unfold run at h
  cases ha : assemble program phases initial with
  | error f =>
    rw [ha] at h
    cases h
  | ok start =>
    rw [ha] at h
    exact spin_ok (fun goes before after => .round goes before after) (.start ha) h

end Rounds

/-! ### What a ring can fail by -/

/-- A turn of a machine that has not halted fails by what it is fed, by a step,
by its budget, or since the machine asks for more than the signal. -/
theorem turn_fault {budget : Option Int} {fuel round index : Nat} {signal : Datum} {m : Machine}
    {f : Fault} (hh : m.status ≠ .halted)
    (h : turn budget fuel round index signal m = some (.error f)) : f.kind ≠ .protocolError := by
  unfold Ring.turn at h
  rcases hf : m.feed [signal] with ⟨g | ⟨⟩, fed⟩ <;> simp only [hf] at h
  · cases h
    rcases Machine.feed_fault hh hf with hk | hk <;> rw [hk] <;> decide
  · rcases ht : fed.tick budget fuel with ⟨_ | g | v | a | _, m₁⟩ <;> simp only [ht] at h <;>
      cases h
    · rcases Machine.tick_fault ht with hk | hk
      · intro hp
        rw [hp] at hk
        exact absurd hk (by decide)
      · rw [hk]
        decide
    · exact Fault.Kind.noConfusion

/-- A round fails at the turn of a machine that has not halted. -/
theorem sweep_fault {budget : Option Int} {fuel round index : Nat} {signal : Datum}
    {ms : List Machine} {f : Fault}
    (h : sweep budget fuel round index signal ms = some (.error f)) :
    ∃ index signal m, m.status ≠ .halted ∧
      turn budget fuel round index signal m = some (.error f) := by
  induction ms generalizing index signal with
  | nil => cases h
  | cons m ms ih =>
    rw [sweep] at h
    by_cases hm : m.finished = true
    · rw [if_pos hm] at h
      rcases hs : sweep budget fuel round (index + 1) signal ms with _ | g | _ <;>
        rw [hs] at h <;> cases h
      exact ih hs
    · rw [if_neg hm] at h
      rcases ht : turn budget fuel round index signal m with _ | g | ⟨said, m₁⟩ <;>
        simp only [ht] at h
      · cases h
      · cases h
        exact ⟨index, signal, m, fun hh => hm ((finished_iff m).2 hh), ht⟩
      · rcases hs : sweep budget fuel round (index + 1) (passOn signal said) ms with
          _ | g | _ <;> rw [hs] at h <;> cases h
        exact ih hs

theorem spin_fault {budget : Option Int} {fuel n : Nat} {r : Ring} {f : Fault}
    (h : r.spin budget fuel n = some (.error f)) : ∃ round index signal m,
      m.status ≠ .halted ∧ turn budget fuel round index signal m = some (.error f) := by
  induction n generalizing r with
  | zero =>
    unfold Ring.spin at h
    split at h <;> cases h
  | succ n ih =>
    unfold Ring.spin at h
    split at h
    · cases h
    · rcases hr : r.round budget fuel with _ | g | r₁ <;> simp only [hr] at h
      · cases h
      · cases h
        unfold Ring.round at hr
        rcases hs : sweep budget fuel (r.rounds + 1) 0 r.signal r.machines with _ | g | _ <;>
          simp only [hs] at hr <;> cases hr
        exact ⟨r.rounds + 1, sweep_fault hs⟩
      · exact ih h

theorem stations_fault {program phases : List Datum} {f : Fault}
    (h : stations program phases = .error f) : f.kind = .typeError ∨ f.kind = .cellOverflow := by
  induction phases with
  | nil => cases h
  | cons phase phases ih =>
    rw [stations] at h
    cases hb : Machine.boot program none with
    | error g =>
      rw [hb] at h
      cases h
      exact Machine.boot_fault hb
    | ok fresh =>
      rw [hb] at h
      rcases hf : fresh.feed [phase] with ⟨g | ⟨⟩, m⟩ <;>
        simp only [bind, Except.bind, hf] at h
      · cases h
        refine Machine.feed_fault ?_ hf
        rw [boot_running hb]
        exact Status.noConfusion
      · cases hs : stations program phases with
        | error g =>
          rw [hs] at h
          cases h
          exact ih hs
        | ok rest =>
          rw [hs] at h
          cases h

/-- Whatever a ring fails by, it is not that a machine was fed after its halt, or
misused otherwise. -/
theorem run_kind {program phases : List Datum} {signal : Datum} {budget : Option Int} {fuel : Nat}
    {f : Fault} (h : run program phases signal budget fuel = some (.error f)) :
    f.kind ≠ .protocolError := by
  unfold run at h
  cases ha : assemble program phases signal with
  | error g =>
    rw [ha] at h
    cases h
    unfold assemble at ha
    cases hs : stations program phases with
    | error g =>
      rw [hs] at ha
      cases ha
      rcases stations_fault hs with hk | hk <;> rw [hk] <;> decide
    | ok ms =>
      rw [hs] at ha
      cases ha
  | ok r =>
    rw [ha] at h
    obtain ⟨_, _, _, _, hlive, failed⟩ := spin_fault h
    exact turn_fault hlive failed

/-- After any number of rounds of a ring each machine has been fed its phase and
what it heard. If it has not halted, it has given out as many values as there
were rounds, and what it has taken and what it has still queued is one value
more.

A ring of some machines that comes to its end has gone on for one round more
than the number of values given out by the machine that gave out the most. Of
those that gave out as many, the last has given out the final signal, unless
none gave out a value, and then the signal is still the first one.

A ring does not fail by a misuse of its machines. If a machine asks for more than
the ring has to give, that is a fault of its own kind. -/
theorem lockstep (program phases : List Datum) (signal : Datum) (budget : Option Int)
    (fuel : Nat) :
    (∀ r, Reached program phases signal budget fuel r →
      ∀ (i : Nat) phase, phases[i]? = some phase → ∃ fresh m,
        Machine.boot program none = .ok fresh ∧ r.machines[i]? = some m ∧
        (∃ taken, fresh.Lived (phase :: r.heardBy i) taken (r.saidBy i) m) ∧
        (m.status ≠ .halted → (r.saidBy i).length = r.rounds ∧
          ∀ taken, fresh.Lived (phase :: r.heardBy i) taken (r.saidBy i) m →
            taken.length + m.inputs.length = r.rounds + 1)) ∧
    (∀ r, phases ≠ [] → run program phases signal budget fuel = some (.ok r) →
      Reached program phases signal budget fuel r ∧ ∃ i, Leads phases.length r.saidBy i ∧
        r.rounds = 1 + (r.saidBy i).length ∧ r.signal = lastOf signal (r.saidBy i)) ∧
    ∀ f, run program phases signal budget fuel = some (.error f) → f.kind ≠ .protocolError := by
  refine ⟨fun r reached i phase hi => ?_, fun r hne returned => ?_, fun f failed => ?_⟩
  · obtain ⟨fresh, m, hb, hm, paced⟩ := reached.inLockstep.paced i phase hi
    obtain ⟨memory, rfl⟩ := Machine.boot_ok hb
    exact ⟨_, m, hb, hm, paced.lived, fun hlive => ⟨(paced.live hlive).2,
      fun taken lived => paced.consumed hlive rfl lived⟩⟩
  · obtain ⟨reached, finished⟩ := run_reached returned
    exact ⟨reached, reached.inLockstep.returned finished hne⟩
  · exact run_kind failed

/-- Two machines that give out as many values as their phases say, each one more
than the signal heard, and then halt. After the first round both have taken their
phase and a signal. The first machine gives out one value more than the second, so
the ring goes on for three rounds, and the signal is what the first gave out last.
A ring of a machine that takes three values in its first turn does not come to its
end. -/
theorem lockstep_unequal :
    let program (left told : Int) : List Int :=
      [3, 21, 1006, 21, 20, 3, 22, 101, 1, 22, 22, 4, 22, 101, -1, 21, 21, 1105, 1, 2, 99,
        left, told]
    let code : List Datum := ((program 0 0).take 21).map .int
    let fresh : Machine := { memory := ⟨((program 0 0).take 21).toArray, none⟩ }
    let going (left told : Int) : Machine :=
      { pointer := 13, lastOutput := some told, steps := 5,
        memory := ⟨(program left told).toArray, none⟩ }
    let last (told : Int) (steps : Nat) : Machine :=
      { pointer := 20, status := .halted, inputs := [8], lastOutput := some told, steps := steps,
        memory := ⟨(program 0 told).toArray, none⟩ }
    let once : Ring :=
      ⟨[going 2 6, going 1 7], .int 7, 1, #[⟨0, .int 5, some 6⟩, ⟨1, .int 6, some 7⟩]⟩
    let r : Ring :=
      ⟨[last 8 15, last 7 9], .int 8, 3, #[⟨0, .int 5, some 6⟩, ⟨1, .int 6, some 7⟩,
        ⟨0, .int 7, some 8⟩, ⟨1, .int 8, none⟩, ⟨0, .int 8, none⟩]⟩
    let greedy : List Datum := [3, 0, 3, 0, 3, 0, 99].map .int
    let stall : Fault := .ringStalled 0 0 1
    Reached code [.int 2, .int 1] (.int 5) none 99 once ∧
      (∃ taken, fresh.Lived [.int 2, .int 5] taken [6] (going 2 6) ∧ taken.length + 0 = 2) ∧
      (∃ taken, fresh.Lived [.int 1, .int 6] taken [7] (going 1 7) ∧ taken.length + 0 = 2) ∧
      run code [.int 2, .int 1] (.int 5) none 99 = some (.ok r) ∧
      (∃ i, Leads 2 r.saidBy i ∧ 3 = 1 + (r.saidBy i).length ∧
        .int 8 = lastOf (.int 5) (r.saidBy i)) ∧
      run greedy [.int 1] (.int 5) none 9 = some (.error stall) ∧ stall.kind ≠ .protocolError := by
  intro program code fresh going last once r greedy stall
  obtain ⟨rounds, ends, -⟩ := lockstep code [.int 2, .int 1] (.int 5) none 99
  obtain ⟨-, -, fails⟩ := lockstep greedy [.int 1] (.int 5) none 9
  have boots : Machine.boot code none = .ok fresh := Machine.boot_ints (by decide) none
  have reached : Reached code [.int 2, .int 1] (.int 5) none 99 once := by
    have start : assemble code [.int 2, .int 1] (.int 5) =
        .ok ⟨[fresh.enqueue [2], fresh.enqueue [1]], .int 5, 0, #[]⟩ := by decide +kernel
    exact .round (by decide) (.start start) (by decide +kernel)
  have returned : run code [.int 2, .int 1] (.int 5) none 99 = some (.ok r) := by
    decide +kernel
  have stalls : run greedy [.int 1] (.int 5) none 9 = some (.error stall) := by decide +kernel
  have machine {i : Nat} {phase : Datum} {m : Machine} (hi : [.int 2, .int 1][i]? = some phase)
      (hm : once.machines[i]? = some m) (hlive : m.status ≠ .halted) :
      ∃ taken, fresh.Lived (phase :: once.heardBy i) taken (once.saidBy i) m ∧
        taken.length + m.inputs.length = 2 := by
    obtain ⟨fresh', m', hb, hm', ⟨taken, lived⟩, counts⟩ := rounds once reached i phase hi
    rw [boots] at hb
    cases hb
    rw [hm] at hm'
    cases hm'
    exact ⟨taken, lived, (counts hlive).2 taken lived⟩
  obtain ⟨-, i, leads⟩ := ends r (List.cons_ne_nil _ _) returned
  exact ⟨reached, machine (i := 0) rfl rfl Status.noConfusion,
    machine (i := 1) rfl rfl Status.noConfusion, returned, ⟨i, leads⟩, stalls, fails stall stalls⟩

end Ring
end Intcode
