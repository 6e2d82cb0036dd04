/-
# A machine that halts silently makes no difference to its ring

A machine that has halted is passed over, and the signal with it. So a ring with
one more machine that has halted (`Ring.Spare`) goes on as the ring without it,
turn by turn and round by round (`Ring.Beside.round`, `Ring.Beside.spin`). Only
the numbers of the machines and turns differ, and these are told by the wording
of a fault at most (`Ring.turn_agree`, `Ring.sweep_agree`).

If a machine halts without an output in the first round (`Ring.SilentAt`), its
one turn is like being passed over: it leaves the signal as it was. After that
round the two rings differ by a machine that has halted. Only where nothing else
is in the ring does one of them take a round that the other does not, and that
one changes no signal.

Key definitions: `Ring.Agree`, `Ring.Spare`, `Ring.Beside`, `Ring.SilentAt`,
`Ring.outcome`, `Ring.Ends`.
Key theorems: `Ring.sweep_beside`, `Ring.Beside.round`, `Ring.Beside.spin`,
`Ring.SilentAt.outcome_eq`, `Ring.silent_transparent`.
-/
import Intcode.Proofs.Series

namespace Intcode
namespace Machine

/-- A drive to the next event that comes to one comes to the same with more
fuel. -/
theorem tick_more {m m' : Machine} {budget : Option Int} {fuel n : Nat} {event : Event}
    (h : m.tick budget fuel = (some (.ok event), m')) (hn : fuel ≤ n) :
    m.tick budget n = (some (.ok event), m') := by
  by_cases hh : m.status = .halted
  · rw [tick_halted hh] at h ⊢
    exact h
  unfold tick at h
  rw [if_neg hh] at h
  rcases advance_cases (allowance budget fuel) m with
    ⟨m₁, -, ha⟩ | ⟨k, m₁, told, m₂, hk, hr, hs, ha⟩ <;> rw [ha] at h
  · cases budget <;> cases h
  · cases h
    exact tick_steps hh hr hs (Nat.lt_of_lt_of_le hk (allowance_mono budget hn))

end Machine

namespace Ring

/-! ### More fuel -/

section Fuel

variable {budget : Option Int} {fuel n round index : Nat} {signal after : Datum}
  {ms ms' : List Machine} {m m' : Machine} {turns : List Turn} {said : Option Int}

theorem turn_more (h : turn budget fuel round index signal m = some (.ok (said, m')))
    (hn : fuel ≤ n) : turn budget n round index signal m = some (.ok (said, m')) := by
  unfold turn at h ⊢
  rcases hf : m.feed [signal] with ⟨f | ⟨⟩, fed⟩ <;> simp only [hf] at h ⊢
  · exact h
  · rcases ht : fed.tick budget fuel with ⟨_ | f | event, m₁⟩ <;> simp only [ht] at h
    · cases h
    · cases h
    · rw [Machine.tick_more ht hn]
      exact h

theorem Sweep.more (h : Sweep budget fuel round index signal ms ms' after turns) (hn : fuel ≤ n) :
    Sweep budget n round index signal ms ms' after turns := by
  induction h with
  | done index signal => exact .done index signal
  | passes halted _ ih => exact .passes halted ih
  | takes live taken _ ih => exact .takes live (turn_more taken hn) ih

end Fuel

/-! ### Attempts that agree -/

/-- Two attempts come to the same: both are given up, or both fail by faults of
one class, or both answer, and their answers are related. -/
inductive Agree {α β : Type} (R : α → β → Prop) : Attempt α → Attempt β → Prop where
  | unending : Agree R none none
  | failed {f g : Fault} (kind : f.kind = g.kind) : Agree R (some (.error f)) (some (.error g))
  | answered {a : α} {b : β} (related : R a b) : Agree R (some (.ok a)) (some (.ok b))

section Agree

variable {α β α' β' : Type} {R : α → β → Prop} {x : Attempt α} {y : Attempt β} {f : α → α'}
  {g : β → β'}

theorem Agree.map {S : α' → β' → Prop} (h : Agree R x y) (hfg : ∀ a b, R a b → S (f a) (g b)) :
    Agree S (x.map (·.map f)) (y.map (·.map g)) := by
  cases h with
  | unending => exact .unending
  | failed kind => exact .failed kind
  | answered related => exact .answered (hfg _ _ related)

theorem Agree.map_left {S : α' → β → Prop} (h : Agree R x y) (hf : ∀ a b, R a b → S (f a) b) :
    Agree S (x.map (·.map f)) y := by
  cases h with
  | unending => exact .unending
  | failed kind => exact .failed kind
  | answered related => exact .answered (hf _ _ related)

end Agree

/-- What a round makes of two rows of machines is related, and the signal after
it is one. -/
def Onward (R : List Machine → List Machine → Prop) (x y : List Machine × Datum × List Turn) :
    Prop :=
  R x.1 y.1 ∧ x.2.1 = y.2.1

section Turns

variable {budget : Option Int} {fuel round round' index index' : Nat} {signal : Datum}
  {m m' : Machine}

/-- The number of a machine, and that of the round, are only told by the wording
of a fault. -/
theorem turn_agree (m : Machine) : Agree Eq (turn budget fuel round index signal m)
    (turn budget fuel round' index' signal m) := by
  unfold turn
  rcases hf : m.feed [signal] with ⟨f | ⟨⟩, fed⟩
  · exact .failed rfl
  · rcases ht : fed.tick budget fuel with ⟨_ | f | v | a | _, m₁⟩ <;> simp only [ht]
    · exact .unending
    · exact .failed rfl
    · exact .answered rfl
    · exact .failed rfl
    · exact .answered rfl

variable {R : List Machine → List Machine → Prop} {rest rest' : List Machine}

/-- Two rows with the same first machine agree if the rest does, after what that
machine makes of the signal. -/
theorem sweep_cons_agree (cons : ∀ m ms ms', R ms ms' → R (m :: ms) (m :: ms'))
    (passed : m.status = .halted →
      Agree (Onward R) (sweep budget fuel round (index + 1) signal rest)
        (sweep budget fuel round' (index' + 1) signal rest'))
    (turned : ∀ said m', m.status ≠ .halted →
      turn budget fuel round index signal m = some (.ok (said, m')) →
      Agree (Onward R) (sweep budget fuel round (index + 1) (passOn signal said) rest)
        (sweep budget fuel round' (index' + 1) (passOn signal said) rest')) :
    Agree (Onward R) (sweep budget fuel round index signal (m :: rest))
      (sweep budget fuel round' index' signal (m :: rest')) := by
  rw [sweep, sweep]
  by_cases hm : m.finished = true
  · rw [if_pos hm, if_pos hm]
    exact (passed ((finished_iff m).1 hm)).map fun _ _ h => ⟨cons m _ _ h.1, h.2⟩
  · rw [if_neg hm, if_neg hm]
    have live : m.status ≠ .halted := fun hh => hm ((finished_iff m).2 hh)
    have hturn : Agree Eq (turn budget fuel round index signal m)
      (turn budget fuel round' index' signal m) := turn_agree m
    generalize ht : turn budget fuel round index signal m = x,
      turn budget fuel round' index' signal m = y at hturn
    cases hturn with
    | unending => exact .unending
    | failed kind => exact .failed kind
    | @answered a _ related =>
      obtain ⟨said, m'⟩ := a
      cases related
      exact (turned said m' live ht).map fun _ _ h => ⟨cons m' _ _ h.1, h.2⟩

/-- The turns of a row do not depend on where its numbers begin. -/
theorem sweep_agree (ms : List Machine) :
    Agree (Onward Eq) (sweep budget fuel round index signal ms)
      (sweep budget fuel round' index' signal ms) := by
  induction ms generalizing index index' signal with
  | nil => exact .answered ⟨rfl, rfl⟩
  | cons m ms ih =>
    exact sweep_cons_agree (fun m _ _ h => congrArg (m :: ·) h) (fun _ => ih) fun _ _ _ _ => ih

end Turns

/-! ### One more machine that has halted -/

/-- The first row is the second with one more machine, that has halted. -/
def Spare (ms ms' : List Machine) : Prop :=
  ∃ as m bs, m.status = .halted ∧ ms = as ++ m :: bs ∧ ms' = as ++ bs

theorem Spare.cons (m : Machine) (ms ms' : List Machine) (h : Spare ms ms') :
    Spare (m :: ms) (m :: ms') := by
  obtain ⟨as, spare, bs, halted, rfl, rfl⟩ := h
  exact ⟨m :: as, spare, bs, halted, rfl, rfl⟩

/-- The machine leaves the signal as it is and is then over: it has halted
before, or it takes a turn and halts without an output. -/
def Passes (budget : Option Int) (fuel round index : Nat) (signal : Datum) (m : Machine) : Prop :=
  m.status = .halted ∨
    m.status ≠ .halted ∧ ∃ m', turn budget fuel round index signal m = some (.ok (none, m'))

/-- Silence at the end of a turn tells that the machine has halted. -/
theorem turn_silent {budget : Option Int} {fuel round index : Nat} {signal : Datum}
    {m m' : Machine} (hh : m.status ≠ .halted)
    (h : turn budget fuel round index signal m = some (.ok (none, m'))) : m'.status = .halted := by
  obtain ⟨fed, event, hfeed, htick, hw, hanswer⟩ := Station.turn_ok h
  obtain ⟨hlive, -⟩ := Machine.feed_live hh hfeed
  obtain ⟨_, _, -, hlast⟩ := Machine.tick_ok hlive htick
  cases event with
  | awaiting a => exact absurd rfl (hw a)
  | output v => cases hanswer
  | halted => exact (Machine.step_halts hlast).1

section Rows

variable {budget : Option Int} {fuel round round' index index' : Nat} {signal : Datum}
  {m : Machine}

/-- A machine that passes leaves the rest of the row its turns. -/
theorem sweep_passes (h : Passes budget fuel round index signal m) (bs : List Machine) :
    Agree (Onward Spare) (sweep budget fuel round index signal (m :: bs))
      (sweep budget fuel round' index' signal bs) := by
  have rest : Agree (Onward Eq) (sweep budget fuel round (index + 1) signal bs)
    (sweep budget fuel round' index' signal bs) := sweep_agree bs
  rw [sweep]
  rcases h with halted | ⟨live, m', taken⟩
  · rw [if_pos ((finished_iff m).2 halted)]
    exact rest.map_left fun _ _ h => ⟨⟨[], m, _, halted, congrArg (m :: ·) h.1, rfl⟩, h.2⟩
  · rw [if_neg fun hm => live ((finished_iff m).1 hm)]
    simp only [taken]
    exact rest.map_left fun _ _ h =>
      ⟨⟨[], m', _, turn_silent live taken, congrArg (m' :: ·) h.1, rfl⟩, h.2⟩

/-- A row of turns leaves one more machine behind if that machine passes when it
is reached. -/
theorem sweep_beside {as bs : List Machine}
    (h : ∀ as' after turns, Sweep budget fuel round index signal as as' after turns →
      Passes budget fuel round (index + as.length) after m) :
    Agree (Onward Spare) (sweep budget fuel round index signal (as ++ m :: bs))
      (sweep budget fuel round' index' signal (as ++ bs)) := by
  induction as generalizing index index' signal with
  | nil => exact sweep_passes (h [] signal [] (.done index signal)) bs
  | cons a as ih =>
    -- the row after its first machine is shorter, and its numbers begin one higher
    have place : index + 1 + as.length = index + (a :: as).length := by
      rw [List.length_cons]
      omega
    refine sweep_cons_agree Spare.cons (fun halted => ih ?_) fun said a' live taken => ih ?_
    · intro as' after turns sweep
      rw [place]
      exact h _ after turns (.passes halted sweep)
    · intro as' after turns sweep
      rw [place]
      exact h _ after _ (.takes live taken sweep)

end Rows

/-! ### The rounds -/

/-- The first ring is the second with one more machine, that has halted. -/
structure Beside (r r' : Ring) : Prop where
  spare : Spare r.machines r'.machines
  signal : r.signal = r'.signal

section Rounds

variable {budget : Option Int} {fuel : Nat} {r r' : Ring}

theorem Beside.finished (h : Beside r r') : r.finished = r'.finished := by
  obtain ⟨⟨as, m, bs, halted, hr, hr'⟩, -⟩ := h
  have hm : m.finished = true := (finished_iff m).2 halted
  simp only [Ring.finished, hr, hr', List.all_append, List.all_cons, hm, Bool.true_and]

/-- Rings whose machines take their turns alike are beside each other after the
round. -/
theorem round_agree (h : Agree (Onward Spare)
      (sweep budget fuel (r.rounds + 1) 0 r.signal r.machines)
      (sweep budget fuel (r'.rounds + 1) 0 r'.signal r'.machines)) :
    Agree Beside (r.round budget fuel) (r'.round budget fuel) := by
  obtain ⟨ms, signal, rounds, turns⟩ := r
  obtain ⟨ms', signal', rounds', turns'⟩ := r'
  simp only [Ring.round]
  generalize sweep budget fuel (rounds + 1) 0 signal ms = x,
    sweep budget fuel (rounds' + 1) 0 signal' ms' = y at h ⊢
  cases h with
  | unending => exact .unending
  | failed kind => exact .failed kind
  | answered related => exact .answered ⟨related.1, related.2⟩

/-- A round passes over the machine that has halted. -/
theorem Beside.round (h : Beside r r') :
    Agree Beside (r.round budget fuel) (r'.round budget fuel) := by
  obtain ⟨⟨as, m, bs, halted, hr, hr'⟩, hsignal⟩ := h
  apply round_agree
  rw [hr, hr', hsignal]
  exact sweep_beside fun _ _ _ _ => .inl halted

/-- Rings that are beside each other after a round are so at their end. -/
theorem spin_agree {n : Nat} (hr : r.finished = false) (hr' : r'.finished = false)
    (h : Agree Beside (r.round budget fuel) (r'.round budget fuel))
    (later : ∀ r r', Beside r r' → Agree Beside (r.spin budget fuel n) (r'.spin budget fuel n)) :
    Agree Beside (r.spin budget fuel (n + 1)) (r'.spin budget fuel (n + 1)) := by
  unfold Ring.spin
  rw [hr, hr']
  generalize r.round budget fuel = x, r'.round budget fuel = y at h ⊢
  cases h with
  | unending => exact .unending
  | failed kind => exact .failed kind
  | answered related => exact later _ _ related

theorem Beside.spin (h : Beside r r') (n : Nat) :
    Agree Beside (r.spin budget fuel n) (r'.spin budget fuel n) := by
  induction n generalizing r r' with
  | zero =>
    unfold Ring.spin
    rw [h.finished]
    split
    · exact .answered h
    · exact .unending
  | succ n ih =>
    by_cases hr : r'.finished = true
    · rw [spin_finished hr, spin_finished (h.finished.trans hr)]
      exact .answered h
    · rw [Bool.not_eq_true] at hr
      exact spin_agree (h.finished.trans hr) hr h.round fun _ _ => ih

end Rounds

/-! ### The machines at the start -/

section Stations

variable {program : List Datum} {phase : Datum} {phases A B : List Datum} {ms : List Machine}

theorem stations_cons (h : stations program (phase :: phases) = .ok ms) : ∃ fresh m rest,
    Machine.boot program none = .ok fresh ∧ fresh.feed [phase] = (.ok (), m) ∧
      stations program phases = .ok rest ∧ ms = m :: rest := by
  rw [stations] at h
  cases hb : Machine.boot program none with
  | error f =>
    rw [hb] at h
    cases h
  | ok fresh =>
    rw [hb] at h
    rcases hf : fresh.feed [phase] with ⟨f | ⟨⟩, m⟩ <;> simp only [bind, Except.bind, hf] at h
    · cases h
    · cases hs : stations program phases with
      | error f =>
        rw [hs] at h
        cases h
      | ok rest =>
        rw [hs] at h
        cases h
        exact ⟨fresh, m, rest, rfl, hf, rfl, rfl⟩

theorem cons_stations {fresh m : Machine} (hb : Machine.boot program none = .ok fresh)
    (hf : fresh.feed [phase] = (.ok (), m)) (hs : stations program phases = .ok ms) :
    stations program (phase :: phases) = .ok (m :: ms) := by
  rw [stations, hb]
  simp only [bind, Except.bind, hf, hs]
  rfl

/-- A machine that has been fed its phase runs. -/
theorem stations_running (h : stations program phases = .ok ms) :
    ∀ m ∈ ms, m.status = .running := by
  induction phases generalizing ms with
  | nil =>
    cases h
    exact List.forall_mem_nil _
  | cons phase phases ih =>
    obtain ⟨fresh, m, rest, hb, hf, hs, rfl⟩ := stations_cons h
    have hfresh := boot_running hb
    obtain ⟨xs, -, -, rfl⟩ := Machine.feed_accepted hfresh hf
    exact List.forall_mem_cons.2 ⟨hfresh, ih hs⟩

/-- Without one of the phases there is one machine less. -/
theorem stations_without (h : stations program (A ++ phase :: B) = .ok ms) : ∃ as m bs,
    ms = as ++ m :: bs ∧ as.length = A.length ∧ stations program (A ++ B) = .ok (as ++ bs) := by
  induction A generalizing ms with
  | nil =>
    obtain ⟨-, m, bs, -, -, hs, rfl⟩ := stations_cons h
    exact ⟨[], m, bs, rfl, rfl, hs⟩
  | cons first A ih =>
    obtain ⟨fresh, a, rest, hb, hf, hs, rfl⟩ := stations_cons h
    obtain ⟨as, m, bs, rfl, hlength, hrest⟩ := ih hs
    exact ⟨a :: as, m, bs, rfl, congrArg (· + 1) hlength, cons_stations hb hf hrest⟩

end Stations

/-! ### A machine that halts silently -/

/-- In its first round the ring comes to the machine of this index, which halts in
that turn and gives out nothing. -/
def SilentAt (program phases : List Datum) (signal : Datum) (budget : Option Int)
    (fuel index : Nat) : Prop :=
  ∃ r before after turns m m', assemble program phases signal = .ok r ∧
    sweep budget fuel 1 0 signal (r.machines.take index) = some (.ok (before, after, turns)) ∧
    r.machines[index]? = some m ∧ turn budget fuel 1 index after m = some (.ok (none, m'))

/-- What a ring comes to: its last signal, or the class of its fault. -/
def outcome : Attempt Ring → Option (Except Fault.Kind Datum)
  | none => none
  | some (.error f) => some (.error f.kind)
  | some (.ok r) => some (.ok r.signal)

/-- The ring comes to its end, and to this outcome: it does so from some fuel
on. -/
def Ends (program phases : List Datum) (signal : Datum) (budget : Option Int)
    (o : Except Fault.Kind Datum) : Prop :=
  ∃ n, ∀ fuel, n ≤ fuel → outcome (run program phases signal budget fuel) = some o

section Silent

variable {program A B : List Datum} {x signal : Datum} {budget : Option Int} {fuel n : Nat}

theorem Agree.outcome_eq {a b : Attempt Ring} (h : Agree Beside a b) : outcome a = outcome b := by
  cases h with
  | unending => rfl
  | @failed f g kind => simp only [outcome, kind]
  | @answered r r' beside => simp only [outcome, beside.signal]

theorem run_stations {phases : List Datum} {ms : List Machine}
    (h : stations program phases = .ok ms) (signal : Datum) (budget : Option Int) (n : Nat) :
    run program phases signal budget n = spin budget n n ⟨ms, signal, 0, #[]⟩ := by
  simp only [run, assemble, h]
  rfl

/-- Rings with the same outcomes from some fuel on come to the same end. -/
theorem Ends.congr {phases phases' : List Datum} {o : Except Fault.Kind Datum} {k : Nat}
    (h : Ends program phases signal budget o)
    (same : ∀ n, k ≤ n → outcome (run program phases signal budget n) =
      outcome (run program phases' signal budget n)) : Ends program phases' signal budget o := by
  obtain ⟨j, hj⟩ := h
  refine ⟨max j k, fun n hn => ?_⟩
  rw [← same n (by omega)]
  exact hj n (by omega)

/-- A machine that nothing else is in the ring with leaves the signal as it
was. -/
theorem spin_alone {r r' : Ring} (hr : r.finished = false) (hr' : r'.machines = [])
    (h : Agree Beside (r.round budget fuel) (r'.round budget fuel)) :
    outcome (r.spin budget fuel (n + 1)) = some (.ok r'.signal) := by
  obtain ⟨ms', signal', rounds', turns'⟩ := r'
  subst hr'
  have still : Ring.round budget fuel ⟨[], signal', rounds', turns'⟩ =
    some (.ok ⟨[], signal', rounds' + 1, turns' ++ []⟩) := rfl
  rw [still] at h
  rw [spin, hr]
  generalize r.round budget fuel = y at h ⊢
  cases h with
  | @answered r₁ _ beside =>
    have ended : r₁.finished = true := beside.finished.trans rfl
    simp only [Bool.false_eq_true, if_false, spin_finished ended, outcome, beside.signal]

/-- Where a machine is to halt silently, the row of machines is that of the other
phases with this machine between them, which passes when it is reached. -/
theorem SilentAt.rows (h : SilentAt program (A ++ x :: B) signal budget fuel A.length)
    (hn : fuel ≤ n) : ∃ as m bs, stations program (A ++ x :: B) = .ok (as ++ m :: bs) ∧
      stations program (A ++ B) = .ok (as ++ bs) ∧
      ∀ as' after turns, Sweep budget n 1 0 signal as as' after turns →
        Passes budget n 1 (0 + as.length) after m := by
  obtain ⟨r, before, after, turns, m, m', hr, hsweep, hm, hturn⟩ := h
  obtain ⟨ms, hs, rfl⟩ := assemble_ok hr
  obtain ⟨as, spare, bs, rfl, hlength, hrest⟩ := stations_without hs
  refine ⟨as, spare, bs, hs, hrest, fun as' after' turns' sweep => ?_⟩
  simp only [← hlength, List.take_left, List.getElem?_append_right (Nat.le_refl _), Nat.sub_self,
    List.getElem?_cons_zero, Option.some.injEq] at hsweep hm hturn
  subst hm
  -- more fuel leads the machines before it to the same signal
  have same := (Sweep.more (sweep_ok hsweep) hn).sweep.symm.trans sweep.sweep
  cases same
  have running : spare.status = .running :=
    stations_running hs spare (List.mem_append_right _ List.mem_cons_self)
  rw [Nat.zero_add]
  exact .inr ⟨by rw [running]; exact Status.noConfusion, m', turn_more hturn hn⟩

/-- A ring in which a machine halts silently comes to what the ring without it
comes to. -/
theorem SilentAt.outcome_eq (h : SilentAt program (A ++ x :: B) signal budget fuel A.length)
    (hn : fuel ≤ n) (hpos : n ≠ 0) : outcome (run program (A ++ x :: B) signal budget n) =
      outcome (run program (A ++ B) signal budget n) := by
  obtain ⟨as, m, bs, hs, hs', passes⟩ := h.rows hn
  obtain ⟨n, rfl⟩ := Nat.exists_eq_succ_of_ne_zero hpos
  let r : Ring := ⟨as ++ m :: bs, signal, 0, #[]⟩
  let r' : Ring := ⟨as ++ bs, signal, 0, #[]⟩
  have first : Agree Beside (r.round budget (n + 1)) (r'.round budget (n + 1)) :=
    round_agree (sweep_beside passes)
  have going : r.finished = false :=
    finished_running (stations_running hs)
      (List.append_ne_nil_of_right_ne_nil as (List.cons_ne_nil m bs))
  rw [run_stations hs, run_stations hs']
  by_cases hne : as ++ bs = []
  · -- the ring without the machine does not even begin
    have ended : r'.finished = true := by
      show (as ++ bs).all Machine.finished = true
      rw [hne]
      rfl
    rw [spin_finished ended, spin_alone going hne first]
    rfl
  · have going' : r'.finished = false := finished_running (stations_running hs') hne
    exact (spin_agree going going' first fun _ _ beside => beside.spin n).outcome_eq

/-- A machine that halts in its first turn, and gives out nothing, makes no
difference to its ring. With and without it the ring comes to the same signal, or
fails by a fault of the same class, or goes on for ever. This holds at every fuel
that lets the ring come to that halt, and for the ends that the rings come to from
some fuel on. -/
theorem silent_transparent
    (silent : SilentAt program (A ++ x :: B) signal budget fuel A.length) :
    (∀ n, fuel ≤ n → n ≠ 0 → outcome (run program (A ++ x :: B) signal budget n) =
      outcome (run program (A ++ B) signal budget n)) ∧
    ∀ o, Ends program (A ++ x :: B) signal budget o ↔ Ends program (A ++ B) signal budget o := by
  have same (n : Nat) (hn : fuel + 1 ≤ n) := silent.outcome_eq (n := n) (by omega) (by omega)
  exact ⟨fun n hn hpos => silent.outcome_eq hn hpos, fun o =>
    ⟨fun ends => ends.congr same, fun ends => ends.congr fun n hn => (same n hn).symm⟩⟩

/-- A program that halts at once if its phase is zero, and else gives out the sum
of its phase and the signal. A machine of phase zero between two others has left
their last signal as it is. With nothing else in the ring the first signal
stays. -/
theorem silent_transparent_zero :
    let cells : List Int := [3, 15, 1006, 15, 14, 3, 16, 1, 15, 16, 16, 4, 16, 99, 99]
    let program : List Datum := cells.map .int
    SilentAt program [.int 1, .int 0, .int 2] (.int 5) none 9 1 ∧
      outcome (run program [.int 1, .int 2] (.int 5) none 9) = some (.ok (.int 8)) ∧
      SilentAt program [.int 0] (.int 5) (some 3) 0 0 ∧
      Ends program [.int 0] (.int 5) (some 3) (.ok (.int 5)) := by
  intro cells program
  let fresh : Machine := { memory := ⟨cells.toArray, none⟩ }
  let told : Machine :=
    { pointer := 13, lastOutput := some 6, steps := 5, memory := ⟨(cells ++ [1, 6]).toArray, none⟩ }
  let quiet (signal : Int) : Machine :=
    { pointer := 14, status := .halted, inputs := [signal], steps := 3,
      memory := ⟨(cells ++ [0]).toArray, none⟩ }
  have between : SilentAt program [.int 1, .int 0, .int 2] (.int 5) none 9 1 :=
    ⟨⟨[fresh.enqueue [1], fresh.enqueue [0], fresh.enqueue [2]], .int 5, 0, #[]⟩, [told], .int 6,
      [⟨0, .int 5, some 6⟩], fresh.enqueue [0], quiet 6, by decide +kernel, by decide +kernel, rfl,
      by decide +kernel⟩
  have alone : SilentAt program [.int 0] (.int 5) (some 3) 0 0 :=
    ⟨⟨[fresh.enqueue [0]], .int 5, 0, #[]⟩, [], .int 5, [], fresh.enqueue [0], quiet 5,
      by decide +kernel, rfl, rfl, by decide +kernel⟩
  obtain ⟨same, -⟩ := silent_transparent (A := [.int 1]) (B := [.int 2]) between
  obtain ⟨-, ends⟩ := silent_transparent (A := []) (B := []) alone
  refine ⟨between, ?_, alone, (ends _).2 ⟨0, fun fuel _ => ?_⟩⟩
  · exact (same 9 (Nat.le_refl 9) (by decide)).symm.trans (by decide +kernel)
  · show outcome (spin (some 3) fuel fuel ⟨[], .int 5, 0, #[]⟩) = _
    rw [spin_finished rfl]
    rfl

end Silent

end Ring
end Intcode
