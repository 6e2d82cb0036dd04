/-
# The verdicts of a campaign are exact

A campaign with a budget finishes, whatever the source, and no trial crashes. It
counts a mismatch for just those cases that are compiled from an expression
whose value is known and that need more instructions than the budget allows
(`Case.Exceeds`). No random or structured case is such a case, and no case at
all is one when the budget allows forty instructions.

Key definitions: `Case.Needs`, `Case.Exceeds`, `Campaign.cases`.
Key theorems: `Case.needs_compiled`, `Case.Proper.verdict`, `Campaign.tests_exact`,
`Campaign.run_exact`.
-/
import Intcode.Fuzz.Campaign
import Intcode.Proofs.Budget
import Intcode.Proofs.Generate
import Intcode.Proofs.Program
import Intcode.Proofs.Trial

namespace Intcode

namespace Outcome

theorem agrees_self (o : Outcome) : o.agrees o = true := by
  cases o <;> simp [agrees]

theorem Regular.isCrash {o : Outcome} (h : o.Regular) : Statistics.isCrash o = false := by
  cases o with
  | crash reason => exact absurd rfl (h reason)
  | success | exception => rfl

end Outcome

namespace Case

/-- The case is compiled from an expression that has a value for its inputs, and
its program, with the memory that trials give it, completes `n` instructions
until it halts. -/
def Needs (c : Case) (n : Nat) : Prop :=
  ∃ e v m₀ m', ofExpr e c.inputs = .ok c ∧ e.evaluate c.inputs = .ok v ∧
    Machine.boot (c.program.map .int) (some Trial.standardLimit) = .ok m₀ ∧
    m₀.Runs (c.inputs.map .int) (.ok [v]) m' ∧ m'.status = .halted ∧ m'.steps = n

/-- The case needs more instructions than a budget allows. -/
def Exceeds (budget : Int) (c : Case) : Prop := ∃ n, c.Needs n ∧ budget < n

/-- What is expected of the case of an expression: its value, or nothing if the
evaluation overflows. -/
theorem expected_of_evaluate {e : Expr} {c : Case} (h : ofExpr e c.inputs = .ok c) :
    (∃ v, e.evaluate c.inputs = .ok v ∧ c.expected = some [v]) ∨
      ∃ f, e.evaluate c.inputs = .error f ∧ c.expected = none := by
  obtain ⟨-, -, hk⟩ := ofExpr_eq h
  rw [Expr.knownOutputs] at hk
  rcases he : e.evaluate c.inputs with f | v <;> rw [he] at hk
  · rw [Expr.outputsOf] at hk
    split at hk
    · injection hk with hk
      exact .inr ⟨f, rfl, hk.symm⟩
    · cases hk
  · injection hk with hk
    exact .inl ⟨v, rfl, hk.symm⟩

theorem Needs.expected {c : Case} {n : Nat} (h : c.Needs n) : ∃ v, c.expected = some [v] := by
  obtain ⟨e, v, -, -, made, he, -⟩ := h
  rcases expected_of_evaluate made with ⟨w, -, hw⟩ | ⟨f, hf, -⟩
  · exact ⟨w, hw⟩
  · rw [he] at hf
    cases hf

/-- A case needs one number of instructions. -/
theorem Needs.unique {c : Case} {n k : Nat} (h : c.Needs n) (h' : c.Needs k) : n = k := by
  obtain ⟨_, _, m₀, m, -, -, boot, runs, -, rfl⟩ := h
  obtain ⟨_, _, m₁, m', -, -, boot', runs', -, rfl⟩ := h'
  rw [boot] at boot'
  cases boot'
  obtain ⟨-, rfl⟩ := runs.det runs'
  rfl

/-- Nothing is known of a case that expects nothing, so it exceeds no budget. -/
theorem not_exceeds_of_expected {c : Case} (h : c.expected = none) (budget : Int) :
    ¬ c.Exceeds budget := by
  rintro ⟨n, hn, -⟩
  obtain ⟨v, hv⟩ := hn.expected
  rw [h] at hv
  cases hv

/-! ### Compiled cases -/

/-- The standard memory has room for the program of a low expression. -/
theorem roomy_of_height {e : Expr} (h : e.height ≤ 3) (xs : List Int) :
    e.Roomy xs (some Trial.standardLimit) := by
  have hlength := e.length_program
  have hcode := e.codeLength_le
  have hnodes : 2 * e.nodes + 1 ≤ 81 := Expr.nodes_le h
  have hpeak := e.peak_le_height xs
  refine ⟨?_, fun l hl => ?_⟩
  · unfold cellMax
    omega
  · cases hl
    unfold Trial.standardLimit
    omega

theorem inCell_compiled {c : Case} {e : Expr} (h : c.Compiled e 3) : ∀ x ∈ c.program, InCell x := by
  rw [(ofExpr_eq h.made).1]
  have haddress := (roomy_of_height h.height []).address
  exact e.inCell_program (by omega)

/-- A compiled case of an expression that has a value needs three instructions
more than the evaluation costs. -/
theorem needs_compiled {c : Case} {e : Expr} (h : c.Compiled e 3) {v : Int}
    (he : e.evaluate c.inputs = .ok v) : c.Needs (e.cost c.inputs + 3) := by
  have hprogram := (ofExpr_eq h.made).1
  obtain ⟨m', m'', steps, halt, halted, hsteps, -⟩ :=
    Expr.program_halts (roomy_of_height h.height c.inputs) h.inputs he
  have hboot := Machine.boot_ints (inCell_compiled h) (some Trial.standardLimit)
  rw [← hprogram] at steps
  exact ⟨e, v, _, m'', h.made, he, hboot, .of_steps rfl h.inputs steps halt rfl rfl, halted, hsteps⟩

/-! ### Verdicts -/

theorem Proper.fits {c : Case} (h : c.Proper) :
    (∀ x ∈ c.program, InCell x) ∧ ∀ x ∈ c.inputs, InCell x := by
  rcases h with h | ⟨e, h⟩
  · exact ⟨h.program, h.inputs⟩
  · exact ⟨inCell_compiled h, h.inputs⟩

/-- A case that expects something is compiled, and it is known how many
instructions it needs. -/
theorem Proper.needs {c : Case} (h : c.Proper) (hc : c.expected ≠ none) :
    ∃ n, c.Needs n ∧ n ≤ 40 := by
  rcases h with h | ⟨e, h⟩
  · exact absurd h.expected hc
  · rcases expected_of_evaluate h.made with ⟨v, he, -⟩ | ⟨f, -, hf⟩
    · exact ⟨_, needs_compiled h he, e.cost_le c.inputs h.height⟩
    · exact absurd hf hc

/-- No case that a strategy draws exceeds a budget of forty instructions. -/
theorem Proper.not_exceeds {c : Case} (h : c.Proper) {budget : Int} (hb : 40 ≤ budget) :
    ¬ c.Exceeds budget := by
  rintro ⟨n, hn, hlt⟩
  obtain ⟨v, hv⟩ := hn.expected
  obtain ⟨k, hk, hle⟩ := h.needs (by rw [hv]; simp)
  have := hn.unique hk
  omega

/-- The outcome of a case that needs so many instructions is as expected if the
budget allows them. Otherwise the budget is spent, and it is not. -/
theorem Needs.meets {c : Case} {n : Nat} (h : c.Needs n) (hi : ∀ x ∈ c.inputs, InCell x)
    {budget : Int} {fuel : Nat} {o : Outcome}
    (ho : c.trial.batch (some budget) (some Trial.standardLimit) fuel = some (.ok o)) :
    o.meets c.expected = true ↔ n ≤ budget := by
  obtain ⟨e, v, m₀, m', made, he, boot, runs, halted, rfl⟩ := h
  have hexpected : c.expected = some [v] := by
    rcases expected_of_evaluate made with ⟨w, hw, hc⟩ | ⟨f, hf, -⟩
    · rw [he] at hw
      cases hw
      exact hc
    · rw [he] at hf
      cases hf
  obtain ⟨memory, rfl⟩ := Machine.boot_ok boot
  obtain ⟨within, beyond⟩ := runs.budget Status.noConfusion (Machine.feed_running rfl hi) budget fuel
  have hfresh : (({ memory := memory } : Machine).steps : Int) + budget = budget := Int.zero_add _
  rw [hfresh] at within beyond
  simp only [Trial.batch, trial, boot] at ho
  rw [hexpected]
  by_cases hle : (m'.steps : Int) ≤ budget
  · rw [within hle] at ho
    cases ho
    simp [Outcome.ofAnswer, Outcome.meets, hle]
  · obtain ⟨window, pointer, m'', hrun⟩ := beyond (by omega)
    rw [hrun] at ho
    cases ho
    rw [Outcome.ofAnswer_error rfl]
    simp [Outcome.meets, hle]

/-- A trial of a case that a strategy draws comes to a verdict without a crash.
It is unfavourable just if the case exceeds the budget. -/
theorem Proper.verdict {c : Case} (h : c.Proper) (budget : Int) (fuel : Nat) :
    ∃ v, c.trial.run (some budget) fuel = some (.ok v) ∧ v.batch.Regular ∧ v.interactive.Regular ∧
      (v.agree = false ↔ c.Exceeds budget) := by
  obtain ⟨program, inputs⟩ := h.fits
  rcases outcomes_equal program inputs (some budget) fuel with ⟨-, -, hb⟩ | ⟨o, hb, hi, ho⟩
  · cases hb
  · refine ⟨⟨o, o, o.agrees o && o.meets c.expected⟩, ?_, ho, ho, ?_⟩
    · rw [Trial.run, hb, hi]
      rfl
    · rw [o.agrees_self, Bool.true_and]
      by_cases hc : c.expected = none
      · have hmeets : o.meets c.expected = true := by rw [hc]; rfl
        simp [hmeets, not_exceeds_of_expected hc budget]
      · obtain ⟨n, hn, -⟩ := h.needs hc
        rw [← Bool.not_eq_true, hn.meets inputs hb]
        constructor
        · exact fun hlt => ⟨n, hn, by omega⟩
        · rintro ⟨k, hk, hlt⟩
          rw [hn.unique hk]
          omega

end Case

/-! ### Campaigns -/

namespace Campaign

variable {σ : Type} [Source σ]

/-- The cases that a campaign draws, in order. -/
def cases (strategy : Strategy) : Nat → σ → List Case
  | 0, _ => []
  | n + 1, s => match (strategy.generate (σ := σ) {}).on s with
    | (.error _, _) => []
    | (.ok c, s) => c :: cases strategy n s

/-- As many cases are drawn as are wanted. -/
theorem cases_drawn (strategy : Strategy) (n : Nat) (s : σ) :
    (cases strategy n s).length = n ∧ ∀ c ∈ cases strategy n s,
      c.Proper ∧ (strategy = .random ∨ strategy = .structured → c.Free) := by
  induction n generalizing s with
  | zero => exact ⟨rfl, fun c hc => by cases hc⟩
  | succ n ih =>
    obtain ⟨c, t, hs, hc⟩ := strategy.gives_generate (σ := σ) s
    obtain ⟨hlength, hall⟩ := ih t
    rw [cases, hs]
    exact ⟨congrArg (· + 1) hlength, List.forall_mem_cons.2 ⟨hc, hall⟩⟩

theorem statistics_record (number : Nat) (c : Case) (v : Trial.Verdict) (campaign : Campaign) :
    (campaign.record number c v).statistics = campaign.statistics.record v := rfl

open Classical in
/-- A campaign over more cases counts them all, no crash, and a mismatch for each
that exceeds the budget. -/
theorem tests_exact (strategy : Strategy) (budget : Int) (fuel n number : Nat)
    (campaign : Campaign) (s : σ) :
    ∃ after, tests strategy (some budget) fuel n number campaign s = some (.ok after) ∧
      after.statistics.total = campaign.statistics.total + n ∧
      after.statistics.crashes = campaign.statistics.crashes ∧
      after.statistics.mismatches = campaign.statistics.mismatches +
        (cases strategy n s).countP fun c => c.Exceeds budget := by
  induction n generalizing number campaign s with
  | zero => exact ⟨campaign, rfl, rfl, rfl, rfl⟩
  | succ n ih =>
    obtain ⟨c, t, hs, hc, -⟩ := strategy.gives_generate (σ := σ) s
    obtain ⟨v, hv, hb, hi, hagree⟩ := hc.verdict budget fuel
    have htest : test strategy (some budget) fuel s = (some (.ok (c, v)), t) := by
      rw [test, hs]
      simp only [hv]
      rfl
    obtain ⟨after, hafter, htotal, hcrashes, hmismatches⟩ :=
      ih (number + 1) (campaign.record number c v) t
    refine ⟨after, ?_, ?_, ?_, ?_⟩
    · rw [tests, htest]
      exact hafter
    · rw [htotal, statistics_record, Statistics.record]
      simp only
      omega
    · rw [hcrashes, statistics_record, Statistics.record, hb.isCrash, hi.isCrash]
      rfl
    · have hcount : Statistics.tally (!v.agree) = if c.Exceeds budget then 1 else 0 := by
        by_cases he : c.Exceeds budget
        · rw [if_pos he, hagree.2 he]
          rfl
        · rw [if_neg he]
          cases ha : v.agree with
          | true => rfl
          | false => exact absurd (hagree.1 ha) he
      rw [hmismatches, statistics_record, Statistics.record, cases, hs, List.countP_cons]
      simp only [hcount, decide_eq_true_eq]
      omega

open Classical in
/-- A campaign with a budget finishes. It counts the cases it was asked for and no
crash. The trials that it counts as mismatches are those of the cases that exceed
the budget, so there are none among random and structured cases, and none at all
where the budget allows forty instructions. -/
theorem run_exact (count : Int) (name : String) (budget : Int) (fuel : Nat) (s : σ) :
    let drawn := cases (strategyFor name) count.toNat s
    drawn.length = count.toNat ∧
    ∃ campaign, run count name (some budget) fuel s = some (.ok campaign) ∧
      (campaign.statistics.total : Int) = max count 0 ∧ campaign.statistics.crashes = 0 ∧
      (∀ c ∈ drawn, ∃ v, c.trial.run (some budget) fuel = some (.ok v) ∧
        (v.agree = false ↔ c.Exceeds budget)) ∧
      campaign.statistics.mismatches = drawn.countP (fun c => c.Exceeds budget) ∧
      (strategyFor name = .random ∨ strategyFor name = .structured →
        campaign.statistics.mismatches = 0) ∧
      (40 ≤ budget → campaign.statistics.mismatches = 0) := by
  intro drawn
  obtain ⟨hlength, hdrawn⟩ := cases_drawn (strategyFor name) count.toNat s
  obtain ⟨after, hafter, htotal, hcrashes, hmismatches⟩ := tests_exact (strategyFor name) budget
    fuel count.toNat 1 { printed := Report.header count name (some budget) } s
  have hnone (h : ∀ c ∈ drawn, ¬ c.Exceeds budget) :
      drawn.countP (fun c => c.Exceeds budget) = 0 := by
    rw [List.countP_eq_zero]
    intro c hc
    simpa using h c hc
  have hcounted : after.statistics.mismatches = drawn.countP (fun c => c.Exceeds budget) := by
    rw [hmismatches]
    exact Nat.zero_add _
  refine ⟨hlength, { after with printed := after.printed ++ after.statistics.summary }, ?_, ?_, ?_,
    ?_, ?_, ?_, ?_⟩
  · rw [run]
    simp only [hafter]
    rfl
  · show (after.statistics.total : Int) = max count 0
    have hstart : ({} : Statistics).total = 0 := rfl
    rw [htotal, hstart]
    omega
  · exact hcrashes
  · intro c hc
    obtain ⟨v, hv, -, -, hagree⟩ := (hdrawn c hc).1.verdict budget fuel
    exact ⟨v, hv, hagree⟩
  · exact hcounted
  · intro hfree
    have hwithin : ∀ c ∈ drawn, ¬ c.Exceeds budget := fun c hc =>
      Case.not_exceeds_of_expected ((hdrawn c hc).2 hfree).expected budget
    exact hcounted.trans (hnone hwithin)
  · intro hbudget
    have hwithin : ∀ c ∈ drawn, ¬ c.Exceeds budget := fun c hc =>
      (hdrawn c hc).1.not_exceeds hbudget
    exact hcounted.trans (hnone hwithin)

/-- A campaign over cases of all kinds that the Mersenne Twister draws. -/
theorem run_exact_mixed : ∃ campaign,
    run 25 "mixed" (some 40) 0 (Twister.ofSeed 7) = some (.ok campaign) ∧
      (campaign.statistics.total : Int) = 25 ∧ campaign.statistics.mismatches = 0 := by
  obtain ⟨-, campaign, hrun, htotal, -, -, -, -, hnone⟩ :=
    run_exact 25 "mixed" 40 0 (Twister.ofSeed 7)
  exact ⟨campaign, hrun, htotal, hnone (by decide)⟩

end Campaign
end Intcode
