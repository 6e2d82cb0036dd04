/-
# How trials are counted

Each counter is the number of recorded trials of one kind, so it does not depend on the order
in which they are recorded (`Statistics.record_counts`, `Statistics.counts_perm`). A batch run
ends in one of four ways: it halts, it crashes, it is rejected or it spends its budget
(`Statistics.tally_outcome`). The last two have counters, and what is left counts as completed.

So the trials that are said to have run to the halt are those whose batch run halted and those
whose batch run crashed (`Statistics.completed_counts`). Without such a crash the count is
right, and with one it is too large.

Key definitions: `Statistics.isSuccess`, `Statistics.counts`.
Key theorems: `Statistics.record_counts`, `Statistics.counts_perm`, `Statistics.length_counts`,
`Statistics.completed_counts`, `Statistics.summary_completed`, `Statistics.classified`.
-/
import Mathlib.Data.List.Induction
import Intcode.Fuzz.Statistics

namespace Intcode
namespace Statistics

/-- Whether an outcome is that of a program that halted. -/
def isSuccess : Outcome → Bool
  | .success .. => true
  | _ => false

/-- The number of trials of each kind. -/
def counts (vs : List Trial.Verdict) : Statistics where
  total := vs.length
  mismatches := vs.countP (!·.agree)
  crashes := vs.countP fun v => isCrash v.batch || isCrash v.interactive
  rejected := vs.countP (isRejection ·.batch)
  stepLimited := vs.countP (isStepLimit ·.batch)

variable {vs vs' : List Trial.Verdict}

theorem isCrash_iff {o : Outcome} : isCrash o = true ↔ ∃ reason, o = .crash reason := by
  cases o <;> simp [isCrash]

/-- An outcome is of one kind. -/
theorem tally_outcome (o : Outcome) :
    tally (isSuccess o) + tally (isCrash o) + tally (isRejection o) + tally (isStepLimit o) =
      1 := by
  cases o with
  | success | crash => rfl
  | exception reason =>
    by_cases h : reason = Outcome.stepLimited <;>
      simp [tally, isSuccess, isCrash, isRejection, isStepLimit, h]

theorem countP_concat (p : Trial.Verdict → Bool) (vs : List Trial.Verdict) (v : Trial.Verdict) :
    (vs ++ [v]).countP p = vs.countP p + tally (p v) := by
  rw [List.countP_append, List.countP_singleton, tally]

/-- One more trial is counted in the counters of its kinds. -/
theorem counts_concat (vs : List Trial.Verdict) (v : Trial.Verdict) :
    counts (vs ++ [v]) = (counts vs).record v := by
  simp only [counts, record, countP_concat, List.length_append, List.length_singleton]

/-- The counters are what they are called, however many trials are recorded. -/
theorem record_counts (vs : List Trial.Verdict) : vs.foldl record {} = counts vs := by
  induction vs using List.reverseRecOn with
  | nil => rfl
  | append_singleton vs v ih =>
    rw [List.foldl_append, ih, List.foldl_cons, List.foldl_nil, counts_concat]

theorem counts_perm (h : vs'.Perm vs) : counts vs' = counts vs := by
  simp only [counts, h.length_eq, h.countP_eq]

/-- A batch run that was neither rejected nor cut short halted or crashed. -/
theorem length_counts (vs : List Trial.Verdict) :
    vs.length = vs.countP (isSuccess ·.batch) + vs.countP (isCrash ·.batch) +
      (counts vs).rejected + (counts vs).stepLimited := by
  induction vs using List.reverseRecOn with
  | nil => rfl
  | append_singleton vs v ih =>
    have hone := tally_outcome v.batch
    simp only [counts, countP_concat, List.length_append, List.length_singleton] at ih ⊢
    omega

theorem completed_counts (vs : List Trial.Verdict) : (counts vs).completed =
    (vs.countP (isSuccess ·.batch) + vs.countP (isCrash ·.batch) : Nat) := by
  have hlength := length_counts vs
  have htotal : (counts vs).total = vs.length := rfl
  unfold completed
  omega

/-- The summary gives the completed trials as those that ran to the halt. -/
theorem summary_completed (s : Statistics) : ∃ before after,
    s.summary = before ++ s!"Ran to halt:               {s.completed}\n" ++ after := by
  have regroup (before line a b c d : String) :
      before ++ line ++ a ++ b ++ c ++ d = before ++ line ++ (a ++ b ++ c ++ d) := by
    simp only [String.append_assoc]
  unfold summary
  exact ⟨_, _, regroup ..⟩

/-- Of trials recorded in any order each is rejected, cut short or completed, and each is correct
or a mismatch. The completed ones, which the summary gives as run to the halt, are those that
halted in the batch run, and besides those that crashed there. So as many are completed as halted
just if none of them crashed. -/
theorem classified (vs : List Trial.Verdict) :
    let s : Statistics := vs.foldl record {}
    (s.total : Int) = s.rejected + s.stepLimited + s.completed ∧
      s.correct + s.mismatches = s.total ∧
      (∀ vs' : List Trial.Verdict, vs'.Perm vs → vs'.foldl record {} = s) ∧
      (∃ before after,
        s.summary = before ++ s!"Ran to halt:               {s.completed}\n" ++ after) ∧
      s.completed = vs.countP (isSuccess ·.batch) + vs.countP (isCrash ·.batch) ∧
      (s.completed = vs.countP (isSuccess ·.batch) ↔
        ¬ ∃ v ∈ vs, ∃ reason, v.batch = .crash reason) := by
  intro s
  have hs : s = counts vs := record_counts vs
  have hcompleted : s.completed = vs.countP (isSuccess ·.batch) + vs.countP (isCrash ·.batch) := by
    rw [hs, completed_counts]
    push_cast
    rfl
  refine ⟨?_, ?_, fun vs' h => ?_, s.summary_completed, hcompleted, ?_⟩
  · unfold completed
    omega
  · unfold correct
    omega
  · rw [hs, record_counts, counts_perm h]
  · have hnone : vs.countP (isCrash ·.batch) = 0 ↔
        ¬ ∃ v ∈ vs, ∃ reason, v.batch = .crash reason := by
      simp only [List.countP_eq_zero, isCrash_iff, not_exists, not_and]
    rw [← hnone, hcompleted]
    omega

/-- A rejected trial and one that halts, in either order. -/
theorem classified_swap :
    let halts : Trial.Verdict := ⟨.success [1] [104, 1, 99], .success [1] [104, 1, 99], true⟩
    let fails : Trial.Verdict := ⟨.exception "AddressError", .exception "AddressError", true⟩
    [halts, fails].foldl record {} = [fails, halts].foldl record {} ∧
      ([fails, halts].foldl record {}).completed = 1 := by
  intro halts fails
  obtain ⟨-, -, perm, -, completed, -⟩ := classified [fails, halts]
  exact ⟨perm _ (.swap fails halts []), completed⟩

/-- A batch run that crashes is counted as one that ran to the halt. -/
theorem crash_completed :
    let crashes : Trial.Verdict := ⟨.crash "boom", .crash "boom", true⟩
    ([crashes].foldl record {}).completed = 1 ∧ [crashes].countP (isSuccess ·.batch) = 0 := by
  decide

end Statistics
end Intcode
