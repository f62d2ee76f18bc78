/-!
# Outcomes

What became of the contracts of a run. Counts and milliseconds are words of 64 bits, as they stand in reports.

* `Verdict`, `Outcome`: the verdict on one contract, with the lines that explain it;
* `Outcome.ofLines`: the outcome that lines explain, a pass without lines;
* `Summary`: the outcomes of a run in contract order, with their counts;
* `Summary.ofOutcomes`: the summary of a list of outcomes, whose counts add up to its length;
* `Summary.Counts`, `Summary.counts_ofOutcomes`: its counts are those of the verdicts, as far as words count;
* `Summary.Counts.isSuccess_iff`: then success means that all contracts hold.
-/

namespace Covenant

/-- The verdict on a contract. -/
inductive Verdict where
  | pass | fail
deriving DecidableEq, Repr

/-- The written form of a verdict. -/
def Verdict.name : Verdict → String
  | .pass => "PASS"
  | .fail => "FAIL"

/-- The verdict with a written form. -/
def Verdict.ofName? (s : String) : Option Verdict :=
  [Verdict.pass, .fail].find? (fun v => v.name == s)

theorem Verdict.ofName?_name (v : Verdict) : Verdict.ofName? v.name = some v := by
  cases v <;> decide

theorem Verdict.ne_pass_iff {v : Verdict} : v ≠ .pass ↔ v = .fail := by
  cases v <;> simp

/-- What became of one contract. -/
structure Outcome where
  name : String
  verdict : Verdict
  /-- The violations, or the error that prevented the validation. -/
  lines : List String
  durationMs : UInt64
deriving DecidableEq

namespace Outcome

/-- The outcome of a contract that holds. -/
def pass (name : String) (durationMs : UInt64) : Outcome := ⟨name, .pass, [], durationMs⟩

/-- The outcome of a contract that does not hold. -/
def fail (name : String) (lines : List String) (durationMs : UInt64) : Outcome :=
  ⟨name, .fail, lines, durationMs⟩

/-- The outcome that lines explain. A contract holds if there is nothing to explain. -/
def ofLines (name : String) (lines : List String) (durationMs : UInt64) : Outcome :=
  if lines.isEmpty then pass name durationMs else fail name lines durationMs

/-- Whether the contract holds. -/
def isPass (o : Outcome) : Bool := o.verdict == .pass

end Outcome

/-- The outcomes of a run, in contract order, with their counts. -/
structure Summary where
  outcomes : List Outcome
  passed : UInt64
  failed : UInt64
  durationMs : UInt64
deriving DecidableEq

namespace Summary

/-- The number of contracts that hold, as a word. -/
def passes (outcomes : List Outcome) : UInt64 := .ofNat (outcomes.countP Outcome.isPass)

/-- The summary of a list of outcomes. What does not pass counts as failed. -/
def ofOutcomes (outcomes : List Outcome) (durationMs : UInt64) : Summary where
  outcomes := outcomes
  passed := passes outcomes
  failed := .ofNat outcomes.length - passes outcomes
  durationMs := durationMs

/-- The number of outcomes. -/
def total (s : Summary) : UInt64 := .ofNat s.outcomes.length

/-- Whether no contract failed, by the count. -/
def isSuccess (s : Summary) : Bool := s.failed == 0

theorem passed_add_failed (outcomes : List Outcome) (durationMs : UInt64) :
    (ofOutcomes outcomes durationMs).passed + (ofOutcomes outcomes durationMs).failed =
      (ofOutcomes outcomes durationMs).total := by
  rw [UInt64.add_comm]
  exact UInt64.sub_add_cancel _ _

/-! ## Counts -/

/-- The counts of a summary are those of the verdicts of its outcomes. -/
structure Counts (s : Summary) : Prop where
  passed : s.passed.toNat = s.outcomes.countP (·.verdict = .pass)
  failed : s.failed.toNat = s.outcomes.countP (·.verdict = .fail)

theorem countP_pass_add_countP_fail (outcomes : List Outcome) :
    outcomes.countP (·.verdict = .pass) + outcomes.countP (·.verdict = .fail) = outcomes.length := by
  rw [List.length_eq_countP_add_countP (·.verdict = .pass)]
  congr 1
  refine List.countP_congr fun o _ => ?_
  simp [← Verdict.ne_pass_iff]

/-- The subtraction that counts the failures does not wrap around. -/
theorem counts_ofOutcomes {outcomes : List Outcome} (h : outcomes.length < UInt64.size) (durationMs : UInt64) :
    (ofOutcomes outcomes durationMs).Counts := by
  have hsum := countP_pass_add_countP_fail outcomes
  have hlength : (UInt64.ofNat outcomes.length).toNat = outcomes.length := UInt64.toNat_ofNat_of_lt' h
  have hpasses : (passes outcomes).toNat = outcomes.countP (·.verdict = .pass) := by
    rw [passes, show outcomes.countP Outcome.isPass = outcomes.countP (·.verdict = .pass) from rfl]
    exact UInt64.toNat_ofNat_of_lt' (by omega)
  have hle : passes outcomes ≤ .ofNat outcomes.length := by
    rw [UInt64.le_iff_toNat_le, hpasses, hlength]
    omega
  refine ⟨hpasses, ?_⟩
  show (UInt64.ofNat outcomes.length - passes outcomes).toNat = outcomes.countP (·.verdict = .fail)
  rw [UInt64.toNat_sub_of_le _ _ hle, hpasses, hlength]
  omega

/-- No failure is counted exactly if all contracts hold. -/
theorem Counts.isSuccess_iff {s : Summary} (h : s.Counts) :
    s.isSuccess = true ↔ ∀ o ∈ s.outcomes, o.verdict = .pass := by
  have hfailed : s.isSuccess = true ↔ s.failed.toNat = 0 := by
    rw [isSuccess, beq_iff_eq, ← UInt64.toNat_inj]
    rfl
  rw [hfailed, h.failed, List.countP_eq_zero]
  simp [← Verdict.ne_pass_iff]

end Summary

end Covenant
