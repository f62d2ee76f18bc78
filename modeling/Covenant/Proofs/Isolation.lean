import Covenant.Pipeline
import Mathlib.Data.List.Basic

/-!
# Checks that leave each other's findings alone

A pipeline of arbitrary checks. Each of them may decline, find violations, fail or crash, and each may look at
what was found before it.

* `Pipeline.contributions`: what each check adds, in the order of the checks;
* `Pipeline.runFrom_violations`: the report consists of what was there and of these contributions;
* `Pipeline.getElem?_contributions`: a check is shown what those before it contributed;
* `Pipeline.runFrom_congr`: a check matters only through what it adds to the report that it is shown;
* `Check.Breaks`, `Check.always`: a check that does not complete, and one that finds the same whatever it is
  shown;
* `Pipeline.checks_isolated`: prefixes, what checks are shown, replaced and removed checks.
-/

namespace Covenant

/-! ## One check -/

namespace Check

/-- A check that is attempted and does not complete, with the message that it leaves. -/
inductive Breaks (c : Check) (e : Expectation) (a : Reply) (o : CheckOptions) (prior : Report) :
    String → Prop
  | failed {err : CheckError} : c.applies e o prior = true → c.evaluate e a o prior = .failed err →
      Breaks c e a o prior err.message
  | crashed {message : Option String} : c.applies e o prior = true →
      c.evaluate e a o prior = .crashed message → Breaks c e a o prior (message.getD "rule panicked")

/-- The check that finds the same violations whatever it is shown. -/
def always (id : String) (vs : List Violation) : Check where
  id := id
  applies _ _ _ := true
  evaluate _ _ _ _ := .violations vs

/-- Two checks that do the same when they are shown a report. -/
structure Agrees (c d : Check) (e : Expectation) (a : Reply) (o : CheckOptions) (prior : Report) : Prop where
  id : d.id = c.id
  applies : d.applies e o prior = c.applies e o prior
  evaluate : d.evaluate e a o prior = c.evaluate e a o prior

/-- A check that does not look at what was found before. -/
def IgnoresPrior (c : Check) (e : Expectation) (a : Reply) (o : CheckOptions) : Prop :=
  ∀ r s, c.applies e o r = c.applies e o s ∧ c.evaluate e a o r = c.evaluate e a o s

variable {c d : Check} {e : Expectation} {a : Reply} {o : CheckOptions} {r : Report}

/-- A check that does not complete adds one violation with its message. -/
theorem Breaks.contribution_eq {message : String} (h : c.Breaks e a o r message) :
    c.contribution e a o r = [incomplete c.id message] := by
  cases h with
  | failed happlies hevaluate => rw [contribution, if_pos happlies, hevaluate]
  | crashed happlies hevaluate => rw [contribution, if_pos happlies, hevaluate]

theorem contribution_always (id : String) (vs : List Violation) :
    (always id vs).contribution e a o r = vs := by
  rw [contribution]
  exact if_pos rfl

theorem Agrees.contribution_eq (h : Agrees c d e a o r) : d.contribution e a o r = c.contribution e a o r := by
  rw [contribution, contribution, h.id, h.applies, h.evaluate]

theorem IgnoresPrior.contribution_eq (h : c.IgnoresPrior e a o) (r s : Report) :
    c.contribution e a o r = c.contribution e a o s := by
  obtain ⟨happlies, hevaluate⟩ := h r s
  rw [contribution, contribution, happlies, hevaluate]

end Check

/-! ## A pipeline of checks -/

namespace Pipeline

/-- What each check adds to the report that it is shown, in the order of the checks. -/
def contributions (p : Pipeline) (e : Expectation) (a : Reply) (o : CheckOptions) (r : Report) :
    List (List Violation) :=
  match p with
  | [] => []
  | c :: p =>
    c.contribution e a o r :: contributions p e a o (r.append (c.contribution e a o r))

variable (e : Expectation) (a : Reply) (o : CheckOptions)

theorem length_contributions (p : Pipeline) (r : Report) :
    (p.contributions e a o r).length = p.length := by
  induction p generalizing r with
  | nil => rfl
  | cons c p ih =>
    show (contributions p e a o _).length + 1 = p.length + 1
    rw [ih]

/-- A run appends the contributions to the report that it starts with. -/
theorem runFrom_violations (p : Pipeline) (r : Report) :
    (p.runFrom e a o r).violations = r.violations ++ (p.contributions e a o r).flatten := by
  induction p generalizing r with
  | nil => simp [contributions]
  | cons c p ih =>
    rw [runFrom_cons, ih, Report.violations_append, contributions, List.flatten_cons, List.append_assoc]

theorem run_violations (p : Pipeline) :
    (p.run e a o).violations = (p.contributions e a o .empty).flatten := by
  have h := runFrom_violations e a o p .empty
  rwa [show Report.empty.violations = [] from rfl, List.nil_append] at h

theorem take_contributions (p : Pipeline) (r : Report) (i : Nat) :
    (p.contributions e a o r).take i = contributions (p.take i) e a o r := by
  induction p generalizing r i with
  | nil => simp [contributions]
  | cons c p ih =>
    cases i with
    | zero => rfl
    | succ i =>
      show _ :: (contributions p e a o _).take i = _ :: contributions (p.take i) e a o _
      rw [ih]

/-- Each check is shown the report of the checks before it. -/
theorem getElem?_contributions {p : Pipeline} {i : Nat} {c : Check} (h : p[i]? = some c) (r : Report) :
    (p.contributions e a o r)[i]? = some (c.contribution e a o (runFrom (p.take i) e a o r)) := by
  induction p generalizing i r with
  | nil => cases h
  | cons d p ih =>
    cases i with
    | zero =>
      cases h
      rfl
    | succ i =>
      show (contributions p e a o _)[i]? = _
      rw [ih h]
      rfl

/-- A check matters only through what it adds to the report of the checks before it. -/
theorem runFrom_congr {p q : Pipeline} {r : Report} (hlen : q.length = p.length)
    (h : ∀ (i : Nat) (c d : Check), p[i]? = some c → q[i]? = some d →
      d.contribution e a o (runFrom (p.take i) e a o r) = c.contribution e a o (runFrom (p.take i) e a o r)) :
    q.runFrom e a o r = p.runFrom e a o r := by
  induction p generalizing q r with
  | nil =>
    rw [List.length_eq_zero_iff.1 hlen]
  | cons c p ih =>
    cases q with
    | nil => cases hlen
    | cons d q =>
      have hfirst : d.contribution e a o r = c.contribution e a o r := h 0 c d rfl rfl
      rw [runFrom_cons, runFrom_cons, hfirst]
      refine ih (Nat.succ.inj hlen) ?_
      intro i c' d' hc hd
      exact h (i + 1) c' d' hc hd

/-- Checks that do not look at the report contribute the same after any report. -/
theorem contributions_of_ignoresPrior {p : Pipeline} (h : ∀ c ∈ p, c.IgnoresPrior e a o) (r s : Report) :
    p.contributions e a o r = p.contributions e a o s := by
  induction p generalizing r s with
  | nil => rfl
  | cons c p ih =>
    have hfirst := (h c List.mem_cons_self).contribution_eq r s
    have hrest := ih (fun d hd => h d (List.mem_cons_of_mem c hd))
      (r.append (c.contribution e a o r)) (s.append (c.contribution e a o s))
    rw [contributions, contributions, hrest, hfirst]

/-- Leaving out a check deletes what it contributed and nothing else, if those after it do not look at the
report. -/
theorem run_without {before after : Pipeline} (c : Check) (h : ∀ d ∈ after, d.IgnoresPrior e a o) :
    ∃ rest,
      (run (before ++ c :: after) e a o).violations =
        (before.run e a o).violations ++ c.contribution e a o (before.run e a o) ++ rest ∧
      (run (before ++ after) e a o).violations = (before.run e a o).violations ++ rest := by
  refine ⟨(after.contributions e a o .empty).flatten, ?_, ?_⟩
  · show (runFrom (before ++ c :: after) e a o .empty).violations = _
    rw [runFrom_append, runFrom_cons, runFrom_violations, Report.violations_append,
      contributions_of_ignoresPrior e a o h _ .empty]
    rfl
  · show (runFrom (before ++ after) e a o .empty).violations = _
    rw [runFrom_append, runFrom_violations, contributions_of_ignoresPrior e a o h _ .empty]
    rfl

/-- Whatever the checks of a pipeline do: a prefix of the checks reports a prefix of the violations; each check
is attempted once and is shown exactly what those before it contributed; it makes no difference whether a
check that breaks is replaced by one that finds just the violation for it, nor what a check would do if it were
shown something else; and to leave out a check deletes its own contribution, if those after it do not look at
the report. -/
theorem checks_isolated (p : Pipeline) (e : Expectation) (a : Reply) (o : CheckOptions) :
    (∀ q : Pipeline, q <+: p → (q.run e a o).violations <+: (p.run e a o).violations) ∧
    ((p.run e a o).violations = (p.contributions e a o .empty).flatten ∧
      (p.contributions e a o .empty).length = p.length ∧
      ∀ (i : Nat) (c : Check), p[i]? = some c → (p.contributions e a o .empty)[i]? =
        some (c.contribution e a o ⟨((p.contributions e a o .empty).take i).flatten⟩)) ∧
    (∀ q : Pipeline, q.length = p.length →
      (∀ (i : Nat) (c d : Check), p[i]? = some c → q[i]? = some d →
        Check.Agrees c d e a o (run (p.take i) e a o) ∨
        ∃ id message, c.Breaks e a o (run (p.take i) e a o) message ∧
          d = .always id [incomplete c.id message]) →
      q.run e a o = p.run e a o) ∧
    ∀ (before after : Pipeline) c, p = before ++ c :: after → (∀ d ∈ after, d.IgnoresPrior e a o) →
      ∃ rest,
        (p.run e a o).violations =
          (before.run e a o).violations ++ c.contribution e a o (before.run e a o) ++ rest ∧
        (run (before ++ after) e a o).violations = (before.run e a o).violations ++ rest := by
  refine ⟨?_, ⟨run_violations e a o p, length_contributions e a o p .empty, ?_⟩, ?_, ?_⟩
  · intro q hq
    obtain ⟨rest, rfl⟩ := hq
    show _ <+: (runFrom (q ++ rest) e a o .empty).violations
    rw [runFrom_append, runFrom_violations]
    exact List.prefix_append _ _
  · intro i c hc
    have hprior : (⟨((p.contributions e a o .empty).take i).flatten⟩ : Report) = run (p.take i) e a o := by
      rw [take_contributions, ← run_violations]
    rw [hprior]
    exact getElem?_contributions e a o hc .empty
  · intro q hlen h
    refine runFrom_congr e a o hlen ?_
    intro i c d hc hd
    rcases h i c d hc hd with hagrees | ⟨id, message, hbreaks, rfl⟩
    · exact hagrees.contribution_eq
    · rw [Check.contribution_always]
      exact hbreaks.contribution_eq.symm
  · intro before after c hp h
    rw [hp]
    exact run_without e a o c h

/-- A check that crashes, and one that tells how much was found before it. -/
def crash : Check := ⟨"crash", fun _ _ _ => true, fun _ _ _ _ => .crashed (some "boom")⟩

def tally : Check :=
  ⟨"tally", fun _ _ _ => true, fun _ _ _ prior => .violations [⟨"tally", .null, .present (.ofNat prior.count)⟩]⟩

theorem checks_isolated_crash :
    crash.Breaks (.ofStatus 200) ⟨500, [], .null⟩ .standard .empty "boom" ∧
    run [.always "calm" [incomplete "crash" "boom"], tally] (.ofStatus 200) ⟨500, [], .null⟩ .standard =
      run [crash, tally] (.ofStatus 200) ⟨500, [], .null⟩ .standard ∧
    (run [crash, tally] (.ofStatus 200) ⟨500, [], .null⟩ .standard).count = 2 := by
  have hbreaks : crash.Breaks (.ofStatus 200) ⟨500, [], .null⟩ .standard .empty "boom" := by
    show crash.Breaks _ _ _ _ ((some "boom").getD "rule panicked")
    exact .crashed rfl rfl
  refine ⟨hbreaks, (checks_isolated [crash, tally] _ _ _).2.2.1 _ rfl ?_, rfl⟩
  intro i c d hc hd
  match i with
  | 0 =>
    cases hc
    cases hd
    exact .inr ⟨"calm", "boom", hbreaks, rfl⟩
  | 1 =>
    cases hc
    cases hd
    exact .inl ⟨rfl, rfl, rfl⟩
  | i + 2 => cases hc

end Pipeline

end Covenant
