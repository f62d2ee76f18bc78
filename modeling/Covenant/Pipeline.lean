import Covenant.Contract
import Covenant.Diff
import Covenant.Reply

/-!
# Checking a reply

A pipeline is a list of checks. Each is attempted in turn and sees what the earlier ones found. A check
that fails or crashes contributes one violation that says so, and the later ones still run.

* `Check`: an independent check with its identifier;
* `Check.contribution`: the violations that a check adds to what was found before;
* `Pipeline.run`: the report of all checks.
-/

namespace Covenant

/-- Settings of a validation. -/
structure CheckOptions where
  ignoreHeaderCase : Bool
  maxDepth : Nat

def CheckOptions.standard : CheckOptions := ⟨false, Diff.defaultDepth⟩

/-- How a check ends. -/
inductive CheckResult where
  | violations (vs : List Violation)
  | failed (e : CheckError)
  /-- The check broke down, with a message if it left one. -/
  | crashed (message : Option String)

/-- One check of a reply. -/
structure Check where
  id : String
  /-- Whether the check is attempted, given what was found so far. -/
  applies : Expectation → CheckOptions → Report → Bool
  evaluate : Expectation → Reply → CheckOptions → Report → CheckResult

/-- The violation that stands for a check that did not complete. -/
def incomplete (id message : String) : Violation :=
  ⟨"rule '" ++ id ++ "'", .string "rule to complete", .present (.string message)⟩

/-- What a check adds to a report. -/
def Check.contribution (c : Check) (expected : Expectation) (actual : Reply) (o : CheckOptions)
    (prior : Report) : List Violation :=
  if c.applies expected o prior then
    match c.evaluate expected actual o prior with
    | .violations vs => vs
    | .failed e => [incomplete c.id e.message]
    | .crashed message => [incomplete c.id (message.getD "rule panicked")]
  else []

/-- Checks in the order in which they run. -/
abbrev Pipeline : Type := List Check

namespace Pipeline

/-- The report of the checks that follow a report already made. -/
def runFrom (p : Pipeline) (expected : Expectation) (actual : Reply) (o : CheckOptions)
    (prior : Report) : Report :=
  p.foldl (fun r c => r.append (c.contribution expected actual o r)) prior

/-- The report of all checks. -/
def run (p : Pipeline) (expected : Expectation) (actual : Reply) (o : CheckOptions) : Report :=
  p.runFrom expected actual o .empty

@[simp] theorem runFrom_nil (expected : Expectation) (actual : Reply) (o : CheckOptions) (r : Report) :
    runFrom [] expected actual o r = r := rfl

theorem runFrom_cons (c : Check) (p : Pipeline) (expected : Expectation) (actual : Reply)
    (o : CheckOptions) (r : Report) :
    runFrom (c :: p) expected actual o r =
      p.runFrom expected actual o (r.append (c.contribution expected actual o r)) := rfl

theorem runFrom_append (p q : Pipeline) (expected : Expectation) (actual : Reply) (o : CheckOptions)
    (r : Report) :
    runFrom (p ++ q) expected actual o r = q.runFrom expected actual o (p.runFrom expected actual o r) := by
  simp [runFrom]

/-- The identifiers of the checks. -/
def ids (p : Pipeline) : List String := p.map Check.id

end Pipeline

end Covenant
