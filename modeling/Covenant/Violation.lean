import Covenant.Json.Writer

/-!
# Violations

* `Observed`: the value found at a place, or that there is none;
* `Violation`: one difference between expectation and reply, with its message;
* `Report`: the violations of one validation, in the order they were found.
-/

namespace Covenant

/-- What a reply holds at a place. -/
inductive Observed where
  | present (v : Json)
  | missing

/-- The text of an observation in messages. -/
def Observed.text : Observed → String
  | .present v => v.render
  | .missing => "<missing>"

def Observed.isMissing : Observed → Bool
  | .present _ => false
  | .missing => true

/-- One difference between what was expected and what was received. -/
structure Violation where
  /-- The place, or the thing compared. -/
  key : String
  expected : Json
  actual : Observed

/-- The message of a violation. -/
def Violation.text (v : Violation) : String :=
  "Expected " ++ v.key ++ " to be '" ++ v.expected.render ++ "' but it was '" ++ v.actual.text ++ "'"

/-- The violations of one validation. -/
structure Report where
  violations : List Violation

namespace Report

def empty : Report := ⟨[]⟩

/-- Adds violations at the end. -/
def append (r : Report) (vs : List Violation) : Report := ⟨r.violations ++ vs⟩

def count (r : Report) : Nat := r.violations.length

def hasViolations (r : Report) : Bool := !r.violations.isEmpty

/-- One message for each violation. -/
def texts (r : Report) : List String := r.violations.map Violation.text

@[simp] theorem violations_append (r : Report) (vs : List Violation) :
    (r.append vs).violations = r.violations ++ vs := rfl

end Report

end Covenant
