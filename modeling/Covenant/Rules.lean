import Covenant.Pipeline

/-!
# The standard checks

* `statusCheck`: the status codes are equal;
* `bodyTypeCheck`: the body has the kind that is expected;
* `bodyStructureCheck`: the body compares without violations; attempted only if nothing was found before,
  because with another status or kind the differences in detail say nothing;
* `headerCheck`: each declared header is received with a matching value;
* `standardChecks`: the four in this order, and `validate`, their report.
-/

namespace Covenant

open Covenant.Text

/-- Status codes are equal. -/
def statusCheck : Check where
  id := "status-code"
  applies _ _ _ := true
  evaluate expected actual _ _ :=
    .violations (if expected.status = actual.status then []
      else [⟨"statusCode", .ofUInt16 expected.status, .present (.ofUInt16 actual.status)⟩])

/-- The kind that an expected value demands: a wildcard the one it accepts, any other value its own. -/
def demandedKind (v : Json) : Json.Kind :=
  match Wildcard.ofJson? v with
  | some w => w.kind
  | none => v.kind

/-- The body has the kind that is expected. -/
def bodyTypeCheck : Check where
  id := "body-type"
  applies expected _ _ := expected.body.isSome
  evaluate expected actual _ _ :=
    match expected.body with
    | none => .violations []
    | some body =>
      .violations (if demandedKind body = actual.body.kind then []
        else [⟨"type of 'body'", .string (demandedKind body).name,
          .present (.string actual.body.kind.name)⟩])

/-- The body compares without violations. -/
def bodyStructureCheck : Check where
  id := "body-structure"
  applies expected _ prior := expected.body.isSome && !prior.hasViolations
  evaluate expected actual o _ :=
    match expected.body with
    | none => .violations []
    | some body =>
      match Diff.compare ⟨Diff.bodyLabel, o.maxDepth⟩ body actual.body with
      | .ok vs => .violations vs
      | .error e => .failed e

/-! ## Headers -/

/-- Whether a received header text meets a declared value. Headers are text, so a wildcard looks at what
the text reads as. -/
def headerMatches (expected : Json) (received : String) : Bool :=
  match Wildcard.ofJson? expected with
  | some .anyString => true
  | some .anyNumber => (Decimal.readFloat? (trim received)).isSome
  | some .anyBool => trim received == "true" || trim received == "false"
  | none =>
    match expected with
    | .string s => (escaped? s).getD s == received
    | v => v.render == received

/-- The first received header of a name. -/
def receivedHeader? (actual : Reply) (ignoreCase : Bool) (name : String) : Option String :=
  if ignoreCase then actual.headerIgnoringCase? name else actual.header? name

/-- The violation of a declared header, if there is one. -/
def headerViolation? (actual : Reply) (ignoreCase : Bool) (entry : NamedValue) : Option Violation :=
  let key := "header '" ++ entry.name ++ "'"
  match receivedHeader? actual ignoreCase entry.name with
  | none => some ⟨key, entry.value, .missing⟩
  | some received =>
    if headerMatches entry.value received then none
    else some ⟨key, entry.value, .present (.string received)⟩

/-- Each declared header is received with a matching value. -/
def headerCheck : Check where
  id := "headers"
  applies expected _ _ := expected.headers.isSome
  evaluate expected actual o _ :=
    .violations ((expected.headers.getD []).filterMap (headerViolation? actual o.ignoreHeaderCase))

/-! ## The standard pipeline -/

/-- The standard checks in their order. -/
def standardChecks : Pipeline :=
  [statusCheck, bodyTypeCheck, bodyStructureCheck, headerCheck]

/-- The report of the standard checks. -/
def validate (expected : Expectation) (actual : Reply) (o : CheckOptions) : Report :=
  standardChecks.run expected actual o

end Covenant
