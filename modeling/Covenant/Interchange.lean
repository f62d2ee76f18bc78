import Covenant.Contract
import Covenant.Json.Record
import Covenant.Outcome
import Covenant.Reply
import Covenant.Violation

/-!
# Contracts and results as JSON

How contracts, replies, violations and outcomes are exchanged with other tools: each type has a written
form, `toJson`, and a reader `ofJson?` that takes records in any field order, ignores fields it does not
know and fills in defaults.

A body that is null cannot be told from one that is absent; an observation of null can.
-/

namespace Covenant

open Json

/-! ## Words -/

def Method.ofJson? (v : Json) : Option Method := (choice? v).bind Method.ofName?

def Verdict.ofJson? (v : Json) : Option Verdict := (choice? v).bind Verdict.ofName?

/-! ## Contracts -/

def NamedValue.toJson (v : NamedValue) : Json :=
  .object [("name", .string v.name), ("value", v.value)]

def NamedValue.ofJson? (v : Json) : Option NamedValue := do
  let fields ← record? ["name", "value"] v
  return ⟨← required fields "name" toText?, ← required fields "value" some⟩

/-- Names and values as a list of records. -/
def namedRecords (entries : List NamedValue) : Json := .array (entries.map NamedValue.toJson)

def Request.toJson (r : Request) : Json :=
  .object ([("path", .string r.path), ("method", .string r.method.name)] ++
    optionalField "headers" (r.headers.map namedRecords) ++
    optionalField "params" (r.params.map namedRecords) ++
    optionalField "body" r.body)

def Request.ofJson? (v : Json) : Option Request := do
  let fields ← record? ["path", "method", "headers", "params", "body"] v
  let entries := nullable (listOf NamedValue.ofJson?)
  return {
    path := ← required fields "path" toText?
    method := ← defaulted fields "method" .get Method.ofJson?
    headers := ← defaulted fields "headers" none entries
    params := ← defaulted fields "params" none entries
    body := ← defaulted fields "body" none (nullable some) }

def Expectation.toJson (e : Expectation) : Json :=
  .object ([("status_code", .ofUInt16 e.status)] ++
    optionalField "headers" (e.headers.map namedRecords) ++
    optionalField "body" e.body)

def Expectation.ofJson? (v : Json) : Option Expectation := do
  let fields ← record? ["status_code", "headers", "body"] v
  return {
    status := ← required fields "status_code" toUInt16?
    headers := ← defaulted fields "headers" none (nullable (listOf NamedValue.ofJson?))
    body := ← defaulted fields "body" none (nullable some) }

def Contract.toJson (c : Contract) : Json :=
  .object [("name", .string c.name), ("request", c.request.toJson), ("response", c.expected.toJson)]

def Contract.ofJson? (v : Json) : Option Contract := do
  let fields ← record? ["name", "request", "response"] v
  return {
    name := ← required fields "name" toText?
    request := ← required fields "request" Request.ofJson?
    expected := ← required fields "response" Expectation.ofJson? }

/-! ## Replies -/

/-- A header as a pair of strings. -/
def headerPair (h : String × String) : Json := .array [.string h.1, .string h.2]

/-- The header of a pair of strings. -/
def headerOfPair? : Json → Option (String × String)
  | .array [.string name, .string value] => some (name, value)
  | _ => none

def Reply.toJson (r : Reply) : Json :=
  .object [("status_code", .ofUInt16 r.status), ("headers", .array (r.headers.map headerPair)),
    ("body", r.body)]

def Reply.ofJson? (v : Json) : Option Reply := do
  let fields ← record? ["status_code", "headers", "body"] v
  return {
    status := ← required fields "status_code" toUInt16?
    headers := ← defaulted fields "headers" [] (listOf headerOfPair?)
    body := ← defaulted fields "body" .null some }

/-! ## Violations -/

def Observed.toJson : Observed → Json
  | .present v => .object [("state", .string "present"), ("value", v)]
  | .missing => .object [("state", .string "missing")]

/-- The observation of a state with the value that comes with it. -/
def Observed.ofState? : String → Option Json → Option Observed
  | "present", some v => some (.present v)
  | "missing", none => some .missing
  | "missing", some .null => some .missing
  | _, _ => none

def Observed.ofJson? : Json → Option Observed
  | .object fields =>
    (required fields "state" choice?).bind fun state => ofState? state (lookup fields "value")
  | .array [state, value] => (choice? state).bind fun state => ofState? state (some value)
  | _ => none

def Violation.toJson (v : Violation) : Json :=
  .object [("key", .string v.key), ("expected", v.expected), ("actual", v.actual.toJson)]

def Violation.ofJson? (v : Json) : Option Violation := do
  let fields ← record? ["key", "expected", "actual"] v
  return {
    key := ← required fields "key" toText?
    expected := ← required fields "expected" some
    actual := ← required fields "actual" Observed.ofJson? }

def Report.toJson (r : Report) : Json :=
  .object [("violations", .array (r.violations.map Violation.toJson))]

def Report.ofJson? (v : Json) : Option Report := do
  let fields ← record? ["violations"] v
  return ⟨← required fields "violations" (listOf Violation.ofJson?)⟩

/-! ## Outcomes -/

def Outcome.toJson (o : Outcome) : Json :=
  .object [("test_name", .string o.name), ("result", .string o.verdict.name),
    ("report", .array (o.lines.map Json.string)), ("duration_ms", .ofUInt64 o.durationMs)]

def Outcome.ofJson? (v : Json) : Option Outcome := do
  let fields ← record? ["test_name", "result", "report", "duration_ms"] v
  return {
    name := ← required fields "test_name" toText?
    verdict := ← required fields "result" Verdict.ofJson?
    lines := ← required fields "report" (listOf toText?)
    durationMs := ← required fields "duration_ms" toUInt64? }

def Summary.toJson (s : Summary) : Json :=
  .object [("outcomes", .array (s.outcomes.map Outcome.toJson)), ("passed", .ofUInt64 s.passed),
    ("failed", .ofUInt64 s.failed), ("duration_ms", .ofUInt64 s.durationMs)]

def Summary.ofJson? (v : Json) : Option Summary := do
  let fields ← record? ["outcomes", "passed", "failed", "duration_ms"] v
  return {
    outcomes := ← required fields "outcomes" (listOf Outcome.ofJson?)
    passed := ← required fields "passed" toUInt64?
    failed := ← required fields "failed" toUInt64?
    durationMs := ← required fields "duration_ms" toUInt64? }

end Covenant
