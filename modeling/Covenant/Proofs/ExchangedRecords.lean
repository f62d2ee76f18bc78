import Covenant.Interchange

/-!
# Reading what was written for other tools

A value that is written as a record and read again is the same value, with one exception: a request or an
expectation does not tell a body of null from none.

* `Json.lookup_append`, `Json.lookup_optionalField`: the fields of a record with optional ones;
* `Json.defaulted_nullable`, `Json.defaulted_body`: an optional field read back, and a body read back;
* `Request.exchanged`, `Expectation.exchanged`, `Contract.exchanged`: what comes back;
* `Request.ofJson?_toJson` and its kin: reading undoes writing, one lemma for each type;
* `records_exchanged`: all of it, with the values that come back as they were.
-/

namespace Covenant

namespace Json

/-! ## Fields -/

theorem lookup_append (fields more : List (String × Json)) (key : String) :
    lookup (fields ++ more) key = (lookup fields key).or (lookup more key) := by
  rw [lookup, List.find?_append, lookup, lookup]
  cases fields.find? (fun f => f.1 == key) <;> rfl

theorem lookup_optionalField (key : String) (value : Option Json) : lookup (optionalField key value) key = value := by
  cases value with
  | none => rfl
  | some v => exact lookup_cons_self key v []

theorem lookup_optionalField_of_ne {k key : String} (h : k ≠ key) (value : Option Json) :
    lookup (optionalField k value) key = none := by
  cases value with
  | none => rfl
  | some v => exact lookup_cons_of_ne h v []

section

variable {α : Type} {fields : List (String × Json)} {key : String} {read : Json → Option α}

theorem nullable_of_ne_null {v : Json} (h : v ≠ .null) : nullable read v = (read v).map some := by
  cases v with
  | null => exact absurd rfl h
  | _ => rfl

theorem required_eq_some {v : Json} {a : α} (hfield : lookup fields key = some v) (hread : read v = some a) :
    required fields key read = some a := by
  rw [required, hfield]
  exact hread

theorem defaulted_eq_some {v : Json} {a : α} (value : α) (hfield : lookup fields key = some v)
    (hread : read v = some a) : defaulted fields key value read = some a := by
  rw [defaulted, hfield]
  exact hread

/-- An optional field whose written values are not null is read back as it was. -/
theorem defaulted_nullable {write : α → Json} {o : Option α} (hfield : lookup fields key = o.map write)
    (hread : ∀ a, read (write a) = some a) (hne : ∀ a, write a ≠ .null) :
    defaulted fields key none (nullable read) = some o := by
  rw [defaulted, hfield]
  cases o with
  | none => rfl
  | some a =>
    show nullable read (write a) = some (some a)
    rw [nullable_of_ne_null (hne a), hread a]
    rfl

/-- A body of null is read back as none. -/
theorem defaulted_body {body : Option Json} (hfield : lookup fields key = body) :
    defaulted fields key none (nullable some) = some (body.filter (· ≠ .null)) := by
  rw [defaulted, hfield]
  cases body with
  | none => rfl
  | some v =>
    by_cases hnull : v = .null
    · subst hnull
      rfl
    · rw [Option.filter_some, if_pos (by simpa using hnull)]
      exact nullable_of_ne_null hnull

theorem toText?_string (s : String) : (Json.string s).toText? = some s := rfl

theorem listOf_array {write : α → Json} (hread : ∀ a, read (write a) = some a) (l : List α) :
    listOf read (.array (l.map write)) = some l :=
  mapM_map_eq l fun a _ => hread a

end

end Json

open Json

/-! ## Words and lists of names with values -/

theorem Method.ofJson?_name (m : Method) : Method.ofJson? (.string m.name) = some m := Method.ofName?_name m

theorem Verdict.ofJson?_name (v : Verdict) : Verdict.ofJson? (.string v.name) = some v := Verdict.ofName?_name v

theorem NamedValue.ofJson?_toJson (v : NamedValue) : NamedValue.ofJson? v.toJson = some v := rfl

theorem listOf_namedRecords (entries : List NamedValue) :
    listOf NamedValue.ofJson? (namedRecords entries) = some entries :=
  listOf_array NamedValue.ofJson?_toJson entries

/-! ## Contracts -/

/-- A request as it comes back: a body of null is none. -/
def Request.exchanged (r : Request) : Request := { r with body := r.body.filter (· ≠ .null) }

/-- An expectation as it comes back: a body of null is none. -/
def Expectation.exchanged (e : Expectation) : Expectation := { e with body := e.body.filter (· ≠ .null) }

/-- A contract as it comes back. -/
def Contract.exchanged (c : Contract) : Contract :=
  { c with request := c.request.exchanged, expected := c.expected.exchanged }

theorem Request.ofJson?_toJson (r : Request) : Request.ofJson? r.toJson = some r.exchanged := by
  obtain ⟨path, method, headers, params, body⟩ := r
  rw [toJson, ofJson?]
  generalize hfields : [("path", Json.string path), ("method", Json.string method.name)] ++
    optionalField "headers" (headers.map namedRecords) ++ optionalField "params" (params.map namedRecords) ++
    optionalField "body" body = fields
  obtain ⟨hpath, hmethod, hheaders, hparams, hbody⟩ :
      lookup fields "path" = some (.string path) ∧ lookup fields "method" = some (.string method.name) ∧
      lookup fields "headers" = headers.map namedRecords ∧ lookup fields "params" = params.map namedRecords ∧
      lookup fields "body" = body := by
    simp [← hfields, lookup_append, lookup_optionalField, lookup_optionalField_of_ne, lookup_cons_self,
      lookup_cons_of_ne]
  rw [record?, Option.bind_eq_bind, Option.bind_some]
  dsimp only
  rw [required_eq_some hpath (toText?_string path), defaulted_eq_some _ hmethod (Method.ofJson?_name method),
    defaulted_nullable hheaders listOf_namedRecords nofun,
    defaulted_nullable hparams listOf_namedRecords nofun, defaulted_body hbody]
  rfl

theorem Expectation.ofJson?_toJson (e : Expectation) : Expectation.ofJson? e.toJson = some e.exchanged := by
  obtain ⟨status, headers, body⟩ := e
  rw [toJson, ofJson?]
  generalize hfields : [("status_code", Json.ofUInt16 status)] ++
    optionalField "headers" (headers.map namedRecords) ++ optionalField "body" body = fields
  obtain ⟨hstatus, hheaders, hbody⟩ :
      lookup fields "status_code" = some (.ofUInt16 status) ∧ lookup fields "headers" = headers.map namedRecords ∧
      lookup fields "body" = body := by
    simp [← hfields, lookup_append, lookup_optionalField, lookup_optionalField_of_ne, lookup_cons_self,
      lookup_cons_of_ne]
  rw [record?, Option.bind_eq_bind, Option.bind_some, required_eq_some hstatus (toUInt16?_ofUInt16 status),
    defaulted_nullable hheaders listOf_namedRecords nofun, defaulted_body hbody]
  rfl

theorem Contract.ofJson?_toJson (c : Contract) : Contract.ofJson? c.toJson = some c.exchanged := by
  have hrequest : required [("name", .string c.name), ("request", c.request.toJson),
      ("response", c.expected.toJson)] "request" Request.ofJson? = some c.request.exchanged :=
    required_eq_some rfl c.request.ofJson?_toJson
  have hexpected : required [("name", .string c.name), ("request", c.request.toJson),
      ("response", c.expected.toJson)] "response" Expectation.ofJson? = some c.expected.exchanged :=
    required_eq_some rfl c.expected.ofJson?_toJson
  rw [toJson, ofJson?, record?, Option.bind_eq_bind, Option.bind_some, hrequest, hexpected]
  rfl

/-! ### Where nothing is lost -/

theorem filter_ne_null_eq_self_iff {body : Option Json} :
    body.filter (· ≠ .null) = body ↔ body ≠ some .null := by
  cases body with
  | none => exact ⟨nofun, fun _ => rfl⟩
  | some v => simp [Option.filter_some]

theorem Request.exchanged_eq_self_iff {r : Request} : r.exchanged = r ↔ r.body ≠ some .null := by
  rw [← filter_ne_null_eq_self_iff]
  constructor
  · intro h
    exact congrArg Request.body h
  · intro h
    rw [exchanged, h]

theorem Expectation.exchanged_eq_self_iff {e : Expectation} : e.exchanged = e ↔ e.body ≠ some .null := by
  rw [← filter_ne_null_eq_self_iff]
  constructor
  · intro h
    exact congrArg Expectation.body h
  · intro h
    rw [exchanged, h]

theorem Contract.exchanged_eq_self_iff {c : Contract} :
    c.exchanged = c ↔ c.request.body ≠ some .null ∧ c.expected.body ≠ some .null := by
  rw [← Request.exchanged_eq_self_iff, ← Expectation.exchanged_eq_self_iff]
  constructor
  · intro h
    exact ⟨congrArg Contract.request h, congrArg Contract.expected h⟩
  · rintro ⟨hrequest, hexpected⟩
    rw [exchanged, hrequest, hexpected]

/-! ## Replies -/

theorem headerOfPair?_headerPair (h : String × String) : headerOfPair? (headerPair h) = some h := rfl

theorem Reply.ofJson?_toJson (r : Reply) : Reply.ofJson? r.toJson = some r := by
  obtain ⟨status, headers, body⟩ := r
  rw [toJson, ofJson?]
  generalize hfields : [("status_code", Json.ofUInt16 status), ("headers", .array (headers.map headerPair)),
    ("body", body)] = fields
  obtain ⟨hstatus, hheaders, hbody⟩ :
      lookup fields "status_code" = some (.ofUInt16 status) ∧
      lookup fields "headers" = some (.array (headers.map headerPair)) ∧ lookup fields "body" = some body := by
    simp [← hfields, lookup_cons_self, lookup_cons_of_ne]
  rw [record?, Option.bind_eq_bind, Option.bind_some, required_eq_some hstatus (toUInt16?_ofUInt16 status),
    defaulted_eq_some _ hheaders (listOf_array headerOfPair?_headerPair headers), defaulted_eq_some _ hbody rfl]
  rfl

/-! ## Violations -/

theorem Observed.ofJson?_toJson (o : Observed) : Observed.ofJson? o.toJson = some o := by
  cases o <;> rfl

theorem Violation.ofJson?_toJson (v : Violation) : Violation.ofJson? v.toJson = some v := by
  obtain ⟨key, expected, actual⟩ := v
  rw [toJson, ofJson?]
  have hactual : required [("key", .string key), ("expected", expected), ("actual", actual.toJson)] "actual"
      Observed.ofJson? = some actual := required_eq_some rfl actual.ofJson?_toJson
  rw [record?, Option.bind_eq_bind, Option.bind_some, hactual]
  rfl

theorem Report.ofJson?_toJson (r : Report) : Report.ofJson? r.toJson = some r := by
  have hviolations : required [("violations", .array (r.violations.map Violation.toJson))] "violations"
      (listOf Violation.ofJson?) = some r.violations :=
    required_eq_some rfl (listOf_array Violation.ofJson?_toJson r.violations)
  rw [toJson, ofJson?, record?, Option.bind_eq_bind, Option.bind_some, hviolations]
  rfl

/-! ## Outcomes -/

theorem Outcome.ofJson?_toJson (o : Outcome) : Outcome.ofJson? o.toJson = some o := by
  obtain ⟨name, verdict, lines, durationMs⟩ := o
  rw [toJson, ofJson?]
  generalize hfields : [("test_name", Json.string name), ("result", .string verdict.name),
    ("report", .array (lines.map Json.string)), ("duration_ms", .ofUInt64 durationMs)] = fields
  obtain ⟨hname, hverdict, hlines, hduration⟩ :
      lookup fields "test_name" = some (.string name) ∧ lookup fields "result" = some (.string verdict.name) ∧
      lookup fields "report" = some (.array (lines.map Json.string)) ∧
      lookup fields "duration_ms" = some (.ofUInt64 durationMs) := by
    simp [← hfields, lookup_cons_self, lookup_cons_of_ne]
  rw [record?, Option.bind_eq_bind, Option.bind_some, required_eq_some hname (toText?_string name),
    required_eq_some hverdict (Verdict.ofJson?_name verdict),
    required_eq_some hlines (listOf_array toText?_string lines),
    required_eq_some hduration (toUInt64?_ofUInt64 durationMs)]
  rfl

theorem Summary.ofJson?_toJson (s : Summary) : Summary.ofJson? s.toJson = some s := by
  obtain ⟨outcomes, passed, failed, durationMs⟩ := s
  rw [toJson, ofJson?]
  generalize hfields : [("outcomes", Json.array (outcomes.map Outcome.toJson)), ("passed", .ofUInt64 passed),
    ("failed", .ofUInt64 failed), ("duration_ms", .ofUInt64 durationMs)] = fields
  obtain ⟨houtcomes, hpassed, hfailed, hduration⟩ :
      lookup fields "outcomes" = some (.array (outcomes.map Outcome.toJson)) ∧
      lookup fields "passed" = some (.ofUInt64 passed) ∧ lookup fields "failed" = some (.ofUInt64 failed) ∧
      lookup fields "duration_ms" = some (.ofUInt64 durationMs) := by
    simp [← hfields, lookup_cons_self, lookup_cons_of_ne]
  rw [record?, Option.bind_eq_bind, Option.bind_some,
    required_eq_some houtcomes (listOf_array Outcome.ofJson?_toJson outcomes),
    required_eq_some hpassed (toUInt64?_ofUInt64 passed), required_eq_some hfailed (toUInt64?_ofUInt64 failed),
    required_eq_some hduration (toUInt64?_ofUInt64 durationMs)]
  rfl

/-! ## All records -/

/-- Reading undoes writing, except that a request or an expectation with a body of null comes back without a body.
In particular headers and parameters come back as none, as an empty list or as the same entries, and an observation
of null is not taken for a missing one. -/
theorem records_exchanged :
    (∀ c : Contract, Contract.ofJson? c.toJson = some c.exchanged ∧
      (Contract.ofJson? c.toJson = some c ↔ c.request.body ≠ some .null ∧ c.expected.body ≠ some .null)) ∧
    (∀ r : Request, Request.ofJson? r.toJson = some r.exchanged ∧
      (Request.ofJson? r.toJson = some r ↔ r.body ≠ some .null) ∧
      (Request.ofJson? r.toJson).map Request.headers = some r.headers ∧
      (Request.ofJson? r.toJson).map Request.params = some r.params) ∧
    (∀ e : Expectation, Expectation.ofJson? e.toJson = some e.exchanged ∧
      (Expectation.ofJson? e.toJson = some e ↔ e.body ≠ some .null) ∧
      (Expectation.ofJson? e.toJson).map Expectation.headers = some e.headers) ∧
    (∀ r : Reply, Reply.ofJson? r.toJson = some r) ∧
    (∀ o : Observed, Observed.ofJson? o.toJson = some o) ∧
    (∀ v : Violation, Violation.ofJson? v.toJson = some v) ∧
    (∀ r : Report, Report.ofJson? r.toJson = some r) ∧
    (∀ o : Outcome, Outcome.ofJson? o.toJson = some o) ∧
    ∀ s : Summary, Summary.ofJson? s.toJson = some s := by
  refine ⟨fun c => ?contract, fun r => ?request, fun e => ?expectation, Reply.ofJson?_toJson,
    Observed.ofJson?_toJson, Violation.ofJson?_toJson, Report.ofJson?_toJson, Outcome.ofJson?_toJson,
    Summary.ofJson?_toJson⟩
  case contract =>
    rw [c.ofJson?_toJson]
    exact ⟨rfl, Option.some_inj.trans Contract.exchanged_eq_self_iff⟩
  case request =>
    rw [r.ofJson?_toJson]
    exact ⟨rfl, Option.some_inj.trans Request.exchanged_eq_self_iff, rfl, rfl⟩
  case expectation =>
    rw [e.ofJson?_toJson]
    exact ⟨rfl, Option.some_inj.trans Expectation.exchanged_eq_self_iff, rfl⟩

end Covenant
