import Covenant.Interchange
import Covenant.Timestamp
import Covenant.Yaml.Writer

/-!
# Reports of a run

* `RunReport`: the summary of a run and the time at which it was made;
* `RunReport.toJson`: the report as a tree, which the formats JSON and YAML write;
* `RunReport.summaryLine`: the counts in one line.
-/

namespace Covenant

/-- What is reported of a run. -/
structure RunReport where
  summary : Summary
  generatedAt : Timestamp

namespace RunReport

/-- A word of 64 bits in digits. -/
def wordText (n : UInt64) : String := Decimal.ofNat n.toNat

/-- The report as a tree. -/
def toJson (r : RunReport) : Json :=
  .object [("success", .bool r.summary.isSuccess), ("total", .ofUInt64 r.summary.total),
    ("passed", .ofUInt64 r.summary.passed), ("failed", .ofUInt64 r.summary.failed),
    ("duration_ms", .ofUInt64 r.summary.durationMs), ("generated_at", .string r.generatedAt.text),
    ("outcomes", .array (r.summary.outcomes.map Outcome.toJson))]

/-- The counts in one line. -/
def summaryLine (r : RunReport) : String :=
  let s := r.summary
  wordText s.total ++ " contract(s): " ++ wordText s.passed ++ " passed, " ++ wordText s.failed ++
    " failed (" ++ wordText s.durationMs ++ " ms)"

end RunReport

end Covenant
