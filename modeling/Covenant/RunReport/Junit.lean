import Covenant.RunReport
import Covenant.Xml

/-!
# Reports in the format of JUnit

* `RunReport.secondsText`: a number of milliseconds in seconds, with three decimals;
* `RunReport.testSuites`: a suite with one test case an outcome; one that failed holds its lines;
* `RunReport.junit`: the document.
-/

namespace Covenant

namespace RunReport

open Xml

/-- The nearest double to a number of milliseconds, as seconds with three decimals, a tie going to the
even last digit. -/
def secondsText (ms : UInt64) : String :=
  let ratio := (((Binary64.ofInt ms.toNat).scaleBy? 1 1000).getD (.zero false)).ratio
  let thousandths := Binary64.roundQuotient (ratio.1 * 1000) ratio.2
  String.ofList (Decimal.digits (thousandths / 1000) ++ '.' :: Timestamp.padded 3 (thousandths % 1000))

/-- The test case of an outcome. -/
def testCase (o : Outcome) : Element :=
  let attributes : List Attribute :=
    [⟨"name", o.name⟩, ⟨"classname", "contracts"⟩, ⟨"time", secondsText o.durationMs⟩]
  match o.verdict with
  | .pass => .empty "testcase" attributes
  | .fail => .parent "testcase" attributes
      [.text "failure" [⟨"message", o.lines.head?.getD "failed"⟩] ("\n".intercalate o.lines)]

/-- All outcomes as one suite. -/
def testSuites (r : RunReport) : Element :=
  let counts : List Attribute :=
    [⟨"tests", wordText r.summary.total⟩, ⟨"failures", wordText r.summary.failed⟩]
  let time : Attribute := ⟨"time", secondsText r.summary.durationMs⟩
  .parent "testsuites" (⟨"name", "contract-verify"⟩ :: counts ++ [time])
    [.parent "testsuite" (⟨"name", "contracts"⟩ :: counts ++
        [⟨"errors", "0"⟩, time, ⟨"timestamp", r.generatedAt.secondsText⟩])
      (r.summary.outcomes.map testCase)]

/-- The document of a report. -/
def junit (r : RunReport) : String := document r.testSuites

end RunReport

end Covenant
