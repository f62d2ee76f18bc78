import Covenant.Proofs.ReportTexts
import Covenant.Proofs.XmlReading
import Covenant.RunReport.Format

/-!
# Test suites that are read back

A reader finds in a report the outcomes that it was made of, whatever their names and lines are.

* `Outcome.ReadAs`: what is read for an outcome;
* `RunReport.ReadAs`: what is read for a report;
* `suitesOutline`: the elements and attributes of a report, which only the verdicts decide;
* `junit_readAs`: every report is read so.
-/

namespace Covenant

open Xml

/-- The number that an attribute holds. -/
def Xml.Tree.number? (t : Tree) (key : String) : Option Nat :=
  (t.attributes.lookup key).bind fun s => Decimal.naturalOf? s.toList

/-! ## What is read of a report -/

/-- What is read inside of a test case: one element that explains the outcome, if the contract does not hold. -/
def Outcome.failures (o : Outcome) : List Tree :=
  match o.verdict with
  | .pass => []
  | .fail =>
    [⟨"failure", [("message", kept (o.lines.head?.getD "failed"))], kept ("\n".intercalate o.lines), []⟩]

/-- What is read for an outcome. -/
structure Outcome.ReadAs (o : Outcome) (t : Tree) : Prop where
  name : t.name = "testcase"
  attributes : t.attributes =
    [("name", kept o.name), ("classname", "contracts"), ("time", RunReport.secondsText o.durationMs)]
  children : t.children = o.failures

/-- The elements and attributes of a test case. -/
def caseOutline (v : Verdict) : Tree :=
  let failures : List Tree := match v with
    | .pass => []
    | .fail => [⟨"failure", unset ["message"], "", []⟩]
  ⟨"testcase", unset ["name", "classname", "time"], "", failures⟩

/-- The elements and attributes of a report. -/
def suitesOutline (vs : List Verdict) : Tree :=
  ⟨"testsuites", unset ["name", "tests", "failures", "time"], "",
    [⟨"testsuite", unset ["name", "tests", "failures", "errors", "time", "timestamp"], "", vs.map caseOutline⟩]⟩

/-- What is read for a report: a root, and one suite in it. -/
structure RunReport.ReadAs (r : RunReport) (doc suite : Tree) : Prop where
  rootName : doc.name = "testsuites"
  suites : doc.children = [suite]
  suiteName : suite.name = "testsuite"
  total : ∀ t ∈ [doc, suite], t.number? "tests" = some r.summary.total.toNat
  failed : ∀ t ∈ [doc, suite], t.number? "failures" = some r.summary.failed.toNat
  cases : List.Forall₂ Outcome.ReadAs r.summary.outcomes suite.children
  /-- No name or line adds or takes away an element or an attribute. -/
  outline : doc.outline = suitesOutline (r.summary.outcomes.map Outcome.verdict)

/-! ## Test cases -/

theorem kept_of_printable {s : String} (h : Printable s) : kept s = s := by
  apply kept_eq_self
  intro c hc
  have hlow := (h c hc).1
  simp [isDropped]
  omega

theorem wellNamed_testCase (o : Outcome) : WellNamed (RunReport.testCase o) := by
  rw [RunReport.testCase]
  split
  · apply WellNamed.empty
    show WellTagged "testcase" ["name", "classname", "time"]
    decide
  · apply WellNamed.parent
    · show WellTagged "testcase" ["name", "classname", "time"]
      decide
    · intro e he
      rw [List.mem_singleton.1 he]
      apply WellNamed.text
      show WellTagged "failure" ["message"]
      decide

theorem readAs_testCase (o : Outcome) (level : Nat) : o.ReadAs ((RunReport.testCase o).tree level) := by
  have htime := kept_of_printable (printable_secondsText o.durationMs)
  have hclass : kept "contracts" = "contracts" := kept_of_printable (by decide)
  cases hv : o.verdict with
  | pass =>
    constructor <;> simp [RunReport.testCase, hv, Element.tree, Attribute.read, htime, hclass, Outcome.failures]
  | fail =>
    constructor <;> simp [RunReport.testCase, hv, Element.tree, childrenTrees, Attribute.read, htime, hclass,
      Outcome.failures]

/-- The elements and attributes of what is read for an outcome. -/
theorem Outcome.ReadAs.outline {o : Outcome} {t : Tree} (h : o.ReadAs t) : t.outline = caseOutline o.verdict := by
  obtain ⟨name, attributes, text, children⟩ := t
  obtain ⟨rfl, rfl, rfl⟩ := h
  cases hv : o.verdict <;> simp [Tree.outline, outlines, unset, caseOutline, Outcome.failures, hv]

/-! ## Reports -/

namespace RunReport

variable (r : RunReport)

theorem wellNamed_testSuites : WellNamed r.testSuites := by
  apply WellNamed.parent
  · show WellTagged "testsuites" ["name", "tests", "failures", "time"]
    decide
  · intro e he
    rw [List.mem_singleton.1 he]
    apply WellNamed.parent
    · show WellTagged "testsuite" ["name", "tests", "failures", "errors", "time", "timestamp"]
      decide
    · intro e he
      obtain ⟨o, -, rfl⟩ := List.mem_map.1 he
      exact wellNamed_testCase o

/-- What is read for the suite. -/
def suiteTree : Tree :=
  ⟨"testsuite",
    [("name", "contracts"), ("tests", wordText r.summary.total), ("failures", wordText r.summary.failed),
      ("errors", "0"), ("time", secondsText r.summary.durationMs), ("timestamp", r.generatedAt.secondsText)],
    String.ofList ('\n' :: gaps 2 r.summary.outcomes.length ++ margin 1),
    r.summary.outcomes.map fun o => (testCase o).tree 2⟩

/-- What is read for the whole report. -/
def suitesTree : Tree :=
  ⟨"testsuites",
    [("name", "contract-verify"), ("tests", wordText r.summary.total), ("failures", wordText r.summary.failed),
      ("time", secondsText r.summary.durationMs)],
    String.ofList ('\n' :: gaps 1 1 ++ margin 0), [r.suiteTree]⟩

theorem tree_testSuites : r.testSuites.tree 0 = r.suitesTree := by
  have htotal := kept_of_printable (printable_wordText r.summary.total)
  have hfailed := kept_of_printable (printable_wordText r.summary.failed)
  have htime := kept_of_printable (printable_secondsText r.summary.durationMs)
  have hstamp := kept_of_printable (printable_timestamp r.generatedAt)
  obtain ⟨hsuites, hsuite, hzero⟩ : kept "contract-verify" = "contract-verify" ∧ kept "contracts" = "contracts" ∧
      kept "0" = "0" := by decide +kernel
  simp [testSuites, suitesTree, suiteTree, Element.tree, childrenTrees, childrenTrees_eq_map, Attribute.read,
    htotal, hfailed, htime, hstamp, hsuites, hsuite, hzero]

theorem forall₂_testCases :
    List.Forall₂ Outcome.ReadAs r.summary.outcomes r.suiteTree.children := by
  rw [suiteTree, List.forall₂_map_right_iff, List.forall₂_same]
  intro o ho
  exact readAs_testCase o 2

theorem outline_suitesTree : r.suitesTree.outline = suitesOutline (r.summary.outcomes.map Outcome.verdict) := by
  have hcases : (r.summary.outcomes.map fun o => (testCase o).tree 2).map Tree.outline =
      (r.summary.outcomes.map Outcome.verdict).map caseOutline := by
    rw [List.map_map, List.map_map]
    exact List.map_congr_left fun o _ => (readAs_testCase o 2).outline
  simp [suitesTree, suiteTree, Tree.outline, outlines, outlines_eq_map, suitesOutline, unset, hcases]

/-- Whatever the names and lines of its outcomes are, a report is read as a suite of one test case for each outcome,
in their order. The test case has the name of the outcome, and an element that explains it exactly if the contract
does not hold; characters that no document may hold are missing. The elements and attributes are those of the
verdicts. -/
theorem junit_readAs (color : Bool) :
    ∃ doc suite, Xml.read? (r.render color .junit) = some doc ∧ r.ReadAs doc suite := by
  have hread : Xml.read? (r.render color .junit) = some r.suitesTree := by
    rw [← r.tree_testSuites]
    exact read?_document r.wellNamed_testSuites
  refine ⟨r.suitesTree, r.suiteTree, hread, rfl, rfl, rfl, ?_, ?_, r.forall₂_testCases, r.outline_suitesTree⟩
  · intro t ht
    have hnumber : t.number? "tests" = Decimal.naturalOf? (wordText r.summary.total).toList := by
      simp only [List.mem_cons, List.not_mem_nil, or_false] at ht
      rcases ht with rfl | rfl <;> rfl
    rw [hnumber, naturalOf?_wordText]
  · intro t ht
    have hnumber : t.number? "failures" = Decimal.naturalOf? (wordText r.summary.failed).toList := by
      simp only [List.mem_cons, List.not_mem_nil, or_false] at ht
      rcases ht with rfl | rfl <;> rfl
    rw [hnumber, naturalOf?_wordText]

end RunReport

end Covenant
