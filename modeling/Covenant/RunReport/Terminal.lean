import Covenant.RunReport

/-!
# Reports for readers

* `paint`: a text in the colours of a terminal, if colours are on;
* `RunReport.table`: the outcomes below a heading, in colours;
* `RunReport.plainText`: one line an outcome.
-/

namespace Covenant

/-- How a text looks in a terminal. -/
inductive Ink where
  | green | red | boldGreen | boldRed | boldCyan | faint
deriving DecidableEq, Repr

/-- The parameters that select an ink. -/
def Ink.parameters : Ink → String
  | .green => "32"
  | .red => "31"
  | .boldGreen => "1;32"
  | .boldRed => "1;31"
  | .boldCyan => "1;36"
  | .faint => "2"

/-- A text in an ink, or as it is without colours. -/
def paint (color : Bool) (ink : Ink) (s : String) : String :=
  if color then "\x1b[" ++ ink.parameters ++ "m" ++ s ++ "\x1b[0m" else s

namespace RunReport

/-- A line of one character. -/
def ruler (c : Char) : String := String.ofList (List.replicate 60 c) ++ "\n"

/-- The lines of an outcome in the table. -/
def tableEntry (color : Bool) (o : Outcome) : String :=
  let ink := if o.isPass then Ink.boldGreen else .boldRed
  paint color ink o.verdict.name ++ " " ++ o.name ++ " " ++
    paint color .faint ("(" ++ wordText o.durationMs ++ " ms)") ++ "\n" ++
    String.join (o.lines.map fun l => "     " ++ paint color .red "x" ++ " " ++ l ++ "\n")

/-- The outcomes below a heading. -/
def table (color : Bool) (r : RunReport) : String :=
  let (mark, ink) := if r.summary.isSuccess then ("+", Ink.green) else ("x", .red)
  "\n" ++ paint color .boldCyan "Contract Verification Results" ++ "\n" ++ ruler '=' ++ "\n" ++
    String.join (r.summary.outcomes.map (tableEntry color)) ++ "\n" ++ ruler '-' ++
    paint color ink mark ++ " " ++ paint color ink r.summaryLine ++ "\n"

/-- The outcomes without heading or colours. -/
def plainText (r : RunReport) : String :=
  let entry (o : Outcome) : String :=
    o.verdict.name ++ " " ++ o.name ++ "\n" ++ String.join (o.lines.map fun l => "    " ++ l ++ "\n")
  String.join (r.summary.outcomes.map entry) ++ r.summaryLine ++ "\n"

end RunReport

end Covenant
