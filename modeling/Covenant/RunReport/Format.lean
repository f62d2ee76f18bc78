import Covenant.RunReport.Junit
import Covenant.RunReport.Terminal

/-!
# Formats of reports

* `Format`: the formats that a user can ask for, with their names;
* `RunReport.render`: the text of a report in a format.
-/

namespace Covenant

/-- A format of reports. -/
inductive Format where
  | table | text | json | yaml | junit
deriving DecidableEq, Repr

namespace Format

/-- All formats. -/
def all : List Format := [.table, .text, .json, .yaml, .junit]

/-- The name of a format. -/
def name : Format → String
  | .table => "table"
  | .text => "text"
  | .json => "json"
  | .yaml => "yaml"
  | .junit => "junit"

/-- The format of a name. -/
def ofName? (s : String) : Option Format := all.find? (fun f => f.name == s)

end Format

/-- The text of a report. Only tables have colours. -/
def RunReport.render (r : RunReport) (color : Bool) : Format → String
  | .table => r.table color
  | .text => r.plainText
  | .json => r.toJson.pretty
  | .yaml => Yaml.write r.toJson
  | .junit => r.junit

end Covenant
