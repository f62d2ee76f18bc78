import Covenant.CommandLine

/-!
# Help

* `Level.usage`: how the options of a level are written;
* `UsageError.message`: what the user is told about an error.
-/

namespace Covenant

namespace Naming

/-- The words for the value of an option. -/
def valueWord : Setting → String
  | .logFormat => "text|json"
  | .contracts | .directory => "DIRECTORY"
  | .baseUrl => "URL"
  | .timeoutMs => "MILLISECONDS"
  | .concurrency => "NUMBER"
  | .format => "table|text|json|yaml|junit"
  | .output | .document => "FILE"

/-- How an option is written. -/
def usage (n : Naming) : String :=
  let short := match n.short with
    | some c => String.ofList ['-', c, ',', ' ']
    | none => "    "
  let value := match n.flag with
    | .switch _ => ""
    | .setting s => " <" ++ valueWord s ++ ">"
  "  " ++ short ++ "--" ++ n.long ++ value ++ "\n"

end Naming

namespace Level

/-- What stands before the options of a level. -/
def heading : Level → String
  | .top => "covenant [OPTIONS] <run|check|generate|help>"
  | .run => "covenant run --contracts <DIRECTORY> --base-url <URL> [OPTIONS]"
  | .check => "covenant check --contracts <DIRECTORY> [OPTIONS]"
  | .generate => "covenant generate --spec <FILE> --out <DIRECTORY> [OPTIONS]"

/-- How the options of a level are written. -/
def usage (l : Level) : String := l.heading ++ "\n" ++ String.join (l.namings.map Naming.usage)

/-- How all commands are written. -/
def usages : String := "\n".intercalate ([Level.top, .run, .check, .generate].map usage)

end Level

namespace UsageError

/-- The long name of an option. -/
def longName (f : Flag) : String :=
  let namings := [Level.top, .run, .check, .generate].flatMap Level.namings
  "--" ++ ((namings.find? fun n => n.flag == f).map Naming.long).getD ""

/-- What the user is told about an error. -/
def message : UsageError → String
  | .helpWanted | .nothingSaid => Level.usages
  | .versionWanted => "covenant 0.1.0\n"
  | .missingCommand => "a command is missing\n"
  | .unknownCommand name => "unknown command '" ++ name ++ "'\n"
  | .unknownArgument text => "unexpected argument '" ++ text ++ "'\n"
  | .missingArgument => "a required option is missing\n"
  | .missingValue s => longName (.setting s) ++ " needs a value\n"
  | .foreignValue s value => "invalid value '" ++ value ++ "' for " ++ longName (.setting s) ++ "\n"
  | .notNumber s value =>
    "invalid value '" ++ value ++ "' for " ++ longName (.setting s) ++ ": not a number of 64 bits\n"
  | .unwantedValue s => longName (.switch s) ++ " takes no value\n"
  | .repeated f => longName f ++ " is given twice\n"

end UsageError

end Covenant
