import Covenant.RunReport.Format
import Covenant.Settings

/-!
# Command lines

What a user can ask the program to do.

* `Command`: what to do, with all that has to be said for it;
* `Invocation`: a command, with how much is to be said on the way;
* `Switch`, `Setting`: the options without and with a value;
* `Level`: the places of a command line where options stand, each with its own options;
* `UsageError`: why a command line asks for nothing that can be done.
-/

namespace Covenant

/-! ## What is asked for -/

/-- How lines of the log are written. -/
inductive LogFormat where
  | text | json
deriving DecidableEq, Repr

/-- The name of a format. -/
def LogFormat.name : LogFormat → String
  | .text => "text"
  | .json => "json"

/-- The format of a name. -/
def LogFormat.ofName? (s : String) : Option LogFormat :=
  [LogFormat.text, .json].find? fun f => f.name == s

/-- Contracts to be run against a service. -/
structure RunArguments where
  contracts : String
  baseUrl : String
  timeoutMs : Option UInt64
  concurrency : Option UInt64
  format : Format
  output : Option String
  ignoreHeaderCase : Bool
deriving DecidableEq, Repr

/-- Contracts to be read. -/
structure CheckArguments where
  contracts : String
  format : Format
  output : Option String
deriving DecidableEq, Repr

/-- Contracts to be made from an API document. -/
structure GenerateArguments where
  document : String
  directory : String
  force : Bool
deriving DecidableEq, Repr

/-- What to do. -/
inductive Command where
  | run (arguments : RunArguments)
  | check (arguments : CheckArguments)
  | generate (arguments : GenerateArguments)
deriving DecidableEq, Repr

/-- A command, with how much is to be said on the way. -/
structure Invocation where
  verbosity : UInt8
  quiet : Bool
  logFormat : LogFormat
  command : Command
deriving DecidableEq, Repr

/-! ## Options -/

/-- An option without a value. -/
inductive Switch where
  | verbose | quiet | help | version | ignoreHeaderCase | force
deriving DecidableEq, Repr

/-- An option with a value. -/
inductive Setting where
  | logFormat | contracts | baseUrl | timeoutMs | concurrency | format | output | document | directory
deriving DecidableEq, Repr

/-- An option. -/
inductive Flag where
  | switch (s : Switch)
  | setting (s : Setting)
deriving DecidableEq, Repr

/-- An option with its names. -/
structure Naming where
  flag : Flag
  long : String
  short : Option Char

/-- A place of a command line where options stand: before the command, or behind it. -/
inductive Level where
  | top | run | check | generate
deriving DecidableEq, Repr

namespace Level

/-- The options that stand at every level. -/
def everywhere : List Naming :=
  [⟨.switch .verbose, "verbose", some 'v'⟩, ⟨.switch .quiet, "quiet", some 'q'⟩,
    ⟨.setting .logFormat, "log-format", none⟩, ⟨.switch .help, "help", some 'h'⟩]

/-- The options that stand at a level alone. -/
def own : Level → List Naming
  | .top => [⟨.switch .version, "version", some 'V'⟩]
  | .run =>
    [⟨.setting .contracts, "contracts", some 'c'⟩, ⟨.setting .baseUrl, "base-url", some 'b'⟩,
      ⟨.setting .timeoutMs, "timeout-ms", none⟩, ⟨.setting .concurrency, "concurrency", none⟩,
      ⟨.setting .format, "format", none⟩, ⟨.setting .output, "output", some 'o'⟩,
      ⟨.switch .ignoreHeaderCase, "ignore-header-case", none⟩]
  | .check =>
    [⟨.setting .contracts, "contracts", some 'c'⟩, ⟨.setting .format, "format", none⟩,
      ⟨.setting .output, "output", some 'o'⟩]
  | .generate =>
    [⟨.setting .document, "spec", some 's'⟩, ⟨.setting .directory, "out", some 'o'⟩,
      ⟨.switch .force, "force", none⟩]

/-- The options of a level. -/
def namings (l : Level) : List Naming := own l ++ everywhere

/-- The option of a long name. -/
def long? (l : Level) (name : String) : Option Flag :=
  (l.namings.find? fun n => n.long == name).map Naming.flag

/-- The option of a short name. -/
def short? (l : Level) (c : Char) : Option Flag :=
  (l.namings.find? fun n => n.short == some c).map Naming.flag

/-- The level behind the name of a command. -/
def ofCommand? (name : String) : Option Level :=
  match name with
  | "run" => some .run
  | "check" => some .check
  | "generate" => some .generate
  | _ => none

/-- The name of the command that asks for help. -/
def helpCommand : String := "help"

end Level

/-! ## Errors -/

/-- Why a command line asks for nothing that can be done. -/
inductive UsageError where
  | helpWanted
  | versionWanted
  /-- Nothing is said at all. -/
  | nothingSaid
  | missingCommand
  | unknownCommand (name : String)
  | unknownArgument (text : String)
  /-- A required option is left out. -/
  | missingArgument
  | missingValue (setting : Setting)
  /-- The value is none of those that the option takes. -/
  | foreignValue (setting : Setting) (value : String)
  | notNumber (setting : Setting) (value : String)
  /-- A switch is given a value. -/
  | unwantedValue (switch : Switch)
  | repeated (flag : Flag)
deriving DecidableEq, Repr

namespace UsageError

/-- Whether the user asked for a text about the program. -/
def isInformation : UsageError → Bool
  | .helpWanted | .versionWanted => true
  | _ => false

/-- The number that tells other programs how the command line ended. -/
def exitNumber (e : UsageError) : UInt8 := if e.isInformation then 0 else 2

end UsageError

end Covenant
