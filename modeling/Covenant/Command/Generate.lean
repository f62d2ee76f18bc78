import Covenant.Command.Report
import Covenant.CommandLine
import Covenant.FreshName
import Covenant.OpenApi.Contracts
import Covenant.Yaml.Reader

/-!
# Contracts generated

* `readDocument`: an API document in JSON or YAML;
* `fileStem`, `fileStems`, `contractTargets`: the files that contracts are written to, no two of one name;
* `Disk.writeAll`: files written one after the other;
* `GenerateArguments.perform`: the command.

Nothing is written before it is known that all of it may be.
-/

namespace Covenant

open Covenant.Text

/-! ## The document -/

/-- An API document. A file with the extension of JSON is read as such, any other as YAML. -/
def readDocument (path text : String) : Except Failure Json :=
  if (Path.extension? path).any fun e => lowerText e == "json" then
    match Json.read? Json.standardLimit text with
    | some v => .ok v
    | none => .error (.malformed "Invalid JSON: the text is no JSON value")
  else match Yaml.read? text with
    | none => .error (.malformed "Invalid YAML: the text is no YAML document")
    | some v =>
      match v.toJson? with
      | .ok v => .ok v
      | .error fault => .error (.malformed ("Unsupported YAML: " ++ fault.message))

/-- The contracts of the API document in a file. -/
def Disk.generatedContracts (d : Disk) (path : String) (source : Source) :
    Except Failure (List Contract) :=
  match d.readText path with
  | .error fault =>
    .error (.file ("Failed to read OpenAPI document '" ++ path ++ "': " ++ fault.message))
  | .ok text =>
    match readDocument path text with
    | .error f => .error f
    | .ok doc =>
      match OpenApi.contracts doc source with
      | .ok (contracts, _) => .ok contracts
      | .error e => .error (.ofContractError e)

/-! ## The files -/

/-- The characters that file names may have everywhere. -/
def isPortable (c : Char) : Bool := isAlphanumeric c || c = '-' || c = '_' || c = '.'

/-- The file name for a contract, without its extension. -/
def fileStem (name : String) : String :=
  String.ofList (name.toList.map fun c => if isPortable c then c else '_')

/-- File names for contracts, none of them taken or given twice, the case of letters aside. -/
def fileStems (taken : List String) : List String → List String
  | [] => []
  | name :: names =>
    let stem := freshName lowerText taken (fileStem name)
    stem :: fileStems (lowerText stem :: taken) names

/-- The paths of the files that contracts are written to. -/
def contractTargets (directory : String) (contracts : List Contract) : List String :=
  (fileStems [] (contracts.map Contract.name)).map fun stem => Path.join directory (stem ++ ".yaml")

/-- The text of a contract in its file. -/
def Contract.fileText (c : Contract) : String := Yaml.write c.toDocument

/-- Files written one after the other, up to the first that cannot be. -/
def Disk.writeAll (d : Disk) : List (String × String) → Disk × Except Failure Unit
  | [] => (d, .ok ())
  | (path, text) :: files =>
    match d.write path (Text.encode text.toList) with
    | .ok d => d.writeAll files
    | .error fault => (d, .error (.file ("Failed to write '" ++ path ++ "': " ++ fault.message)))

/-! ## The command -/

/-- The disk with the files of contracts in a directory, which is made where it is missing. Files that
exist are kept unless they may be overwritten. -/
def Disk.placeContracts (d : Disk) (directory : String) (force : Bool) (contracts : List Contract) :
    Disk × Except Failure Unit :=
  match d.makeDirectories directory with
  | (d, .error fault) =>
    (d, .error (.file ("Failed to create '" ++ directory ++ "': " ++ fault.message)))
  | (d, .ok ()) =>
    let targets := contractTargets directory contracts
    match if force then none else targets.find? d.hasNode with
    | some path => (d, .error (.file ("'" ++ path ++ "' already exists (use --force to overwrite)")))
    | none => d.writeAll (targets.zip (contracts.map Contract.fileText))

/-- Writes a contract for each operation of an API document. -/
def GenerateArguments.perform (a : GenerateArguments) (quiet color : Bool) (source : Source)
    (d : Disk) : Ended :=
  match d.generatedContracts a.document source with
  | .error f => .ofFailure d f
  | .ok contracts =>
    match d.placeContracts a.directory a.force contracts with
    | (d, .error f) => .ofFailure d f
    | (d, .ok ()) =>
      let message := paint color .green "+" ++ " Generated " ++ Decimal.ofNat contracts.length ++
        " contract(s) in " ++ a.directory ++ "\n"
      ⟨d, .success, if quiet then "" else message, ""⟩

end Covenant
