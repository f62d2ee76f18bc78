import Covenant.Disk.Files
import Covenant.Failure
import Covenant.RunReport.Format

/-!
# Ends of commands

* `Ended`: how a command ended, and what it wrote;
* `RunReport.deliver`: a report in a file, or else on the terminal.
-/

namespace Covenant

/-- How a command ended, with the disk it leaves and the texts it wrote. -/
structure Ended where
  disk : Disk
  exit : ExitCode
  output : String
  errors : String

/-- The end of a command that was given up. -/
def Ended.ofFailure (disk : Disk) (f : Failure) : Ended :=
  ⟨disk, .ofFailure f, "", "Error: " ++ f.message ++ "\n"⟩

/-- A text that ends with a line end. -/
def endLine (s : String) : String :=
  if s.toList.getLast? = some '\n' then s else s ++ "\n"

/-- A report delivered. Only on the terminal it has colours and needs a line end. -/
def RunReport.deliver (r : RunReport) (disk : Disk) (color : Bool) (format : Format)
    (file : Option String) : Ended :=
  let exit := ExitCode.ofSuccess r.summary.isSuccess
  match file with
  | none => ⟨disk, exit, endLine (r.render color format), ""⟩
  | some path =>
    match disk.write path (Text.encode (r.render false format).toList) with
    | .ok disk => ⟨disk, exit, "", ""⟩
    | .error fault =>
      .ofFailure disk (.file ("Failed to write report '" ++ path ++ "': " ++ fault.message))

end Covenant
