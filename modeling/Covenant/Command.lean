import Covenant.Command.Generate
import Covenant.Command.Run
import Covenant.CommandLine.Reader

/-!
# Commands

* `Invocation.perform`: does what a command line asks for.
-/

namespace Covenant

/-- Does what a command line asks for. -/
def Invocation.perform [Monad m] (i : Invocation) (world : Surroundings m)
    (environment : String → Option String) (color : Bool) (source : Source) (d : Disk) : m Ended :=
  match i.command with
  | .run a => a.perform world environment color source d
  | .check a => a.perform world color source d
  | .generate a => return a.perform i.quiet color source d

end Covenant
