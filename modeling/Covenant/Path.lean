import Covenant.Text.Case
import Covenant.Text.Split

/-!
# Paths

A path is a text whose parts stand between slashes.

* `Path.components`: the parts that tell paths apart, without empty parts and without the dots that
  change nothing;
* `Path.le`: the order of paths, part by part;
* `Path.join`, `Path.fileName?`, `Path.extension?`: putting paths together and taking names apart;
* `Path.isContractFile`: the files that hold contracts;
* `Path.contractName`: the name of the contract that a file holds.
-/

namespace Covenant.Path

open Covenant.Text

/-- A part of a path. -/
inductive Component where
  | root | here | up
  | name (text : String)
deriving DecidableEq, Repr

namespace Component

/-- The text of a part. -/
def text : Component → String
  | .root => "/"
  | .here => "."
  | .up => ".."
  | .name s => s

/-- The root stands first, then `.`, then `..`, then the names. -/
def rank : Component → Nat
  | .root => 0
  | .here => 1
  | .up => 2
  | .name _ => 3

/-- Parts of different rank by rank, and names by their characters. -/
def lt (a b : Component) : Bool :=
  a.rank < b.rank || (a.rank == b.rank && a.text < b.text)

/-- The part that a text between slashes is. -/
def ofText (s : String) : Component :=
  if s = "." then .here else if s = ".." then .up else .name s

end Component

/-! ## Parts -/

/-- The texts between slashes, empty ones left out. -/
def parts (path : String) : List String :=
  ((splitAt '/' path.toList).filter fun p => !p.isEmpty).map String.ofList

/-- Whether a path starts at the root. -/
def isAbsolute (path : String) : Bool := path.toList.head? == some '/'

/-- Whether a path ends with a slash, which only a directory may. -/
def endsWithSlash (path : String) : Bool := path.toList.getLast? == some '/'

/-- The parts of a path. Only a dot that starts a relative path is kept. -/
def components (path : String) : List Component :=
  let cs := (parts path).map Component.ofText
  if isAbsolute path then .root :: cs.filter (· ≠ .here)
  else match cs with
    | .here :: rest => .here :: rest.filter (· ≠ .here)
    | cs => cs.filter (· ≠ .here)

/-- The texts of parts with slashes between them. -/
def ofComponents (cs : List Component) : String :=
  String.ofList (joinWith '/' (cs.map fun c => c.text.toList))

/-- Lists of parts in the order of their first difference. -/
def componentsLe : List Component → List Component → Bool
  | [], _ => true
  | _ :: _, [] => false
  | a :: as, b :: bs => a.lt b || (a == b && componentsLe as bs)

/-- The order of paths. -/
def le (a b : String) : Bool := componentsLe (components a) (components b)

/-- A path without slashes at its end. The root alone is kept. -/
def trimSlashes (path : String) : String :=
  match path.toList.reverse.dropWhile (· = '/') with
  | [] => path
  | cs => String.ofList cs.reverse

/-- A path and the paths of the directories above it, from the inside out. -/
def withAncestors (path : String) : List String :=
  let cs := components path
  path :: ((List.range (cs.length - 1)).reverse.map fun n => ofComponents (cs.take (n + 1)))

/-- A name inside a directory. -/
def join (directory name : String) : String :=
  if directory.isEmpty || endsWithSlash directory then directory ++ name
  else directory ++ "/" ++ name

/-! ## Names -/

/-- The last part of a path, if it is a name. -/
def fileName? (path : String) : Option String :=
  match (components path).getLast? with
  | some (.name s) => some s
  | _ => none

/-- What stands before and behind the last dot. A dot at the start belongs to the name. -/
def splitExtension (name : String) : String × Option String :=
  let backwards := name.toList.reverse
  match splitFirst? '.' backwards with
  | none => (name, none)
  | some (_, []) => (name, none)
  | some (ext, stem) => (String.ofList stem.reverse, some (String.ofList ext.reverse))

/-- The extension of the file name. -/
def extension? (path : String) : Option String :=
  (fileName? path).bind fun name => (splitExtension name).2

/-- Whether the extension, in any letter case, is one of contracts. -/
def isContractFile (path : String) : Bool :=
  (extension? path).any fun e => ["yaml", "yml"].contains (lowerText e)

/-! ## Names of contracts -/

/-- The last name without its extension. Where only dots are left of it, it is a step up. -/
def dropExtension : List Component → List Component
  | [] => []
  | [.name s] =>
    let stem := (splitExtension s).1
    [if stem = "." ∨ stem = ".." then .up else .name stem]
  | c :: cs => c :: dropExtension cs

/-- The parts of a path below a directory: all of them where the path is not below it. -/
def relativeTo (directory path : String) : List Component :=
  let all := components path
  let start := components directory
  if start.isPrefixOf all then all.drop start.length else all

/-- The name of the contract in a file: its path below the directory, without the extension. A file
that is itself the directory has its file name. -/
def contractName (directory path : String) : String :=
  let below := match relativeTo directory path with
    | [] =>
      match fileName? path with
      | some name => [.name name]
      | none => components path
    | cs => cs
  ofComponents (dropExtension below)

example : contractName "c" "c//d/./x.tar.gz" = "d/x.tar" := by decide +kernel

end Covenant.Path
