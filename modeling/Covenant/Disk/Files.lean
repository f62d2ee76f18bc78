import Covenant.Disk.Resolve
import Covenant.Text.Utf8

/-!
# Files and directories

What can be done with the paths of a disk.

* `Disk.hasNode`, `Disk.isDirectory`: what a path leads to;
* `Disk.read`, `Disk.readText`: the contents of a file;
* `Disk.write`: a file with new contents, which is made if the path is free;
* `Disk.makeDirectory`, `Disk.makeDirectories`: a new directory, without or with those above it;
* `Disk.makeLink`, `Disk.remove`: a new link, and a file or link taken away.

Only `makeDirectories` can fail after it has changed the disk.
-/

namespace Covenant.Disk

open Covenant.Path

/-! ## Looking -/

/-- Whether a path leads to a node. -/
def hasNode (d : Disk) (path : String) : Bool := (d.find path).isOk

/-- Whether a path leads to a directory. -/
def isDirectory (d : Disk) (path : String) : Bool :=
  match d.find path with
  | .ok (_, .directory) => true
  | _ => false

/-- The octets of a file. -/
def read (d : Disk) (path : String) : Except FileFault (List UInt8) :=
  match d.find path with
  | .ok (_, .file octets) => .ok octets
  | .ok (_, .directory) => .error .isDirectory
  | .ok (_, .link _) => .error .tooManyLinks
  | .error fault => .error fault

/-- The text of a file. -/
def readText (d : Disk) (path : String) : Except FileFault String :=
  match d.read path with
  | .ok octets =>
    match Text.decode? octets with
    | some cs => .ok (String.ofList cs)
    | none => .error .notText
  | .error fault => .error fault

/-! ## Changing -/

/-- A file with new contents. A path that ends with a slash can be one of a directory only. -/
def write (d : Disk) (path : String) (octets : List UInt8) : Except FileFault Disk :=
  if endsWithSlash path then
    match d.locate (trimSlashes path) with
    | .ok _ => .error .isDirectory
    | .error fault => .error fault
  else match d.resolve path with
    | .ok (.node loc (.file _)) => .ok (d.put loc (.file octets))
    | .ok (.free directory name) => .ok (d.put (directory ++ [name]) (.file octets))
    | .ok (.node _ .directory) => .error .isDirectory
    | .ok (.node _ (.link _)) => .error .tooManyLinks
    | .error fault => .error fault

/-- A new directory in an existing one. -/
def makeDirectory (d : Disk) (path : String) : Except FileFault Disk :=
  match d.locate (trimSlashes path) with
  | .ok (.free directory name) => .ok (d.put (directory ++ [name]) .directory)
  | .ok (.node _ _) => .error .exists
  | .error fault => .error fault

/-- A directory at the path, new or as it is. -/
def ensureDirectory (d : Disk) (path : String) : Disk × Except FileFault Unit :=
  match d.makeDirectory path with
  | .ok d => (d, .ok ())
  | .error fault => (d, if d.isDirectory path then .ok () else .error fault)

/-- A directory at the first of the paths. The others, in their order, are those it needs above it. -/
def ensureFirst (d : Disk) : List String → Disk × Except FileFault Unit
  | [] => (d, .ok ())
  | path :: above =>
    match d.makeDirectory path with
    | .error .notFound =>
      match ensureFirst d above with
      | (d, .ok ()) => d.ensureDirectory path
      | failed => failed
    | _ => d.ensureDirectory path

/-- A directory at the path, with all that it needs above it. What exists is kept. -/
def makeDirectories (d : Disk) (path : String) : Disk × Except FileFault Unit :=
  if path.isEmpty then (d, .ok ()) else d.ensureFirst (withAncestors path)

/-- A new link. -/
def makeLink (d : Disk) (path target : String) : Except FileFault Disk :=
  if target.isEmpty then .error .notFound
  else match d.locate path with
    | .ok (.free directory name) => .ok (d.put (directory ++ [name]) (.link target))
    | .ok (.node _ _) => .error .exists
    | .error fault => .error fault

/-- A file or link taken away. -/
def remove (d : Disk) (path : String) : Except FileFault Disk :=
  match d.locate path with
  | .ok (.node _ .directory) => .error .isDirectory
  | .ok (.node loc _) => .ok (d.erase loc)
  | .ok (.free _ _) => .error .notFound
  | .error fault => .error fault

end Covenant.Disk
