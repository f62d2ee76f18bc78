import Covenant.Disk
import Covenant.Text.Utf8

/-!
# Where a path leads

* `Disk.steps`: the steps that a path takes, in which every dot counts;
* `Place`: a node, or a free name in a directory;
* `Disk.follow`: the place that steps lead to, with a bound on the links on the way;
* `Disk.resolve`: the place that a path leads to, through a link at its end too;
* `Disk.locate`: the same, but a link at the end is itself the place.
-/

namespace Covenant

open Covenant.Path

/-- Where a path leads. -/
inductive Place where
  | node (loc : Location) (node : Node)
  /-- Nothing has this name in an existing directory. -/
  | free (directory : Location) (name : String)

namespace Disk

/-- Greatest number of links on the way to a place. -/
def linkLimit : Nat := 40

/-- Greatest number of octets in a name. -/
def nameLimit : Nat := 255

/-- Number of octets that a path stays below. -/
def pathLimit : Nat := 4096

/-- The steps of a path. A slash at the end is a step that only a directory allows. -/
def steps (path : String) : List Component :=
  let cs := (parts path).map Component.ofText
  (if isAbsolute path then [.root] else []) ++ cs ++
    (if endsWithSlash path && !cs.isEmpty then [.here] else [])

/-- The place that steps lead to from a location. Whether a link at the end is followed is a choice,
any other link is. -/
def follow (d : Disk) (through : Bool) (links : Nat) (loc : Location) :
    List Component → Except FileFault Place
  | [] =>
    match d.node? loc with
    | some node => .ok (.node loc node)
    | none => .error .notFound
  | .root :: cs => follow d through links [] cs
  | .here :: cs => if d.hasDirectory loc then follow d through links loc cs else .error .notDirectory
  | .up :: cs =>
    if d.hasDirectory loc then follow d through links loc.dropLast cs else .error .notDirectory
  | .name s :: cs =>
    if !d.hasDirectory loc then .error .notDirectory
    else if s.utf8ByteSize > nameLimit then .error .nameTooLong
    else match d.node? (loc ++ [s]) with
      | none => if cs.isEmpty then .ok (.free loc s) else .error .notFound
      | some (.link target) =>
        if cs.isEmpty && !through then .ok (.node (loc ++ [s]) (.link target))
        else if target.isEmpty then .error .notFound
        else match links with
          | 0 => .error .tooManyLinks
          | links + 1 => follow d through links loc (steps target ++ cs)
      | some _ => follow d through links (loc ++ [s]) cs
termination_by cs => (links, cs.length)

/-- The place that a path leads to. -/
def place (d : Disk) (through : Bool) (path : String) : Except FileFault Place :=
  if path.toList.contains '\x00' then .error .invalidName
  else if path.isEmpty then .error .notFound
  else if path.utf8ByteSize ≥ pathLimit then .error .nameTooLong
  else d.follow through linkLimit d.workingDirectory (steps path)

/-- The place that a path leads to, through a link at its end too. -/
def resolve (d : Disk) (path : String) : Except FileFault Place := d.place true path

/-- The place that a path leads to. A link at its end is itself the place. -/
def locate (d : Disk) (path : String) : Except FileFault Place := d.place false path

/-- The node that a path leads to. -/
def find (d : Disk) (path : String) : Except FileFault (Location × Node) :=
  match d.resolve path with
  | .ok (.node loc node) => .ok (loc, node)
  | .ok (.free _ _) => .error .notFound
  | .error fault => .error fault

end Disk

end Covenant
