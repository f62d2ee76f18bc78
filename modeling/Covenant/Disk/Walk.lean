import Covenant.Disk.Files

/-!
# Walks

A walk visits what stands below a path, links followed. A directory can be reached on several ways; one
that is being visited already is not entered through a link.

* `Found`: a file of a contract, or an entry that could not be visited;
* `Trail`: the directories being visited;
* `Disk.visit`: what stands in a directory and below it;
* `Disk.walk`: what stands below a path, in the order of paths.

A visit ends. A link leads to a directory off the trail, of which there are finitely many, and without
links a walk only goes deeper.
-/

namespace Covenant

open Covenant.Path

/-- What a walk finds. -/
inductive Found where
  | file (path : String)
  | blocked (path : String) (fault : WalkFault)
deriving DecidableEq

/-- The path of what was found. -/
def Found.path : Found → String
  | .file p => p
  | .blocked p _ => p

/-- The file of a contract, and nothing for any other file. -/
def Found.ofFile (path : String) : List Found :=
  if isContractFile path then [.file path] else []

/-- The directories being visited, the innermost first, with the paths on which they were entered. -/
abbrev Trail : Type := List (Location × String)

/-- The path on which a directory was entered last. -/
def Trail.path? (t : Trail) (loc : Location) : Option String := t.lookup loc

namespace Disk

/-- The number of directories that are not on the trail. -/
def unvisited (d : Disk) (t : Trail) : Nat :=
  (d.directories.filter fun loc => (t.path? loc).isNone).length

private theorem path?_cons_isNone {t : Trail} {loc l : Location} {p : String} :
    (Trail.path? ((loc, p) :: t) l).isNone = (l != loc && (t.path? l).isNone) := by
  simp only [Trail.path?, List.lookup_cons]
  split <;> simp_all [bne]

theorem unvisited_cons_le (d : Disk) (t : Trail) (loc : Location) (p : String) :
    d.unvisited ((loc, p) :: t) ≤ d.unvisited t := by
  simp only [unvisited, path?_cons_isNone, ← List.filter_filter]
  exact List.length_filter_le _ _

theorem unvisited_cons_lt {d : Disk} {t : Trail} {loc : Location} (p : String)
    (h : d.node? loc = some .directory) (hoff : t.path? loc = none) :
    d.unvisited ((loc, p) :: t) < d.unvisited t := by
  simp only [unvisited, path?_cons_isNone, ← List.filter_filter]
  refine List.length_filter_lt_length_iff_exists.2 ⟨loc, ?_, by simp⟩
  simp [mem_directories h, hoff]

/-- What stands in a directory and below it. -/
def visit (d : Disk) (trail : Trail) (loc : Location) (path : String) : List Found :=
  (d.names loc).flatMap fun name =>
    let inner := loc ++ [name]
    let p := join path name
    match _h : d.node? inner with
    | none => []
    | some (.file _) => Found.ofFile p
    | some .directory => visit d ((inner, p) :: trail) inner p
    | some (.link _) =>
      match d.find p with
      | .error fault => [.blocked p (.unreadable p fault)]
      | .ok (target, _) =>
        if _hdir : d.node? target = some .directory then
          match _hoff : trail.path? target with
          | some ancestor => [.blocked p (.loop ancestor p)]
          | none => visit d ((target, p) :: trail) target p
        else Found.ofFile p
termination_by (d.unvisited trail, d.depth - loc.length)
decreasing_by
  · have hdeep : (loc ++ [name]).length ≤ d.depth := length_le_depth _h
    have hle : d.unvisited ((inner, p) :: trail) ≤ d.unvisited trail := unvisited_cons_le _ _ _ _
    simp only [List.length_append, List.length_singleton] at hdeep
    rcases Nat.lt_or_eq_of_le hle with hlt | heq
    · exact Prod.Lex.left _ _ hlt
    · rw [heq]
      refine Prod.Lex.right _ ?_
      simp only [List.length_append, List.length_singleton]
      omega
  · exact Prod.Lex.left _ _ (unvisited_cons_lt p _hdir _hoff)

/-- What stands below a path, in the order of paths. -/
def walk (d : Disk) (root : String) : Except WalkFault (List Found) :=
  match d.find root with
  | .error fault => .error (.unreadable root fault)
  | .ok (loc, .directory) =>
    .ok ((d.visit [(loc, root)] loc root).mergeSort fun a b => Path.le a.path b.path)
  | .ok _ => .ok (Found.ofFile root)

/-- The paths of the contract files below a path, in order. -/
def contractFiles (d : Disk) (root : String) : Except WalkFault (List String) :=
  (d.walk root).map fun found => found.filterMap fun
    | .file p => some p
    | .blocked _ _ => none

end Disk

end Covenant
