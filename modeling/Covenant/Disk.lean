import Covenant.FileFault
import Covenant.Path

/-!
# Disks

A disk says what stands at each location. A location is the list of names that lead to it from the root.

* `Node`: a file with its octets, a link with its target, or a directory;
* `Disk`: the nodes by location, and the working directory, where relative paths start;
* `Disk.node?`: what stands at a location;
* `Disk.put`, `Disk.erase`: one location changed;
* `Disk.names`: the names in a directory;
* `Disk.Closed`: every node stands in a directory.

The root is a directory of every disk and has no entry of its own.
-/

namespace Covenant

/-- The names that lead from the root to a node. -/
abbrev Location : Type := List String

/-- What stands at a location. -/
inductive Node where
  | file (octets : List UInt8)
  | link (target : String)
  | directory
deriving DecidableEq

/-- Nodes by location, with the working directory. -/
structure Disk where
  entries : List (Location × Node)
  workingDirectory : Location

namespace Disk

/-- The disk with nothing but an empty working directory. -/
def empty (workingDirectory : Location) : Disk where
  entries := (List.range workingDirectory.length).map fun n =>
    (workingDirectory.take (n + 1), .directory)
  workingDirectory := workingDirectory

/-- What stands at a location. -/
def node? (d : Disk) (loc : Location) : Option Node :=
  if loc = [] then some .directory else d.entries.lookup loc

/-- The disk with a node at a location, whatever stood there before. -/
def put (d : Disk) (loc : Location) (node : Node) : Disk :=
  { d with entries := (loc, node) :: d.entries.filter fun e => e.1 != loc }

/-- The disk with nothing at a location. -/
def erase (d : Disk) (loc : Location) : Disk :=
  { d with entries := d.entries.filter fun e => e.1 != loc }

/-- Whether a directory stands at a location. -/
def hasDirectory (d : Disk) (loc : Location) : Bool := d.node? loc == some .directory

/-- The names of the nodes in a directory. -/
def names (d : Disk) (loc : Location) : List String :=
  (d.entries.filterMap fun e => if e.1.dropLast = loc then e.1.getLast? else none).eraseDups

/-- The locations of all directories. -/
def directories (d : Disk) : List Location :=
  [] :: d.entries.filterMap fun e => if e.2 = .directory then some e.1 else none

/-- The number of names in the longest location. -/
def depth (d : Disk) : Nat := (d.entries.map fun e => e.1.length).foldr max 0

/-- Every node stands in a directory. -/
def Closed (d : Disk) : Prop :=
  ∀ loc, d.node? loc ≠ none → d.hasDirectory loc.dropLast = true

/-! ## What changes -/

private theorem lookup_filter_ne {l l' : Location} (h : l' ≠ l) (es : List (Location × Node)) :
    (es.filter fun e => e.1 != l).lookup l' = es.lookup l' := by
  induction es with
  | nil => rfl
  | cons e es ih =>
    obtain ⟨k, v⟩ := e
    by_cases hk : k = l
    · subst hk
      have : (l' == k) = false := by simpa using h
      simp [List.lookup_cons, ih, this]
    · simp only [bne_iff_ne, ne_eq, hk, not_false_eq_true, List.filter_cons_of_pos, List.lookup_cons]
      split <;> simp_all

@[simp] theorem node?_put_self {d : Disk} {loc : Location} (h : loc ≠ []) (node : Node) :
    (d.put loc node).node? loc = some node := by
  simp [node?, put, h]

/-- Other locations keep what they have. -/
theorem node?_put_of_ne {d : Disk} {loc loc' : Location} (h : loc' ≠ loc) (node : Node) :
    (d.put loc node).node? loc' = d.node? loc' := by
  have hb : (loc' == loc) = false := by simpa using h
  simp [node?, put, List.lookup_cons, hb, lookup_filter_ne h]

/-! ## Bounds -/

theorem mem_entries_of_node? {d : Disk} {loc : Location} {node : Node} (hne : loc ≠ [])
    (h : d.node? loc = some node) : (loc, node) ∈ d.entries := by
  simp only [node?, hne, if_false] at h
  obtain ⟨before, after, hentries, -⟩ := List.lookup_eq_some_iff.1 h
  simp [hentries]

private theorem le_foldr_max {n : Nat} {ns : List Nat} (h : n ∈ ns) : n ≤ ns.foldr max 0 := by
  induction ns with
  | nil => simp at h
  | cons m ms ih =>
    simp only [List.foldr_cons]
    rcases List.mem_cons.1 h with rfl | h
    · exact Nat.le_max_left _ _
    · exact Nat.le_trans (ih h) (Nat.le_max_right _ _)

/-- No location is longer than the disk is deep. -/
theorem length_le_depth {d : Disk} {loc : Location} {node : Node} (h : d.node? loc = some node) :
    loc.length ≤ d.depth := by
  by_cases hne : loc = []
  · simp [hne]
  · exact le_foldr_max (List.mem_map.2 ⟨_, mem_entries_of_node? hne h, rfl⟩)

theorem mem_directories {d : Disk} {loc : Location} (h : d.node? loc = some .directory) :
    loc ∈ d.directories := by
  by_cases hne : loc = []
  · simp [directories, hne]
  · refine List.mem_cons_of_mem _ (List.mem_filterMap.2 ⟨_, mem_entries_of_node? hne h, by simp⟩)

end Disk

end Covenant
