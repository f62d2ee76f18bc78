import Covenant.Disk.Walk
import Covenant.Proofs.JoinedPaths
import Covenant.Proofs.Octets
import Mathlib.Data.List.Basic

/-!
# Files in a directory

* `Disk.Leads`: the way that steps take through a disk, as a relation;
* `Disk.Extends`: a disk with all nodes of another one; ways stay as they are;
* `Disk.Holds`: a directory that holds certain files and nothing else;
* `Disk.Holds.write`: a new file in such a directory;
* `Disk.Holds.readText`, `Disk.Holds.walk`: what is read there, and what a walk finds.
-/

namespace Covenant

open Covenant.Path

namespace Disk

/-! ## Ways through a disk -/

/-- Steps lead from a location to another one. Of the links that may be followed some are left. -/
inductive Leads (d : Disk) : Nat → Location → List Component → Nat → Location → Prop
  | done (links : Nat) (loc : Location) : Leads d links loc [] links loc
  | root {links links' : Nat} {loc l : Location} {cs : List Component} :
      Leads d links [] cs links' l → Leads d links loc (.root :: cs) links' l
  | here {links links' : Nat} {loc l : Location} {cs : List Component} :
      d.hasDirectory loc = true → Leads d links loc cs links' l → Leads d links loc (.here :: cs) links' l
  | up {links links' : Nat} {loc l : Location} {cs : List Component} :
      d.hasDirectory loc = true → Leads d links loc.dropLast cs links' l →
      Leads d links loc (.up :: cs) links' l
  | link {links links' : Nat} {loc l : Location} {s target : String} {cs : List Component} :
      d.hasDirectory loc = true → ¬ s.utf8ByteSize > nameLimit →
      d.node? (loc ++ [s]) = some (.link target) → target.isEmpty = false →
      Leads d links loc (steps target ++ cs) links' l → Leads d (links + 1) loc (.name s :: cs) links' l
  | name {links links' : Nat} {loc l : Location} {s : String} {node : Node} {cs : List Component} :
      d.hasDirectory loc = true → ¬ s.utf8ByteSize > nameLimit →
      d.node? (loc ++ [s]) = some node → (∀ target, node ≠ .link target) →
      Leads d links (loc ++ [s]) cs links' l → Leads d links loc (.name s :: cs) links' l

/-- Behind steps that lead somewhere, further steps go on from there. -/
theorem Leads.follow_append {d : Disk} {links links' : Nat} {loc l : Location} {cs : List Component}
    (h : Leads d links loc cs links' l) (rest : List Component) :
    d.follow true links loc (cs ++ rest) = d.follow true links' l rest := by
  induction h with
  | done => rfl
  | root _ ih => rw [List.cons_append, follow, ih]
  | here hdir _ ih => rw [List.cons_append, follow, if_pos hdir, ih]
  | up hdir _ ih => rw [List.cons_append, follow, if_pos hdir, ih]
  | link hdir hsize hnode htarget _ ih =>
    rw [List.cons_append, follow, if_neg (by simpa using hdir), if_neg hsize, hnode]
    dsimp only
    rw [if_neg (by simp), htarget, if_neg (by decide), ← List.append_assoc, ih]
  | @name _ _ loc _ s node cs hdir hsize hnode hlink _ ih =>
    rw [List.cons_append, follow, if_neg (by simpa using hdir), if_neg hsize, hnode, ← ih]
    cases node with
    | link target => exact absurd rfl (hlink target)
    | _ => rfl

/-- What steps are followed to is where they lead. -/
theorem exists_leads_of_follow {d : Disk} {links : Nat} {loc l : Location} {node : Node}
    {cs : List Component} (h : d.follow true links loc cs = .ok (.node l node)) :
    (∃ links', Leads d links loc cs links' l) ∧ d.node? l = some node := by
  fun_induction follow d true links loc cs with
  | case1 links loc n hn =>
    cases h
    exact ⟨⟨links, .done links _⟩, hn⟩
  | case3 links loc cs ih =>
    obtain ⟨⟨links', hleads⟩, hnode⟩ := ih h
    exact ⟨⟨links', .root hleads⟩, hnode⟩
  | case4 links loc cs hdir ih =>
    obtain ⟨⟨links', hleads⟩, hnode⟩ := ih h
    exact ⟨⟨links', .here hdir hleads⟩, hnode⟩
  | case6 links loc cs hdir ih =>
    obtain ⟨⟨links', hleads⟩, hnode⟩ := ih h
    exact ⟨⟨links', .up hdir hleads⟩, hnode⟩
  | case12 links loc s cs hdir hsize target hn hend => simp at hend
  | case15 loc s cs hdir hsize target hn hend htarget links ih =>
    obtain ⟨⟨links', hleads⟩, hnode⟩ := ih h
    exact ⟨⟨links', .link (by simpa using hdir) hsize hn (by simpa using htarget) hleads⟩, hnode⟩
  | case16 links loc s cs hdir hsize n hlink hn ih =>
    obtain ⟨⟨links', hleads⟩, hnode⟩ := ih h
    exact ⟨⟨links', .name (by simpa using hdir) hsize hn hlink hleads⟩, hnode⟩
  | case2 | case5 | case7 | case8 | case9 | case10 | case11 | case13 | case14 => cases h

/-- A step at the end that stays where it is can be left out. -/
theorem Leads.of_append_here {d : Disk} {links links' : Nat} {loc l : Location} {cs : List Component}
    (h : Leads d links loc (cs ++ [.here]) links' l) : Leads d links loc cs links' l := by
  generalize hcs : cs ++ [.here] = all at h
  induction h generalizing cs with
  | done => simp at hcs
  | root _ ih =>
    cases cs with
    | nil => cases hcs
    | cons c cs =>
      obtain ⟨rfl, htail⟩ := List.cons.inj hcs
      exact .root (ih htail)
  | here hdir hleads ih =>
    cases cs with
    | nil =>
      obtain ⟨-, rfl⟩ := List.cons.inj hcs
      cases hleads
      exact .done _ _
    | cons c cs =>
      obtain ⟨rfl, htail⟩ := List.cons.inj hcs
      exact .here hdir (ih htail)
  | up hdir _ ih =>
    cases cs with
    | nil => cases hcs
    | cons c cs =>
      obtain ⟨rfl, htail⟩ := List.cons.inj hcs
      exact .up hdir (ih htail)
  | link hdir hsize hnode htarget _ ih =>
    cases cs with
    | nil => cases hcs
    | cons c cs =>
      obtain ⟨rfl, htail⟩ := List.cons.inj hcs
      exact .link hdir hsize hnode htarget (ih (by rw [List.append_assoc, ← htail]; rfl))
  | name hdir hsize hnode hlink _ ih =>
    cases cs with
    | nil => cases hcs
    | cons c cs =>
      obtain ⟨rfl, htail⟩ := List.cons.inj hcs
      exact .name hdir hsize hnode hlink (ih htail)

/-! ## Disks with more nodes -/

/-- A disk that has all nodes of another one. -/
structure Extends (d d' : Disk) : Prop where
  workingDirectory : d'.workingDirectory = d.workingDirectory
  node? : ∀ loc node, d.node? loc = some node → d'.node? loc = some node

theorem Extends.hasDirectory {d d' : Disk} (h : Extends d d') {loc : Location}
    (hdir : d.hasDirectory loc = true) : d'.hasDirectory loc = true := by
  rw [Disk.hasDirectory, beq_iff_eq] at hdir ⊢
  exact h.node? loc _ hdir

/-- Ways stay as they are when nodes are added. -/
theorem Extends.leads {d d' : Disk} (h : Extends d d') {links links' : Nat} {loc l : Location}
    {cs : List Component} (hleads : Leads d links loc cs links' l) : Leads d' links loc cs links' l := by
  induction hleads with
  | done links loc => exact .done links loc
  | root _ ih => exact .root ih
  | here hdir _ ih => exact .here (h.hasDirectory hdir) ih
  | up hdir _ ih => exact .up (h.hasDirectory hdir) ih
  | link hdir hsize hnode htarget _ ih => exact .link (h.hasDirectory hdir) hsize (h.node? _ _ hnode) htarget ih
  | name hdir hsize hnode hlink _ ih => exact .name (h.hasDirectory hdir) hsize (h.node? _ _ hnode) hlink ih

theorem extends_put {d : Disk} {loc : Location} (hfree : d.node? loc = none) (node : Node) :
    Extends d (d.put loc node) where
  workingDirectory := rfl
  node? l n hl := by
    have hne : l ≠ loc := by
      rintro rfl
      rw [hfree] at hl
      cases hl
    rw [node?_put_of_ne hne, hl]

/-! ## Paths that can be followed -/

/-- A path that is neither empty nor too long and without a zero character. -/
structure Admissible (path : String) : Prop where
  noZero : path.toList.contains '\x00' = false
  ne_empty : path.isEmpty = false
  short : ¬ path.utf8ByteSize ≥ pathLimit

theorem place_of_admissible {path : String} (hadm : Admissible path) (d : Disk) (through : Bool) :
    d.place through path = d.follow through linkLimit d.workingDirectory (steps path) := by
  rw [place, hadm.noZero, if_neg (by decide), hadm.ne_empty, if_neg (by decide), if_neg hadm.short]

theorem place_eq_ok_iff {d : Disk} {through : Bool} {path : String} {p : Place} :
    d.place through path = .ok p ↔
      Admissible path ∧ d.follow through linkLimit d.workingDirectory (steps path) = .ok p := by
  constructor
  · intro h
    rw [place] at h
    split at h
    · cases h
    · split at h
      · cases h
      · split at h
        · cases h
        · rename_i hzero hempty hsize
          exact ⟨⟨by simpa using hzero, by simpa using hempty, hsize⟩, h⟩
  · rintro ⟨hadm, h⟩
    rw [place_of_admissible hadm, h]

theorem find_eq_ok_iff {d : Disk} {path : String} {loc : Location} {node : Node} :
    d.find path = .ok (loc, node) ↔ d.place true path = .ok (.node loc node) := by
  rw [find, resolve]
  cases d.place true path with
  | error e => simp
  | ok p => cases p <;> simp

/-- What stands in the working directory. -/
theorem place_fileName {d : Disk} {name : String} {node : Node} (hname : FileName name) (hadm : Admissible name)
    (hsize : ¬ name.utf8ByteSize > nameLimit) (hdir : d.hasDirectory d.workingDirectory = true)
    (hnode : d.node? (d.workingDirectory ++ [name]) = some node) (hlink : ∀ target, node ≠ .link target)
    (through : Bool) : d.place through name = .ok (.node (d.workingDirectory ++ [name]) node) := by
  rw [place_of_admissible hadm, steps_fileName hname, follow, if_neg (by simpa using hdir), if_neg hsize, hnode]
  cases node with
  | link target => exact absurd rfl (hlink target)
  | _ =>
    dsimp only
    rw [follow, hnode]

/-- The way to a directory. -/
theorem exists_leads_of_find {d : Disk} {path : String} {loc : Location} {node : Node}
    (h : d.find path = .ok (loc, node)) :
    (∃ links, Leads d linkLimit d.workingDirectory (ownSteps path) links loc) ∧ d.node? loc = some node := by
  obtain ⟨⟨links, hleads⟩, hnode⟩ := exists_leads_of_follow (place_eq_ok_iff.1 (find_eq_ok_iff.1 h)).2
  refine ⟨⟨links, ?_⟩, hnode⟩
  rcases steps_eq_ownSteps path with hsteps | hsteps
  · rwa [hsteps] at hleads
  · rw [hsteps] at hleads
    exact hleads.of_append_here

theorem ne_empty_of_find {d : Disk} {path : String} {r : Location × Node} (h : d.find path = .ok r) :
    path ≠ "" := by
  rintro rfl
  exact absurd (place_eq_ok_iff.1 (find_eq_ok_iff.1 h)).1.ne_empty (by decide)

/-! ## The names in a directory -/

/-- The names of the entries of a directory, as they come. -/
def entriesIn (d : Disk) (loc : Location) : List String :=
  d.entries.filterMap fun e => if e.1.dropLast = loc then e.1.getLast? else none

theorem eraseDups_eq_self {names : List String} (h : names.Nodup) : names.eraseDups = names := by
  induction names with
  | nil => rfl
  | cons n names ih =>
    obtain ⟨hn, hnames⟩ := List.nodup_cons.1 h
    have hkept : (names.filter fun m => !m == n) = names := by
      refine List.filter_eq_self.2 fun m hm => ?_
      have hne : m ≠ n := fun heq => hn (heq ▸ hm)
      simpa using hne
    rw [List.eraseDups_cons, hkept, ih hnames]

theorem names_eq_entriesIn {d : Disk} {loc : Location} (h : (d.entriesIn loc).Nodup) :
    d.names loc = d.entriesIn loc :=
  eraseDups_eq_self h

theorem entriesIn_eq_nil {d : Disk} {loc : Location} (h : d.names loc = []) : d.entriesIn loc = [] := by
  refine List.eq_nil_iff_forall_not_mem.2 fun n hn => ?_
  have hmem : n ∈ d.names loc := List.mem_eraseDups.2 hn
  rw [h] at hmem
  cases hmem

theorem mem_entriesIn {d : Disk} {loc : Location} {name : String} {e : Location × Node} (he : e ∈ d.entries)
    (hloc : e.1 = loc ++ [name]) : name ∈ d.entriesIn loc := by
  refine List.mem_filterMap.2 ⟨e, he, ?_⟩
  rw [hloc, List.dropLast_concat, if_pos rfl, List.getLast?_concat]

/-- A name that no entry has is free. -/
theorem node?_of_not_mem {d : Disk} {loc : Location} {name : String} (h : name ∉ d.entriesIn loc) :
    d.node? (loc ++ [name]) = none := by
  cases hnode : d.node? (loc ++ [name]) with
  | none => rfl
  | some node => exact absurd (mem_entriesIn (mem_entries_of_node? (by simp) hnode) rfl) h

theorem entriesIn_put {d : Disk} {loc : Location} {name : String} (h : name ∉ d.entriesIn loc) (node : Node) :
    (d.put (loc ++ [name]) node).entriesIn loc = name :: d.entriesIn loc := by
  have hkept : (d.entries.filter fun e => e.1 != loc ++ [name]) = d.entries := by
    refine List.filter_eq_self.2 fun e he => ?_
    have hne : e.1 ≠ loc ++ [name] := fun heq => h (mem_entriesIn he heq)
    simpa using hne
  rw [entriesIn, put, hkept, List.filterMap_cons, List.dropLast_concat, if_pos rfl, List.getLast?_concat]
  rfl

/-! ## Directories of files -/

/-- A directory that holds files of certain names and texts, and nothing else. -/
structure Holds (d : Disk) (directory : String) (loc : Location) (files : List (String × String)) : Prop where
  found : d.find directory = .ok (loc, .directory)
  entriesIn : d.entriesIn loc = files.map Prod.fst
  nodup : (files.map Prod.fst).Nodup
  file : ∀ f ∈ files, ∃ octets, d.node? (loc ++ [f.1]) = some (.file octets)
  readText : ∀ f ∈ files, d.readText (join directory f.1) = .ok f.2

theorem holds_nil {d : Disk} {directory : String} {loc : Location} (hfound : d.find directory = .ok (loc, .directory))
    (hempty : d.names loc = []) : Holds d directory loc [] where
  found := hfound
  entriesIn := entriesIn_eq_nil hempty
  nodup := List.nodup_nil
  file := nofun
  readText := nofun

/-- The place of a name in a directory. -/
theorem follow_join {d : Disk} {directory name : String} {loc : Location}
    (hfound : d.find directory = .ok (loc, .directory)) (hname : FileName name) :
    ∃ links, d.follow true linkLimit d.workingDirectory (steps (join directory name)) =
      if name.utf8ByteSize > nameLimit then .error .nameTooLong
      else match d.node? (loc ++ [name]) with
        | none => .ok (.free loc name)
        | some (.link target) =>
          if target.isEmpty then .error .notFound
          else match links with
            | 0 => .error .tooManyLinks
            | links + 1 => d.follow true links loc (steps target)
        | some node => .ok (.node (loc ++ [name]) node) := by
  obtain ⟨⟨links, hleads⟩, hnode⟩ := exists_leads_of_find hfound
  have hdir : d.hasDirectory loc = true := by rw [hasDirectory, hnode, beq_self_eq_true]
  refine ⟨links, ?_⟩
  rw [steps_join (ne_empty_of_find hfound) hname, hleads.follow_append, follow, hdir]
  simp only [Bool.not_true, Bool.false_eq_true, if_false, List.isEmpty_nil, if_true, Bool.not_true,
    Bool.and_false, List.append_nil]
  split
  · rfl
  · cases hn : d.node? (loc ++ [name]) with
    | none => rfl
    | some node =>
      cases node with
      | link target => cases links <;> rfl
      | file octets => rw [follow, hn]
      | directory => rw [follow, hn]

/-- What stands under the name of a file. -/
theorem find_join {d : Disk} {directory name : String} {loc : Location} {octets : List UInt8}
    (hfound : d.find directory = .ok (loc, .directory)) (hname : FileName name)
    (hadm : Admissible (join directory name)) (hsize : ¬ name.utf8ByteSize > nameLimit)
    (hnode : d.node? (loc ++ [name]) = some (.file octets)) :
    d.find (join directory name) = .ok (loc ++ [name], .file octets) := by
  obtain ⟨links, hfollow⟩ := follow_join hfound hname
  rw [if_neg hsize, hnode] at hfollow
  exact find_eq_ok_iff.2 (place_eq_ok_iff.2 ⟨hadm, hfollow⟩)

theorem Extends.find {d d' : Disk} (h : Extends d d') {path : String} {loc : Location} {node : Node}
    (hfind : d.find path = .ok (loc, node)) : d'.find path = .ok (loc, node) := by
  obtain ⟨hadm, hfollow⟩ := place_eq_ok_iff.1 (find_eq_ok_iff.1 hfind)
  obtain ⟨⟨links, hleads⟩, hnode⟩ := exists_leads_of_follow hfollow
  refine find_eq_ok_iff.2 (place_eq_ok_iff.2 ⟨hadm, ?_⟩)
  have hgo := (h.leads hleads).follow_append []
  rw [List.append_nil] at hgo
  rw [h.workingDirectory, hgo, follow, h.node? _ _ hnode]

theorem readText_of_find {d : Disk} {path : String} {loc : Location} {octets : List UInt8} {cs : List Char}
    (hfind : d.find path = .ok (loc, .file octets)) (hdecode : Text.decode? octets = some cs) :
    d.readText path = .ok (String.ofList cs) := by
  rw [Disk.readText, read, hfind]
  dsimp only
  rw [hdecode]

theorem exists_of_readText {d : Disk} {path text : String} (h : d.readText path = .ok text) :
    ∃ loc octets cs, d.find path = .ok (loc, .file octets) ∧ Text.decode? octets = some cs ∧
      text = String.ofList cs := by
  rw [Disk.readText, read] at h
  cases hfind : d.find path with
  | error e =>
    rw [hfind] at h
    cases h
  | ok r =>
    obtain ⟨loc, node⟩ := r
    rw [hfind] at h
    cases node with
    | file octets =>
      dsimp only at h
      cases hdecode : Text.decode? octets with
      | none =>
        rw [hdecode] at h
        cases h
      | some cs =>
        rw [hdecode] at h
        cases h
        exact ⟨loc, octets, cs, rfl, hdecode, rfl⟩
    | _ => cases h

theorem Extends.readText {d d' : Disk} (h : Extends d d') {path text : String}
    (hread : d.readText path = .ok text) : d'.readText path = .ok text := by
  obtain ⟨loc, octets, cs, hfind, hdecode, rfl⟩ := exists_of_readText hread
  exact readText_of_find (h.find hfind) hdecode

/-- A file that is written where nothing stood is one more in its directory. -/
theorem Holds.write {d d' : Disk} {directory name text : String} {loc : Location}
    {files : List (String × String)} (h : Holds d directory loc files) (hname : FileName name)
    (hnew : name ∉ files.map Prod.fst)
    (hwrite : d.write (join directory name) (Text.encode text.toList) = .ok d') :
    Holds d' directory loc ((name, text) :: files) := by
  have hdir := ne_empty_of_find h.found
  have hfree : name ∉ d.entriesIn loc := h.entriesIn ▸ hnew
  have hnone := node?_of_not_mem hfree
  rw [Disk.write, endsWithSlash_join hdir hname, if_neg (by decide)] at hwrite
  cases hplace : d.resolve (join directory name) with
  | error e =>
    rw [hplace] at hwrite
    cases hwrite
  | ok p =>
    obtain ⟨hadm, hfollow⟩ := place_eq_ok_iff.1 hplace
    obtain ⟨links, hjoin⟩ := follow_join h.found hname
    rw [hnone, hfollow] at hjoin
    by_cases hsize : name.utf8ByteSize > nameLimit
    · rw [if_pos hsize] at hjoin
      cases hjoin
    · rw [if_neg hsize] at hjoin
      cases hjoin
      rw [hplace] at hwrite
      cases hwrite
      have hext := extends_put hnone (.file (Text.encode text.toList))
      have hnode : (d.put (loc ++ [name]) (.file (Text.encode text.toList))).node? (loc ++ [name]) =
          some (.file (Text.encode text.toList)) := node?_put_self (by simp) _
      refine ⟨hext.find h.found, ?_, List.nodup_cons.2 ⟨hnew, h.nodup⟩, ?_, ?_⟩
      · rw [entriesIn_put hfree, h.entriesIn, List.map_cons]
      · refine List.forall_mem_cons.2 ⟨⟨_, hnode⟩, fun f hf => ?_⟩
        obtain ⟨octets, hoctets⟩ := h.file f hf
        exact ⟨octets, hext.node? _ _ hoctets⟩
      · refine List.forall_mem_cons.2 ⟨?_, fun f hf => ?_⟩
        · have hread := readText_of_find (find_join (hext.find h.found) hname hadm hsize hnode)
            (Text.decode?_encode text.toList)
          rwa [String.ofList_toList] at hread
        · exact hext.readText (h.readText f hf)

/-- What stands in such a directory is its files. -/
theorem Holds.visit {d : Disk} {directory : String} {loc : Location} {files : List (String × String)}
    (h : Holds d directory loc files) (trail : Trail) :
    d.visit trail loc directory = files.flatMap fun f => Found.ofFile (join directory f.1) := by
  have hnames : d.names loc = files.map Prod.fst := by
    rw [names_eq_entriesIn (h.entriesIn ▸ h.nodup), h.entriesIn]
  rw [Disk.visit, hnames, List.flatMap_map]
  refine List.flatMap_congr fun f hf => ?_
  obtain ⟨octets, hoctets⟩ := h.file f hf
  dsimp only
  split
  · rename_i hnone
    rw [hoctets] at hnone
    cases hnone
  · rfl
  · rename_i hother
    rw [hoctets] at hother
    cases hother
  · rename_i target hother
    rw [hoctets] at hother
    cases hother

/-- A walk finds the files that can hold contracts, in some order. -/
theorem Holds.walk {d : Disk} {directory : String} {loc : Location} {files : List (String × String)}
    (h : Holds d directory loc files) :
    ∃ found, d.walk directory = .ok found ∧
      found.Perm (files.flatMap fun f => Found.ofFile (join directory f.1)) := by
  refine ⟨_, ?_, List.mergeSort_perm _ fun a b => Path.le a.path b.path⟩
  rw [Disk.walk, h.found, ← h.visit]

end Disk

end Covenant
