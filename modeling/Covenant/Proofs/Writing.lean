import Covenant.Command.Generate
import Covenant.Proofs.MadeDirectories
import Mathlib.Data.List.Nodup

/-!
# Files written in a directory

* `Disk.Leads.put_file`: a file that is added or gets another content leaves all ways as they are;
* `Disk.LeadsPlainly`: a path leads to a location under which no link stands;
* `Disk.LeadsPlainly.find_iff`, `Disk.LeadsPlainly.write_iff`: what is found there, and what can be written;
* `Disk.LeadsPlainly.writeAll`: files written one after the other, by induction;
* `Disk.LeadsPlainly.extends_writeAll`: where nothing stood, nothing is changed, however far this goes;
* `Disk.Writes`: a disk on which certain files are written, directories may be made, and nothing else is done.
-/

namespace Covenant

open Covenant.Path

namespace Disk

/-! ## Names in a directory -/

/-- Nothing stands at a location, or a file. -/
def Writable (d : Disk) (loc : Location) : Prop := d.node? loc = none ∨ ∃ octets, d.node? loc = some (.file octets)

/-- Ways stay as they are when files are added or get other contents. -/
theorem Leads.put_file {d : Disk} {links n : Nat} {loc l place : Location} {cs : List Component}
    (h : Leads d links loc cs n l) (hplace : d.Writable place)
    (octets : List UInt8) : Leads (d.put place (.file octets)) links loc cs n l := by
  -- what is no file stands where it stood
  have hkept {l : Location} {node : Node} (hnode : d.node? l = some node) (hfile : ∀ octets, node ≠ .file octets) :
      (d.put place (.file octets)).node? l = some node := by
    rw [node?_put_of_ne, hnode]
    rintro rfl
    rcases hplace with hnone | ⟨before, hbefore⟩
    · rw [hnone] at hnode
      cases hnode
    · rw [hbefore] at hnode
      cases hnode
      exact hfile before rfl
  have hdirectory {l : Location} (hdir : d.hasDirectory l = true) :
      (d.put place (.file octets)).hasDirectory l = true := by
    rw [hasDirectory, beq_iff_eq] at hdir ⊢
    exact hkept hdir (by simp)
  induction h with
  | done => exact .done _ _
  | root _ ih => exact .root ih
  | here hdir _ ih => exact .here (hdirectory hdir) ih
  | up hdir _ ih => exact .up (hdirectory hdir) ih
  | link hdir hsize hnode htarget _ ih => exact .link (hdirectory hdir) hsize (hkept hnode (by simp)) htarget ih
  | @name _ _ loc _ s node _ hdir hsize hnode hlink _ ih =>
    cases node with
    | link target => exact absurd rfl (hlink target)
    | directory => exact .name (hdirectory hdir) hsize (hkept hnode (by simp)) (by simp) ih
    | file before =>
      by_cases hsame : loc ++ [s] = place
      · have hput : (d.put place (.file octets)).node? (loc ++ [s]) = some (.file octets) := by
          rw [hsame]
          exact node?_put_self (by simp [← hsame]) _
        exact .name (hdirectory hdir) hsize hput (by simp) ih
      · have hput : (d.put place (.file octets)).node? (loc ++ [s]) = some (.file before) := by
          rw [node?_put_of_ne hsame, hnode]
        exact .name (hdirectory hdir) hsize hput (by simp) ih

/-- A path leads to a location under which no link stands. -/
structure LeadsPlainly (d : Disk) (directory : String) (links : Nat) (loc : Location) : Prop where
  leads : Leads d linkLimit d.workingDirectory (ownSteps directory) links loc
  noLink : ∀ name target, d.node? (loc ++ [name]) ≠ some (.link target)

/-- A name can be asked for in a directory. -/
structure Usable (d : Disk) (directory : String) (loc : Location) (name : String) : Prop where
  path : Admissible (join directory name)
  directory : d.hasDirectory loc = true
  short : ¬ name.utf8ByteSize > nameLimit

theorem Usable.congr {d d' : Disk} {directory name : String} {loc : Location} (h : d.Usable directory loc name)
    (hloc : d'.node? loc = d.node? loc) : d'.Usable directory loc name where
  path := h.path
  directory := by
    have hdir := h.directory
    rwa [hasDirectory, ← hloc] at hdir
  short := h.short

namespace LeadsPlainly

variable {d : Disk} {directory name : String} {links : Nat} {loc : Location}
  (h : d.LeadsPlainly directory links loc)
include h

theorem place_iff (hname : FileName name) {p : Place} :
    d.place true (join directory name) = .ok p ↔ d.Usable directory loc name ∧
      p = (match d.node? (loc ++ [name]) with
        | none => .free loc name
        | some node => .node (loc ++ [name]) node) := by
  rw [place_eq_ok_iff, steps_join_name directory hname, h.leads.follow_append, follow]
  constructor
  · rintro ⟨hadm, hfollow⟩
    split at hfollow
    · cases hfollow
    · rename_i hdir
      split at hfollow
      · cases hfollow
      · rename_i hsize
        refine ⟨⟨hadm, by simpa using hdir, hsize⟩, ?_⟩
        cases hnode : d.node? (loc ++ [name]) with
        | none =>
          rw [hnode] at hfollow
          cases hfollow
          rfl
        | some node =>
          rw [hnode] at hfollow
          cases node with
          | link target => exact absurd hnode (h.noLink name target)
          | _ =>
            dsimp only at hfollow
            rw [follow, hnode] at hfollow
            cases hfollow
            rfl
  · rintro ⟨husable, rfl⟩
    refine ⟨husable.path, ?_⟩
    rw [if_neg (by simpa using husable.directory), if_neg husable.short]
    cases hnode : d.node? (loc ++ [name]) with
    | none => rfl
    | some node =>
      cases node with
      | link target => exact absurd hnode (h.noLink name target)
      | _ =>
        dsimp only
        rw [follow, hnode]

theorem find_iff (hname : FileName name) {l : Location} {node : Node} :
    d.find (join directory name) = .ok (l, node) ↔
      d.Usable directory loc name ∧ l = loc ++ [name] ∧ d.node? (loc ++ [name]) = some node := by
  rw [find_eq_ok_iff, h.place_iff hname]
  refine and_congr_right fun _ => ?_
  cases d.node? (loc ++ [name]) with
  | none => simp
  | some node' => simp [eq_comm]

theorem hasNode_iff (hname : FileName name) :
    d.hasNode (join directory name) = true ↔ d.Usable directory loc name ∧ d.node? (loc ++ [name]) ≠ none := by
  constructor
  · intro hok
    obtain ⟨l, node, hfind⟩ := exists_find_of_hasNode hok
    obtain ⟨husable, -, hnode⟩ := (h.find_iff hname).1 hfind
    exact ⟨husable, by simp [hnode]⟩
  · rintro ⟨husable, hnode⟩
    obtain ⟨node, hnode⟩ := Option.ne_none_iff_exists'.1 hnode
    rw [hasNode, (h.find_iff hname).2 ⟨husable, rfl, hnode⟩]
    rfl

/-- A file can be written where nothing stands, or a file. -/
theorem write_iff (hname : FileName name) {octets : List UInt8} {d' : Disk} :
    d.write (join directory name) octets = .ok d' ↔ d.Usable directory loc name ∧
      d' = d.put (loc ++ [name]) (.file octets) ∧
      d.Writable (loc ++ [name]) := by
  have hslash : endsWithSlash (join directory name) = false := by
    by_cases hdir : directory = ""
    · rw [hdir, join_empty, endsWithSlash_fileName hname]
    · exact endsWithSlash_join hdir hname
  rw [write, hslash, if_neg (by decide), resolve]
  constructor
  · intro hwrite
    cases hplace : d.place true (join directory name) with
    | error fault =>
      rw [hplace] at hwrite
      cases hwrite
    | ok p =>
      rw [hplace] at hwrite
      obtain ⟨husable, hp⟩ := (h.place_iff hname).1 hplace
      refine ⟨husable, ?_⟩
      cases hnode : d.node? (loc ++ [name]) with
      | none =>
        rw [hnode] at hp
        subst hp
        cases hwrite
        exact ⟨rfl, .inl hnode⟩
      | some node =>
        rw [hnode] at hp
        subst hp
        cases node with
        | file before =>
          cases hwrite
          exact ⟨rfl, .inr ⟨before, hnode⟩⟩
        | _ => cases hwrite
  · rintro ⟨husable, rfl, hnone | ⟨before, hfile⟩⟩
    · rw [(h.place_iff hname).2 ⟨husable, rfl⟩, hnone]
    · rw [(h.place_iff hname).2 ⟨husable, rfl⟩, hfile]

/-- A file in the directory leaves the way to it as it is. -/
theorem put_file (hplace : d.Writable (loc ++ [name])) (octets : List UInt8) :
    (d.put (loc ++ [name]) (.file octets)).LeadsPlainly directory links loc where
  leads := h.leads.put_file hplace octets
  noLink name' target := by
    by_cases hname : loc ++ [name'] = loc ++ [name]
    · rw [hname, node?_put_self (by simp)]
      exact nofun
    · rw [node?_put_of_ne hname]
      exact h.noLink name' target

/-- Under other names nothing changes. -/
theorem hasNode_put_file (hplace : d.Writable (loc ++ [name])) (octets : List UInt8) {name' : String}
    (hname' : FileName name') (hne : name' ≠ name) :
    (d.put (loc ++ [name]) (.file octets)).hasNode (join directory name') = d.hasNode (join directory name') := by
  have hloc : (d.put (loc ++ [name]) (.file octets)).node? loc = d.node? loc := node?_put_of_ne (by simp) _
  rw [Bool.eq_iff_iff, (h.put_file hplace octets).hasNode_iff hname', h.hasNode_iff hname',
    node?_put_of_ne (by simpa using hne)]
  exact and_congr_left fun _ => ⟨fun husable => husable.congr hloc.symm, fun husable => husable.congr hloc⟩

end LeadsPlainly

/-! ## Files one after the other -/

section

variable {d d' : Disk} {directory : String} {links : Nat} {loc : Location} {files : List (String × String)}

/-- Files that are written one after the other stand in the directory, and all else is as it was. -/
theorem LeadsPlainly.writeAll (h : d.LeadsPlainly directory links loc) (hnames : ∀ f ∈ files, FileName f.1)
    (hnodup : (files.map Prod.fst).Nodup)
    (hwrite : d.writeAll (files.map fun f => (join directory f.1, f.2)) = (d', .ok ())) :
    d'.LeadsPlainly directory links loc ∧
      (∀ f ∈ files, d'.Usable directory loc f.1 ∧ d.Writable (loc ++ [f.1]) ∧
        d'.node? (loc ++ [f.1]) = some (.file (Text.encode f.2.toList))) ∧
      ∀ l, (∀ f ∈ files, l ≠ loc ++ [f.1]) → d'.node? l = d.node? l := by
  induction files generalizing d with
  | nil =>
    cases hwrite
    exact ⟨h, nofun, fun _ _ => rfl⟩
  | cons f files ih =>
    obtain ⟨hname, hnames⟩ := List.forall_mem_cons.1 hnames
    obtain ⟨hf, hnodup⟩ := List.nodup_cons.1 hnodup
    rw [List.map_cons, Disk.writeAll] at hwrite
    cases hnext : d.write (join directory f.1) (Text.encode f.2.toList) with
    | error fault =>
      rw [hnext] at hwrite
      cases hwrite
    | ok next =>
      rw [hnext] at hwrite
      obtain ⟨husable, rfl, hplace⟩ := (h.write_iff hname).1 hnext
      obtain ⟨hplain, hfiles, hkept⟩ := ih (h.put_file hplace _) hnames hnodup hwrite
      have hother {g : String × String} (hg : g ∈ files) : loc ++ [g.1] ≠ loc ++ [f.1] := by
        simpa using ne_of_mem_of_not_mem (List.mem_map_of_mem hg) hf
      have hall {l : Location} (hl : ∀ g ∈ f :: files, l ≠ loc ++ [g.1]) : d'.node? l = d.node? l := by
        obtain ⟨hfirst, hrest⟩ := List.forall_mem_cons.1 hl
        rw [hkept l hrest, node?_put_of_ne hfirst]
      refine ⟨hplain, List.forall_mem_cons.2 ⟨⟨?_, hplace, ?_⟩, fun g hg => ?_⟩, fun l hl => hall hl⟩
      · exact husable.congr (hall fun g _ => by simp)
      · rw [hkept _ fun g hg => (hother hg).symm]
        exact node?_put_self (by simp) _
      · obtain ⟨hgusable, hgplace, hgnode⟩ := hfiles g hg
        rw [Writable, node?_put_of_ne (hother hg)] at hgplace
        exact ⟨hgusable, hgplace, hgnode⟩

/-- Where nothing stands under the names of files, nothing that stands elsewhere is changed by writing them, even
if not all of them can be written. -/
theorem LeadsPlainly.extends_writeAll {r : Except Failure Unit} (h : d.LeadsPlainly directory links loc)
    (hnames : ∀ f ∈ files, FileName f.1) (hnodup : (files.map Prod.fst).Nodup)
    (hfree : ∀ f ∈ files, d.hasNode (join directory f.1) = false)
    (hwrite : d.writeAll (files.map fun f => (join directory f.1, f.2)) = (d', r)) : d.Extends d' := by
  induction files generalizing d with
  | nil =>
    cases hwrite
    exact ⟨rfl, fun _ _ hnode => hnode⟩
  | cons f files ih =>
    obtain ⟨hname, hnames⟩ := List.forall_mem_cons.1 hnames
    obtain ⟨hf, hnodup⟩ := List.nodup_cons.1 hnodup
    obtain ⟨hfirst, hfree⟩ := List.forall_mem_cons.1 hfree
    rw [List.map_cons, Disk.writeAll] at hwrite
    cases hnext : d.write (join directory f.1) (Text.encode f.2.toList) with
    | error fault =>
      rw [hnext] at hwrite
      cases hwrite
      exact ⟨rfl, fun _ _ hnode => hnode⟩
    | ok next =>
      rw [hnext] at hwrite
      obtain ⟨husable, rfl, hplace⟩ := (h.write_iff hname).1 hnext
      have hnone : d.node? (loc ++ [f.1]) = none := by
        by_contra hnode
        rw [(h.hasNode_iff hname).2 ⟨husable, hnode⟩] at hfirst
        cases hfirst
      have hplain := h.put_file hplace (Text.encode f.2.toList)
      refine (extends_put hnone _).trans (ih hplain hnames hnodup (fun g hg => ?_) hwrite)
      have hne : g.1 ≠ f.1 := ne_of_mem_of_not_mem (List.mem_map_of_mem hg) hf
      rw [h.hasNode_put_file hplace _ (hnames g hg) hne]
      exact hfree g hg

end

/-! ## What is written -/

/-- No link stands in the directory that a path leads to. -/
def LinkFree (d : Disk) (directory : String) : Prop :=
  ∀ links loc, Leads d linkLimit d.workingDirectory (ownSteps directory) links loc →
    ∀ name target, d.node? (loc ++ [name]) ≠ some (.link target)

theorem linkFree_of_entries {d : Disk} (h : ∀ e ∈ d.entries, ∀ target, e.2 ≠ .link target) (directory : String) :
    d.LinkFree directory := fun _ loc _ name target hnode =>
  h (loc ++ [name], .link target) (mem_entries_of_node? (by simp) hnode) target rfl

theorem closed_of_entries {d : Disk} (h : ∀ e ∈ d.entries, d.hasDirectory e.1.dropLast = true) : d.Closed := by
  intro loc hloc
  by_cases hroot : loc = []
  · rw [hroot]
    rfl
  · obtain ⟨node, hnode⟩ := Option.ne_none_iff_exists'.1 hloc
    exact h (loc, node) (mem_entries_of_node? hroot hnode)

/-- A disk on which files of certain texts have been written, and nothing else has been done but to make
directories. -/
structure Writes (d d' : Disk) (files : List (String × String)) : Prop where
  nodup : (files.map Prod.fst).Nodup
  /-- The files stand where nothing stood, or a file. -/
  written : ∀ f ∈ files, ∃ loc, d'.find f.1 = .ok (loc, .file (Text.encode f.2.toList)) ∧ d.Writable loc
  /-- No two of them stand in one place. -/
  apart : ∀ f ∈ files, ∀ g ∈ files, d'.find f.1 = d'.find g.1 → f = g
  /-- Elsewhere, only directories are new. -/
  kept : ∀ loc, (∀ f ∈ files, ∀ node, d'.find f.1 ≠ .ok (loc, node)) →
    d'.node? loc = d.node? loc ∨ d.node? loc = none ∧ d'.node? loc = some .directory

theorem MoreDirectories.writable {d d' : Disk} (h : d.MoreDirectories d') {loc : Location}
    (hplace : d'.Writable loc) : d.Writable loc := by
  rcases h.node? loc with hsame | ⟨hnone, -⟩
  · rwa [Writable, hsame] at hplace
  · exact .inl hnone

theorem nodup_joined {directory : String} {files : List (String × String)} (hnames : ∀ f ∈ files, FileName f.1)
    (hnodup : (files.map Prod.fst).Nodup) :
    ((files.map fun f => (join directory f.1, f.2)).map Prod.fst).Nodup := by
  rw [List.map_map]
  have hpaths : (files.map Prod.fst).map (join directory) =
      files.map (Prod.fst ∘ fun f => (join directory f.1, f.2)) := List.map_map
  rw [← hpaths]
  refine hnodup.map_on fun n hn n' hn' heq => ?_
  obtain ⟨f, hf, rfl⟩ := List.mem_map.1 hn
  obtain ⟨g, hg, rfl⟩ := List.mem_map.1 hn'
  have hsteps := congrArg ownSteps heq
  rw [ownSteps_join _ (hnames f hf), ownSteps_join _ (hnames g hg)] at hsteps
  simpa using hsteps

/-- Files written in a directory once it is made. -/
theorem LeadsPlainly.writes {d made d' : Disk} {directory : String} {links : Nat} {loc : Location}
    {files : List (String × String)} (hmade : d.MoreDirectories made) (h : made.LeadsPlainly directory links loc)
    (hnames : ∀ f ∈ files, FileName f.1) (hnodup : (files.map Prod.fst).Nodup)
    (hwrite : made.writeAll (files.map fun f => (join directory f.1, f.2)) = (d', .ok ())) :
    d.Writes d' (files.map fun f => (join directory f.1, f.2)) := by
  obtain ⟨hplain, hfiles, hkept⟩ := h.writeAll hnames hnodup hwrite
  have hfind {f : String × String} (hf : f ∈ files) : d'.find (join directory f.1) =
      .ok (loc ++ [f.1], .file (Text.encode f.2.toList)) := by
    obtain ⟨husable, -, hnode⟩ := hfiles f hf
    exact (hplain.find_iff (hnames f hf)).2 ⟨husable, rfl, hnode⟩
  refine ⟨nodup_joined hnames hnodup, ?_, ?_, fun l hl => ?_⟩
  · rw [List.forall_mem_map]
    intro f hf
    exact ⟨_, hfind hf, hmade.writable (hfiles f hf).2.1⟩
  · rw [List.forall_mem_map]
    intro f hf
    rw [List.forall_mem_map]
    intro g hg heq
    rw [hfind hf, hfind hg] at heq
    have hsame : f.1 = g.1 := by
      injection heq with heq
      injection heq with hloc
      simpa using hloc
    rw [List.inj_on_of_nodup_map hnodup hf hg hsame]
  · rw [List.forall_mem_map] at hl
    rw [hkept l fun f hf heq => hl f hf _ (heq ▸ hfind hf)]
    exact hmade.node? l

end Disk

end Covenant
