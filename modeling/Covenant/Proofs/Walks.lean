import Covenant.Proofs.Directories
import Mathlib.Data.List.Nodup
import Mathlib.Data.String.Basic

/-!
# What a walk finds

* `Path.le_trans`, `Path.le_total`: paths are in a linear order;
* `Disk.Named`: every name of a disk is one that a file can have;
* `Disk.Enters`: the directories that a walk enters, through links too, but none through a link from within;
* `Disk.Contains`: the contract files and the dead ends in these directories;
* `Disk.mem_visit_iff`: a walk finds exactly these;
* `Disk.nodup_paths_visit`: it finds none of them twice;
* `Disk.exists_walk`: all of it for a walk, with the order of what it finds.
-/

namespace Covenant

open Covenant.Path

/-! ## The order of paths -/

namespace Path

theorem Component.lt_iff {a b : Component} :
    a.lt b = true ↔ a.rank < b.rank ∨ a.rank = b.rank ∧ a.text < b.text := by
  simp [Component.lt]

theorem Component.lt_trans {a b c : Component} (hab : a.lt b = true) (hbc : b.lt c = true) :
    a.lt c = true := by
  rw [Component.lt_iff] at *
  rcases hab with hab | ⟨hab, hab'⟩ <;> rcases hbc with hbc | ⟨hbc, hbc'⟩
  · exact .inl (by omega)
  · exact .inl (by omega)
  · exact .inl (by omega)
  · exact .inr ⟨by omega, String.lt_trans hab' hbc'⟩

theorem Component.lt_or_eq_or_lt (a b : Component) : a.lt b = true ∨ a = b ∨ b.lt a = true := by
  rw [Component.lt_iff, Component.lt_iff]
  rcases Nat.lt_trichotomy a.rank b.rank with hrank | hrank | hrank
  · exact .inl (.inl hrank)
  · rcases lt_trichotomy a.text b.text with htext | htext | htext
    · exact .inl (.inr ⟨hrank, htext⟩)
    · refine .inr (.inl ?_)
      cases a <;> cases b <;> first | rfl | exact congrArg Component.name htext | cases hrank
    · exact .inr (.inr (.inr ⟨hrank.symm, htext⟩))
  · exact .inr (.inr (.inl hrank))

theorem componentsLe_cons {a b : Component} {as bs : List Component} :
    componentsLe (a :: as) (b :: bs) = true ↔ a.lt b = true ∨ a = b ∧ componentsLe as bs = true := by
  simp [componentsLe]

theorem componentsLe_trans {as bs cs : List Component} (hab : componentsLe as bs = true)
    (hbc : componentsLe bs cs = true) : componentsLe as cs = true := by
  induction as generalizing bs cs with
  | nil => rfl
  | cons a as ih =>
    cases bs with
    | nil => cases hab
    | cons b bs =>
      cases cs with
      | nil => cases hbc
      | cons c cs =>
        rw [componentsLe_cons] at *
        rcases hab with hab | ⟨rfl, hab⟩ <;> rcases hbc with hbc | ⟨rfl, hbc⟩
        · exact .inl (Component.lt_trans hab hbc)
        · exact .inl hab
        · exact .inl hbc
        · exact .inr ⟨rfl, ih hab hbc⟩

theorem componentsLe_total (as bs : List Component) :
    componentsLe as bs = true ∨ componentsLe bs as = true := by
  induction as generalizing bs with
  | nil => exact .inl rfl
  | cons a as ih =>
    cases bs with
    | nil => exact .inr rfl
    | cons b bs =>
      rw [componentsLe_cons, componentsLe_cons]
      rcases Component.lt_or_eq_or_lt a b with hab | rfl | hba
      · exact .inl (.inl hab)
      · exact (ih bs).imp (fun h => .inr ⟨rfl, h⟩) fun h => .inr ⟨rfl, h⟩
      · exact .inr (.inl hba)

theorem le_trans {p q r : String} (hpq : le p q = true) (hqr : le q r = true) : le p r = true :=
  componentsLe_trans hpq hqr

theorem le_total (p q : String) : le p q = true ∨ le q p = true := componentsLe_total _ _

end Path

namespace Disk

/-! ## Where a walk goes -/

/-- Every name of a disk is one that a file can have. -/
def Named (d : Disk) : Prop := ∀ e ∈ d.entries, ∀ name ∈ e.1, FileName name

instance (d : Disk) : Decidable d.Named := List.decidableBAll _ _

/-- The directories that a walk from a root enters, with the trail, the location and the path on which it does.
A directory on the trail is not entered through a link. -/
inductive Enters (d : Disk) (start : Location) (root : String) : Trail → Location → String → Prop
  | root : Enters d start root [(start, root)] start root
  | directory {trail : Trail} {loc : Location} {path name : String} :
      Enters d start root trail loc path → d.node? (loc ++ [name]) = some .directory →
      Enters d start root ((loc ++ [name], join path name) :: trail) (loc ++ [name]) (join path name)
  | link {trail : Trail} {loc l : Location} {path name target : String} :
      Enters d start root trail loc path → d.node? (loc ++ [name]) = some (.link target) →
      d.find (join path name) = .ok (l, .directory) → trail.path? l = none →
      Enters d start root ((l, join path name) :: trail) l (join path name)

/-- What a walk finds in the directories that it enters: files with the extension of contracts, links to such
files, links that lead nowhere, and links back to a directory on the trail. -/
inductive Contains (d : Disk) (start : Location) (root : String) : Found → Prop
  | file {trail : Trail} {loc : Location} {path name : String} {octets : List UInt8} :
      Enters d start root trail loc path → d.node? (loc ++ [name]) = some (.file octets) →
      isContractFile (join path name) = true → Contains d start root (.file (join path name))
  | linked {trail : Trail} {loc l : Location} {path name target : String} {node : Node} :
      Enters d start root trail loc path → d.node? (loc ++ [name]) = some (.link target) →
      d.find (join path name) = .ok (l, node) → node ≠ .directory →
      isContractFile (join path name) = true → Contains d start root (.file (join path name))
  | broken {trail : Trail} {loc : Location} {path name target : String} {fault : FileFault} :
      Enters d start root trail loc path → d.node? (loc ++ [name]) = some (.link target) →
      d.find (join path name) = .error fault →
      Contains d start root (.blocked (join path name) (.unreadable (join path name) fault))
  | loop {trail : Trail} {loc l : Location} {path name target ancestor : String} :
      Enters d start root trail loc path → d.node? (loc ++ [name]) = some (.link target) →
      d.find (join path name) = .ok (l, .directory) → trail.path? l = some ancestor →
      Contains d start root (.blocked (join path name) (.loop ancestor (join path name)))

/-- What a walk finds under one name of a directory. -/
def visitName (d : Disk) (trail : Trail) (loc : Location) (path name : String) : List Found :=
  match d.node? (loc ++ [name]) with
  | none => []
  | some (.file _) => Found.ofFile (join path name)
  | some .directory => d.visit ((loc ++ [name], join path name) :: trail) (loc ++ [name]) (join path name)
  | some (.link _) =>
    match d.find (join path name) with
    | .error fault => [.blocked (join path name) (.unreadable (join path name) fault)]
    | .ok (l, .directory) =>
      match trail.path? l with
      | some ancestor => [.blocked (join path name) (.loop ancestor (join path name))]
      | none => d.visit ((l, join path name) :: trail) l (join path name)
    | .ok _ => Found.ofFile (join path name)

theorem visit_eq (d : Disk) (trail : Trail) (loc : Location) (path : String) :
    d.visit trail loc path = (d.names loc).flatMap (d.visitName trail loc path) := by
  rw [visit]
  refine List.flatMap_congr fun name _ => ?_
  dsimp only
  rw [visitName]
  split
  · rename_i hnode
    rw [hnode]
  · rename_i hnode
    rw [hnode]
  · rename_i hnode
    rw [hnode]
  · rename_i hnode
    rw [hnode]
    dsimp only
    cases hfind : d.find (join path name) with
    | error fault => rfl
    | ok r =>
      obtain ⟨l, node⟩ := r
      have hl := (exists_leads_of_find hfind).2
      dsimp only
      by_cases hdir : node = .directory
      · subst hdir
        rw [dif_pos hl]
        dsimp only
        split
        · rename_i hoff
          rw [hoff]
        · rename_i hoff
          rw [hoff]
      · rw [dif_neg fun h => hdir (Option.some.inj (hl.symm.trans h))]
        cases node with
        | directory => exact absurd rfl hdir
        | _ => rfl

theorem mem_names {d : Disk} {loc : Location} {name : String} {node : Node}
    (h : d.node? (loc ++ [name]) = some node) : name ∈ d.names loc :=
  List.mem_eraseDups.2 (mem_entriesIn (mem_entries_of_node? (by simp) h) rfl)

theorem mem_visit_of_mem_visitName {d : Disk} {trail : Trail} {loc : Location} {path name : String}
    {node : Node} {f : Found} (hnode : d.node? (loc ++ [name]) = some node)
    (h : f ∈ d.visitName trail loc path name) : f ∈ d.visit trail loc path := by
  rw [visit_eq]
  exact List.mem_flatMap.2 ⟨name, mem_names hnode, h⟩

section

variable {d : Disk} {start : Location} {root : String}

theorem mem_ofFile {path : String} {f : Found} :
    f ∈ Found.ofFile path ↔ isContractFile path = true ∧ f = .file path := by
  rw [Found.ofFile]
  split <;> simp_all

/-- What is found in an entered directory and below it is what a walk has to find. -/
theorem contains_of_mem_visit {trail : Trail} {loc : Location} {path : String}
    (henters : Enters d start root trail loc path) {f : Found} (hf : f ∈ d.visit trail loc path) :
    Contains d start root f := by
  induction trail, loc, path using visit.induct d with
  | _ trail loc path ihdir ihlink =>
    rw [visit_eq] at hf
    obtain ⟨name, -, hf⟩ := List.mem_flatMap.1 hf
    rw [visitName] at hf
    split at hf
    · cases hf
    · rename_i octets hnode
      obtain ⟨hext, rfl⟩ := mem_ofFile.1 hf
      exact .file henters hnode hext
    · rename_i hnode
      exact ihdir name hnode (.directory henters hnode) hf
    · rename_i target hnode
      split at hf
      · rename_i fault hfind
        rw [List.mem_singleton.1 hf]
        exact .broken henters hnode hfind
      · rename_i l hfind
        split at hf
        · rename_i ancestor hon
          rw [List.mem_singleton.1 hf]
          exact .loop henters hnode hfind hon
        · rename_i hoff
          exact ihlink name l (exists_leads_of_find hfind).2 hoff (.link henters hnode hfind hoff) hf
      · rename_i r hdir hfind
        obtain ⟨hext, rfl⟩ := mem_ofFile.1 hf
        exact .linked henters hnode hfind (fun h => hdir r.1 (by rw [← h])) hext

/-- What is found below an entered directory is found by the walk. -/
theorem mem_visit_of_enters {trail : Trail} {loc : Location} {path : String}
    (henters : Enters d start root trail loc path) {f : Found} (hf : f ∈ d.visit trail loc path) :
    f ∈ d.visit [(start, root)] start root := by
  induction henters with
  | root => exact hf
  | directory _ hnode ih =>
    refine ih (mem_visit_of_mem_visitName hnode ?_)
    rwa [visitName, hnode]
  | link _ hnode hfind hoff ih =>
    refine ih (mem_visit_of_mem_visitName hnode ?_)
    rw [visitName, hnode, hfind]
    dsimp only
    rwa [hoff]

/-- A walk finds what there is to find, and nothing else. -/
theorem mem_visit_iff {f : Found} : f ∈ d.visit [(start, root)] start root ↔ Contains d start root f := by
  refine ⟨contains_of_mem_visit .root, ?_⟩
  rintro (⟨henters, hnode, hext⟩ | ⟨henters, hnode, hfind, hdir, hext⟩ | ⟨henters, hnode, hfind⟩ |
    ⟨henters, hnode, hfind, hon⟩)
  · refine mem_visit_of_enters henters (mem_visit_of_mem_visitName hnode ?_)
    rw [visitName, hnode]
    exact mem_ofFile.2 ⟨hext, rfl⟩
  · refine mem_visit_of_enters henters (mem_visit_of_mem_visitName hnode ?_)
    rename_i node
    rw [visitName, hnode, hfind]
    cases node with
    | directory => exact absurd rfl hdir
    | _ => exact mem_ofFile.2 ⟨hext, rfl⟩
  · refine mem_visit_of_enters henters (mem_visit_of_mem_visitName hnode ?_)
    rw [visitName, hnode, hfind]
    exact List.mem_singleton_self _
  · refine mem_visit_of_enters henters (mem_visit_of_mem_visitName hnode ?_)
    rw [visitName, hnode, hfind]
    dsimp only
    rw [hon]
    exact List.mem_singleton_self _

end

/-! ## Paths of what is found -/

theorem fileName_of_mem_names {d : Disk} (hnamed : d.Named) {loc : Location} {name : String}
    (h : name ∈ d.names loc) : FileName name := by
  obtain ⟨e, he, hname⟩ := List.mem_filterMap.1 (List.mem_eraseDups.1 h)
  split at hname
  · exact hnamed e he name (List.mem_of_getLast? hname)
  · cases hname

theorem join_ne_empty {path name : String} (hpath : path ≠ "") (hname : FileName name) :
    join path name ≠ "" := by
  intro h
  have hcomponents := components_join hpath hname
  rw [h] at hcomponents
  exact absurd hcomponents (by simp [show components "" = [] from rfl])

/-- The path of what is found under a name starts with this name. -/
theorem prefix_of_mem_visitName {d : Disk} (hnamed : d.Named) {trail : Trail} {loc : Location}
    {path name : String} (hpath : path ≠ "") (hname : name ∈ d.names loc) {f : Found}
    (hf : f ∈ d.visitName trail loc path name) : components (join path name) <+: components f.path := by
  induction trail, loc, path using visit.induct d generalizing name with
  | _ trail loc path ihdir ihlink =>
    have hjoin := join_ne_empty hpath (fileName_of_mem_names hnamed hname)
    -- what is found further down starts with a longer path
    have hbelow {name' : String} {l : Location} (hname' : name' ∈ d.names l)
        (hlonger : components (join (join path name) name') <+: components f.path) :
        components (join path name) <+: components f.path := by
      rw [components_join hjoin (fileName_of_mem_names hnamed hname')] at hlonger
      exact (List.prefix_append _ _).trans hlonger
    rw [visitName] at hf
    split at hf
    · cases hf
    · rw [(mem_ofFile.1 hf).2]
      exact List.prefix_rfl
    · rename_i hnode
      rw [visit_eq] at hf
      obtain ⟨name', hname', hf⟩ := List.mem_flatMap.1 hf
      exact hbelow hname' (ihdir name hnode hjoin hname' hf)
    · split at hf
      · rw [List.mem_singleton.1 hf]
        exact List.prefix_rfl
      · rename_i l hfind
        split at hf
        · rw [List.mem_singleton.1 hf]
          exact List.prefix_rfl
        · rename_i hoff
          rw [visit_eq] at hf
          obtain ⟨name', hname', hf⟩ := List.mem_flatMap.1 hf
          exact hbelow hname' (ihlink name l (exists_leads_of_find hfind).2 hoff hjoin hname' hf)
      · rw [(mem_ofFile.1 hf).2]
        exact List.prefix_rfl

/-- What is found under different names has different paths. -/
theorem disjoint_visitName {d : Disk} (hnamed : d.Named) {trail : Trail} {loc : Location}
    {path name name' : String} (hpath : path ≠ "") (hname : name ∈ d.names loc) (hname' : name' ∈ d.names loc)
    (hne : name ≠ name') : List.Disjoint ((d.visitName trail loc path name).map Found.path)
      ((d.visitName trail loc path name').map Found.path) := by
  intro p hp hp'
  obtain ⟨f, hf, rfl⟩ := List.mem_map.1 hp
  obtain ⟨g, hg, heq⟩ := List.mem_map.1 hp'
  have hpre := prefix_of_mem_visitName hnamed hpath hname hf
  have hpre' := prefix_of_mem_visitName hnamed hpath hname' hg
  rw [components_join hpath (fileName_of_mem_names hnamed hname)] at hpre
  rw [heq, components_join hpath (fileName_of_mem_names hnamed hname')] at hpre'
  have hsame := List.prefix_of_prefix_length_le hpre hpre' (by simp)
  have hsame := hsame.eq_of_length (by simp)
  exact hne (Component.name.inj (List.singleton_inj.1 (List.append_cancel_left hsame)))

theorem nodup_paths_ofFile (path : String) : ((Found.ofFile path).map Found.path).Nodup := by
  rw [Found.ofFile]
  split
  · exact List.nodup_singleton _
  · exact List.nodup_nil

theorem nodup_eraseDups (names : List String) : names.eraseDups.Nodup := by
  match names with
  | [] => exact List.nodup_nil
  | name :: names =>
    rw [List.eraseDups_cons, List.nodup_cons]
    exact ⟨by simp [List.mem_eraseDups], nodup_eraseDups _⟩
termination_by names.length
decreasing_by exact Nat.lt_succ_of_le (List.length_filter_le _ _)

/-- Nothing is found twice. -/
theorem nodup_paths_visit {d : Disk} (hnamed : d.Named) (trail : Trail) (loc : Location) {path : String}
    (hpath : path ≠ "") : ((d.visit trail loc path).map Found.path).Nodup := by
  induction trail, loc, path using visit.induct d with
  | _ trail loc path ihdir ihlink =>
    rw [visit_eq, List.map_flatMap, List.nodup_flatMap]
    constructor
    · intro name hname
      have hjoin := join_ne_empty hpath (fileName_of_mem_names hnamed hname)
      rw [visitName]
      split
      · exact List.nodup_nil
      · exact nodup_paths_ofFile _
      · rename_i hnode
        exact ihdir name hnode hjoin
      · split
        · exact List.nodup_singleton _
        · rename_i l hfind
          split
          · exact List.nodup_singleton _
          · rename_i hoff
            exact ihlink name l (exists_leads_of_find hfind).2 hoff hjoin
        · exact nodup_paths_ofFile _
    · refine List.Pairwise.imp_of_mem ?_ (nodup_eraseDups _)
      intro name name' hname hname' hne
      exact disjoint_visitName hnamed hpath hname hname' hne

/-- A walk from a directory finds what is in it, each thing once and in the order of paths. -/
theorem exists_walk {d : Disk} (hnamed : d.Named) {root : String} {start : Location}
    (hroot : d.find root = .ok (start, .directory)) :
    ∃ found, d.walk root = .ok found ∧ (∀ f, f ∈ found ↔ Contains d start root f) ∧
      (found.map Found.path).Nodup ∧ found.Pairwise fun f g => le f.path g.path = true := by
  let inOrder (f g : Found) : Bool := le f.path g.path
  have hperm := List.mergeSort_perm (d.visit [(start, root)] start root) inOrder
  have htrans (f g h : Found) : inOrder f g = true → inOrder g h = true → inOrder f h = true := le_trans
  have htotal (f g : Found) : (inOrder f g || inOrder g f) = true :=
    Bool.or_eq_true_iff.2 (le_total f.path g.path)
  refine ⟨_, by rw [walk, hroot], fun f => hperm.mem_iff.trans mem_visit_iff, ?_, ?_⟩
  · exact (hperm.map Found.path).nodup_iff.2 (nodup_paths_visit hnamed _ _ (ne_empty_of_find hroot))
  · exact List.pairwise_mergeSort htrans htotal _

end Disk

end Covenant
