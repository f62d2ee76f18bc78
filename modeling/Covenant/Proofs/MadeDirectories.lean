import Covenant.Proofs.StepsOfPaths
import Covenant.Proofs.Ways

/-!
# Directories that are made

* `Disk.MoreDirectories`: a disk on which only directories have been made;
* `Disk.MakesAt`: what it means to make one;
* `Disk.exists_ensureDirectory`, `Disk.makesAt_or_isDirectory`: what has been done when directories can be
  counted on;
* `Disk.ensureFirst_induction`: what each directory that is made keeps, making all of them keeps;
* `Disk.moreDirectories_makeDirectories`: a directory is made with those above it, and nothing else is done;
* `Disk.ensureFirst_eq_self_or`: without steps up, nothing stands in a directory that is made;
* `Disk.makeDirectories_eq_self`, `Disk.makeDirectories_of_isDirectory`: when nothing at all is made;
* `Disk.exists_leads_of_makeDirectories`: the path leads somewhere then.
-/

namespace Covenant

open Covenant.Path

namespace Disk

/-! ## Making directories -/

/-- A disk on which only directories have been made. -/
structure MoreDirectories (d d' : Disk) : Prop where
  workingDirectory : d'.workingDirectory = d.workingDirectory
  node? : ∀ loc, d'.node? loc = d.node? loc ∨ d.node? loc = none ∧ d'.node? loc = some .directory

theorem MoreDirectories.refl (d : Disk) : d.MoreDirectories d := ⟨rfl, fun _ => .inl rfl⟩

theorem MoreDirectories.extends {d d' : Disk} (h : d.MoreDirectories d') : d.Extends d' where
  workingDirectory := h.workingDirectory
  node? loc node hnode := by
    rcases h.node? loc with hsame | ⟨hnone, -⟩
    · rw [hsame, hnode]
    · rw [hnone] at hnode
      cases hnode

theorem MoreDirectories.trans {d d' d'' : Disk} (h : d.MoreDirectories d') (h' : d'.MoreDirectories d'') :
    d.MoreDirectories d'' where
  workingDirectory := h'.workingDirectory.trans h.workingDirectory
  node? loc := by
    rcases h'.node? loc with hsame | ⟨hnone, hdir⟩
    · rw [hsame]
      exact h.node? loc
    · rcases h.node? loc with hsame | ⟨-, hdir'⟩
      · exact .inr ⟨hsame ▸ hnone, hdir⟩
      · rw [hnone] at hdir'
        cases hdir'

/-- A directory is made under a free name, where the other steps of a path lead. -/
structure MakesAt (d d' : Disk) (path : String) (loc : Location) (name : String) : Prop where
  disk : d' = d.put (loc ++ [name]) .directory
  directory : d.hasDirectory loc = true
  free : d.node? (loc ++ [name]) = none
  short : ¬ name.utf8ByteSize > nameLimit
  leads : ∃ cs n, steps (trimSlashes path) = cs ++ [.name name] ∧ Leads d linkLimit d.workingDirectory cs n loc

theorem exists_makesAt {d d' : Disk} {path : String} (h : d.makeDirectory path = .ok d') :
    ∃ loc name, d.MakesAt d' path loc name := by
  rw [makeDirectory] at h
  split at h
  · rename_i loc name hlocate
    cases h
    obtain ⟨-, hfollow⟩ := place_eq_ok_iff.1 hlocate
    obtain ⟨hdir, hsize, hfree⟩ := free_of_follow hfollow
    exact ⟨loc, name, rfl, hdir, hfree, hsize, exists_leads_of_free hfollow⟩
  · cases h
  · cases h

section

variable {d d' : Disk} {path name : String} {loc : Location}

theorem MakesAt.extends (h : d.MakesAt d' path loc name) : d.Extends d' := by
  rw [h.disk]
  exact extends_put h.free _

theorem MakesAt.moreDirectories (h : d.MakesAt d' path loc name) : d.MoreDirectories d' where
  workingDirectory := h.extends.workingDirectory
  node? l := by
    rw [h.disk]
    by_cases hl : l = loc ++ [name]
    · rw [hl]
      exact .inr ⟨h.free, node?_put_self (by simp) _⟩
    · exact .inl (node?_put_of_ne hl _)

theorem MakesAt.closed (h : d.MakesAt d' path loc name) (hclosed : d.Closed) : d'.Closed := by
  intro l hl
  rcases h.moreDirectories.node? l with hsame | ⟨hnone, -⟩
  · exact h.extends.hasDirectory (hclosed l (hsame ▸ hl))
  · -- only the new directory was not there before
    have hloc : l = loc ++ [name] := by
      by_contra hne
      rw [h.disk, node?_put_of_ne hne] at hl
      exact hl hnone
    rw [hloc, List.dropLast_concat]
    exact h.extends.hasDirectory h.directory

/-- The path leads to the new directory. -/
theorem MakesAt.leads_self (h : d.MakesAt d' path loc name) :
    ∃ n, Leads d' linkLimit d'.workingDirectory (steps (trimSlashes path)) n (loc ++ [name]) := by
  obtain ⟨cs, n, hsteps, hleads⟩ := h.leads
  have hnode : d'.node? (loc ++ [name]) = some .directory := by
    rw [h.disk]
    exact node?_put_self (by simp) _
  refine ⟨n, ?_⟩
  rw [hsteps, h.extends.workingDirectory]
  refine (h.extends.leads hleads).append ?_
  exact .name (h.extends.hasDirectory h.directory) h.short hnode nofun (.done _ _)

end

/-- A directory that can be counted on afterwards was made, or was there. -/
theorem makesAt_or_isDirectory {d d' : Disk} {path : String} (h : d.ensureDirectory path = (d', .ok ())) :
    (∃ loc name, d.MakesAt d' path loc name) ∨ d' = d ∧ d.isDirectory path = true := by
  rw [ensureDirectory] at h
  split at h
  · rename_i made hmake
    cases h
    exact .inl (exists_makesAt hmake)
  · split at h
    · rename_i hdir
      cases h
      exact .inr ⟨rfl, hdir⟩
    · cases h

/-- Before the first of several directories come those above it, if it cannot be made without them. -/
theorem exists_ensureDirectory {d d' : Disk} {path : String} {above : List String}
    (h : d.ensureFirst (path :: above) = (d', .ok ())) :
    ∃ d₁, (d₁ = d ∨ d.ensureFirst above = (d₁, .ok ())) ∧ d₁.ensureDirectory path = (d', .ok ()) := by
  rw [ensureFirst] at h
  split at h
  · split at h
    · rename_i d₁ hd₁
      exact ⟨d₁, .inr hd₁, h⟩
    · rename_i hfailed
      exact absurd h (hfailed d')
  · exact ⟨d, .inl rfl, h⟩

/-- What holds before and is kept by each directory that is made, holds when all of them are made. -/
theorem ensureFirst_induction {p : Disk → Prop}
    (hmake : ∀ {d d' : Disk} {path : String}, p d → d.makeDirectory path = .ok d' → p d') {d : Disk} (h : p d)
    (paths : List String) : p (d.ensureFirst paths).1 := by
  have hensure {d : Disk} (path : String) (h : p d) : p (d.ensureDirectory path).1 := by
    rw [ensureDirectory]
    split
    · rename_i d' hd'
      exact hmake h hd'
    · exact h
  induction paths with
  | nil => exact h
  | cons path above ih =>
    rw [ensureFirst]
    split
    · split
      · rename_i d' habove
        rw [habove] at ih
        exact hensure path ih
      · exact ih
    · exact hensure path h

theorem Closed.ensureFirst {d : Disk} (hclosed : d.Closed) (paths : List String) :
    (d.ensureFirst paths).1.Closed := by
  refine ensureFirst_induction (p := Disk.Closed) (fun hclosed hmake => ?_) hclosed paths
  obtain ⟨loc, name, hat⟩ := exists_makesAt hmake
  exact hat.closed hclosed

/-- Making a directory with those above it does nothing else. -/
theorem moreDirectories_makeDirectories (d : Disk) (path : String) :
    d.MoreDirectories (d.makeDirectories path).1 := by
  rw [makeDirectories]
  split
  · exact .refl d
  · refine ensureFirst_induction (p := d.MoreDirectories) (fun h hmake => ?_) (.refl d) _
    obtain ⟨loc, name, hat⟩ := exists_makesAt hmake
    exact h.trans hat.moreDirectories

/-! ## Directories in which nothing stands -/

/-- Steps end with a name and lead to a directory in which nothing stands. -/
def LeadsToNew (d : Disk) (cs : List Component) : Prop :=
  (∃ cs' name, cs = cs' ++ [.name name]) ∧
    ∃ n l, Leads d linkLimit d.workingDirectory cs n l ∧ ∀ name, d.node? (l ++ [name]) = none

/-- Nothing stands in a directory that is made. -/
theorem MakesAt.leadsToNew {d d' : Disk} {path name : String} {loc : Location} (h : d.MakesAt d' path loc name)
    (hclosed : d.Closed) : d'.LeadsToNew (cleanSteps path) := by
  obtain ⟨cs, -, hsteps, -⟩ := h.leads
  obtain ⟨n, hleads⟩ := h.leads_self
  refine ⟨⟨cs.filter (· ≠ .here), name, ?_⟩, n, loc ++ [name], ?_, fun s => ?_⟩
  · rw [← filter_steps_trimSlashes, hsteps, List.filter_append]
    rfl
  · rw [← filter_steps_trimSlashes]
    exact hleads.clean
  · rw [h.disk, node?_put_of_ne (by simp)]
    by_contra hnode
    have hdir := hclosed _ hnode
    rw [List.dropLast_concat, hasDirectory, h.free] at hdir
    cases hdir

theorem LeadsToNew.not_leads {d : Disk} {cs : List Component} {name : String} {n : Nat} {l : Location}
    (h : d.LeadsToNew cs) : ¬ Leads d linkLimit d.workingDirectory (cs ++ [.name name]) n l := by
  intro hway
  obtain ⟨-, n', l', hleads, hbare⟩ := h
  obtain ⟨n₁, l₁, hinit, hstep⟩ := hway.exists_of_append
  obtain ⟨rfl, rfl⟩ := hleads.unique hinit
  obtain ⟨node, hnode⟩ := hstep.exists_of_name
  rw [hbare name] at hnode
  cases hnode

/-- A path that takes one more step, to a name, leads to no directory. -/
theorem LeadsToNew.not_isDirectory {d : Disk} {path : String} {cs : List Component}
    (h : d.LeadsToNew cs.dropLast) (hclean : cleanSteps path = cs)
    (hnames : ∀ c ∈ cs.tail, ∃ name, c = .name name) : ¬ d.isDirectory path = true := by
  intro hdir
  obtain ⟨cs', name, hcs'⟩ := h.1
  obtain rfl | ⟨init, c, rfl⟩ := List.eq_nil_or_concat' cs
  · simp at hcs'
  rw [List.dropLast_concat] at hcs' h
  subst hcs'
  obtain ⟨s, rfl⟩ := hnames c (by cases cs' <;> simp)
  obtain ⟨loc, hfind⟩ := exists_find_of_isDirectory hdir
  obtain ⟨⟨n, hway⟩, -⟩ := exists_leads_of_find hfind
  have hway := hway.clean
  rw [← cleanSteps, hclean] at hway
  exact h.not_leads hway

/-- Where all steps but the first are to names, nothing is made, or a directory in which nothing stands. -/
theorem ensureFirst_eq_self_or {d d' : Disk} {paths : List String} {cs : List Component}
    (hclosed : d.Closed) (habove : Ascends paths cs) (hnames : ∀ c ∈ cs.tail, ∃ name, c = .name name)
    (hmake : d.ensureFirst paths = (d', .ok ())) : d' = d ∨ d'.LeadsToNew cs := by
  induction habove generalizing d' with
  | nil =>
    cases hmake
    exact .inl rfl
  | @cons path above cs hclean habove ih =>
    obtain ⟨d₁, hd₁, hensure⟩ := exists_ensureDirectory hmake
    have hclosed₁ : d₁.Closed := by
      rcases hd₁ with rfl | hd₁
      · exact hclosed
      · have hkept := hclosed.ensureFirst above
        rwa [hd₁] at hkept
    rcases makesAt_or_isDirectory hensure with ⟨loc, name, hat⟩ | ⟨rfl, hdir⟩
    · -- a directory that is made last is the one in which nothing stands
      exact .inr (hclean ▸ hat.leadsToNew hclosed₁)
    · rcases hd₁ with rfl | hd₁
      · exact .inl rfl
      · have hnames' : ∀ c ∈ cs.dropLast.tail, ∃ name, c = .name name := by
          rw [List.tail_dropLast]
          exact fun c hc => hnames c ((List.dropLast_sublist _).mem hc)
        rcases ih hnames' hd₁ with rfl | hnew
        · exact .inl rfl
        · exact absurd hdir (hnew.not_isDirectory hclean hnames)

/-- Without steps up, nothing stands below a directory that had to be made. -/
theorem makeDirectories_eq_self {d d' : Disk} {directory name : String} (hclosed : d.Closed)
    (hup : .up ∉ components directory) (hmake : d.makeDirectories directory = (d', .ok ()))
    (hname : FileName name) (hnode : d'.hasNode (join directory name) = true) : d' = d := by
  rw [makeDirectories] at hmake
  split at hmake
  · cases hmake
    rfl
  · have hnames := fun c hc => exists_name_of_mem_tail hup (c := c) hc
    rcases ensureFirst_eq_self_or hclosed (ascends_withAncestors directory) hnames hmake with rfl | hnew
    · rfl
    · obtain ⟨loc, node, hfind⟩ := exists_find_of_hasNode hnode
      obtain ⟨⟨n, hway⟩, -⟩ := exists_leads_of_find hfind
      have hway := hway.clean
      rw [ownSteps_join directory hname, List.filter_append] at hway
      exact absurd hway hnew.not_leads

/-! ## Directories that are there -/

theorem Admissible.trimSlashes {path : String} (h : Admissible path) : Admissible (Path.trimSlashes path) := by
  obtain ⟨slashes, hpath, -, hempty⟩ := exists_trimSlashes path
  have happend : path = Path.trimSlashes path ++ String.ofList slashes :=
    String.toList_injective (by rw [String.toList_append, String.toList_ofList, hpath])
  refine ⟨?_, ?_, fun hsize => h.short ?_⟩
  · have hzero := h.noZero
    rw [hpath, List.contains_append, Bool.or_eq_false_iff] at hzero
    exact hzero.1
  · rw [Bool.eq_false_iff]
    intro htrim
    have hne := h.ne_empty
    rw [hempty (by simpa using htrim)] at hne
    cases hne
  · rw [happend, String.utf8ByteSize_append]
    omega

/-- Where there is a directory, none is made. -/
theorem makeDirectories_of_isDirectory {d : Disk} {path : String} (h : d.isDirectory path = true) :
    d.makeDirectories path = (d, .ok ()) := by
  obtain ⟨loc, hfind⟩ := exists_find_of_isDirectory h
  obtain ⟨⟨n, hleads⟩, hnode⟩ := exists_leads_of_find hfind
  have hadm := (place_eq_ok_iff.1 (find_eq_ok_iff.1 hfind)).1
  have hway : Leads d linkLimit d.workingDirectory (steps (trimSlashes path)) n loc := by
    rw [← ownSteps_trimSlashes] at hleads
    rcases steps_eq_ownSteps (trimSlashes path) with hsteps | hsteps
    · rwa [hsteps]
    · rw [hsteps]
      exact hleads.append (.here (by rw [hasDirectory, hnode, beq_self_eq_true]) (.done n loc))
  have hmake : d.makeDirectory path = .error .exists := by
    obtain ⟨l, node, hfollow⟩ := hway.exists_follow hnode
    rw [makeDirectory, locate, place_of_admissible hadm.trimSlashes, hfollow]
  rw [makeDirectories, hadm.ne_empty, if_neg (by decide), withAncestors, ensureFirst, hmake, ensureDirectory,
    hmake]
  dsimp only
  rw [h, if_pos rfl]

theorem exists_leads_of_ensureDirectory {d d' : Disk} {path : String}
    (hensure : d.ensureDirectory path = (d', .ok ())) :
    ∃ n l, Leads d' linkLimit d'.workingDirectory (ownSteps path) n l := by
  rcases makesAt_or_isDirectory hensure with ⟨loc, name, hat⟩ | ⟨rfl, hdir⟩
  · obtain ⟨n, hleads⟩ := hat.leads_self
    rw [← ownSteps_trimSlashes]
    rcases steps_eq_ownSteps (trimSlashes path) with hsteps | hsteps
    · rw [hsteps] at hleads
      exact ⟨n, _, hleads⟩
    · rw [hsteps] at hleads
      obtain ⟨n', l', hway, -⟩ := hleads.exists_of_append
      exact ⟨n', l', hway⟩
  · obtain ⟨loc, hfind⟩ := exists_find_of_isDirectory hdir
    obtain ⟨⟨n, hleads⟩, -⟩ := exists_leads_of_find hfind
    exact ⟨n, loc, hleads⟩

/-- A path leads somewhere when its directory has been made. -/
theorem exists_leads_of_makeDirectories {d d' : Disk} {path : String}
    (hmake : d.makeDirectories path = (d', .ok ())) :
    ∃ n l, Leads d' linkLimit d'.workingDirectory (ownSteps path) n l := by
  rw [makeDirectories] at hmake
  split at hmake
  · rename_i hempty
    have hpath : path = "" := by simpa using hempty
    rw [hpath]
    exact ⟨_, _, .done _ _⟩
  · obtain ⟨d₁, -, hensure⟩ := exists_ensureDirectory hmake
    exact exists_leads_of_ensureDirectory hensure

end Disk

end Covenant
