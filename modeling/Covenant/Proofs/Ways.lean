import Covenant.Proofs.Directories

/-!
# Steps and where they lead

* `Disk.Leads.unique`: steps lead to one location;
* `Disk.Leads.append`, `Disk.Leads.exists_of_append`: steps that are taken one after the other;
* `Disk.Leads.clean`: steps that stay where they are can be left out;
* `Disk.Leads.exists_follow`: where steps lead somewhere, they can be followed as the place of a link too;
* `Disk.free_of_follow`, `Disk.exists_leads_of_free`: steps that end at a free name.
-/

namespace Covenant

open Covenant.Path

namespace Disk

/-! ## Locations -/

/-- Steps lead to one location. -/
theorem Leads.unique {d : Disk} {links n n' : Nat} {loc l l' : Location} {cs : List Component}
    (h : Leads d links loc cs n l) (h' : Leads d links loc cs n' l') : n = n' ∧ l = l' := by
  induction h with
  | done =>
    cases h'
    exact ⟨rfl, rfl⟩
  | root _ ih =>
    cases h' with
    | root h' => exact ih h'
  | here _ _ ih =>
    cases h' with
    | here _ h' => exact ih h'
  | up _ _ ih =>
    cases h' with
    | up _ h' => exact ih h'
  | link _ _ hnode _ _ ih =>
    cases h' with
    | link _ _ hnode' _ h' =>
      cases hnode.symm.trans hnode'
      exact ih h'
    | name _ _ hnode' hlink _ =>
      cases hnode.symm.trans hnode'
      exact absurd rfl (hlink _)
  | name _ _ hnode hlink _ ih =>
    cases h' with
    | link _ _ hnode' _ _ =>
      cases hnode.symm.trans hnode'
      exact absurd rfl (hlink _)
    | name _ _ _ _ h' => exact ih h'

theorem Leads.append {d : Disk} {links n n' : Nat} {loc l l' : Location} {cs cs' : List Component}
    (h : Leads d links loc cs n l) (h' : Leads d n l cs' n' l') : Leads d links loc (cs ++ cs') n' l' := by
  induction h with
  | done => exact h'
  | root _ ih => exact .root (ih h')
  | here hdir _ ih => exact .here hdir (ih h')
  | up hdir _ ih => exact .up hdir (ih h')
  | link hdir hsize hnode htarget _ ih =>
    rw [List.cons_append]
    refine .link hdir hsize hnode htarget ?_
    rw [← List.append_assoc]
    exact ih h'
  | name hdir hsize hnode hlink _ ih => exact .name hdir hsize hnode hlink (ih h')

/-- Steps that lead somewhere lead to another location on the way. -/
theorem Leads.exists_of_append {d : Disk} {links n : Nat} {loc l : Location} {cs cs' : List Component}
    (h : Leads d links loc (cs ++ cs') n l) :
    ∃ n' l', Leads d links loc cs n' l' ∧ Leads d n' l' cs' n l := by
  generalize hall : cs ++ cs' = all at h
  induction h generalizing cs with
  | done =>
    obtain ⟨rfl, rfl⟩ := List.append_eq_nil_iff.1 hall
    exact ⟨_, _, .done _ _, .done _ _⟩
  | root hleads ih =>
    rcases List.append_eq_cons_iff.1 hall with ⟨rfl, rfl⟩ | ⟨cs, rfl, htail⟩
    · exact ⟨_, _, .done _ _, .root hleads⟩
    · obtain ⟨n', l', hfirst, hrest⟩ := ih htail.symm
      exact ⟨n', l', .root hfirst, hrest⟩
  | here hdir hleads ih =>
    rcases List.append_eq_cons_iff.1 hall with ⟨rfl, rfl⟩ | ⟨cs, rfl, htail⟩
    · exact ⟨_, _, .done _ _, .here hdir hleads⟩
    · obtain ⟨n', l', hfirst, hrest⟩ := ih htail.symm
      exact ⟨n', l', .here hdir hfirst, hrest⟩
  | up hdir hleads ih =>
    rcases List.append_eq_cons_iff.1 hall with ⟨rfl, rfl⟩ | ⟨cs, rfl, htail⟩
    · exact ⟨_, _, .done _ _, .up hdir hleads⟩
    · obtain ⟨n', l', hfirst, hrest⟩ := ih htail.symm
      exact ⟨n', l', .up hdir hfirst, hrest⟩
  | link hdir hsize hnode htarget hleads ih =>
    rcases List.append_eq_cons_iff.1 hall with ⟨rfl, rfl⟩ | ⟨cs, rfl, rfl⟩
    · exact ⟨_, _, .done _ _, .link hdir hsize hnode htarget hleads⟩
    · obtain ⟨n', l', hfirst, hrest⟩ := ih (List.append_assoc _ _ _)
      exact ⟨n', l', .link hdir hsize hnode htarget hfirst, hrest⟩
  | name hdir hsize hnode hlink hleads ih =>
    rcases List.append_eq_cons_iff.1 hall with ⟨rfl, rfl⟩ | ⟨cs, rfl, htail⟩
    · exact ⟨_, _, .done _ _, .name hdir hsize hnode hlink hleads⟩
    · obtain ⟨n', l', hfirst, hrest⟩ := ih htail.symm
      exact ⟨n', l', .name hdir hsize hnode hlink hfirst, hrest⟩

/-- Of the last steps, those that stay where they are can be left out. -/
theorem Leads.filter_here {d : Disk} {links n : Nat} {loc l : Location} {cs cs' : List Component}
    (h : Leads d links loc (cs ++ cs') n l) : Leads d links loc (cs ++ cs'.filter (· ≠ .here)) n l := by
  generalize hall : cs ++ cs' = all at h
  induction h generalizing cs cs' with
  | done =>
    obtain ⟨rfl, rfl⟩ := List.append_eq_nil_iff.1 hall
    exact .done _ _
  | root _ ih =>
    rcases List.append_eq_cons_iff.1 hall with ⟨rfl, rfl⟩ | ⟨cs, rfl, htail⟩
    · exact .root (@ih [] _ rfl)
    · exact .root (ih htail.symm)
  | here hdir _ ih =>
    rcases List.append_eq_cons_iff.1 hall with ⟨rfl, rfl⟩ | ⟨cs, rfl, htail⟩
    · have hrest := @ih [] _ rfl
      exact hrest
    · exact .here hdir (ih htail.symm)
  | up hdir _ ih =>
    rcases List.append_eq_cons_iff.1 hall with ⟨rfl, rfl⟩ | ⟨cs, rfl, htail⟩
    · exact .up hdir (@ih [] _ rfl)
    · exact .up hdir (ih htail.symm)
  | link hdir hsize hnode htarget _ ih =>
    rcases List.append_eq_cons_iff.1 hall with ⟨rfl, rfl⟩ | ⟨cs, rfl, rfl⟩
    · exact .link hdir hsize hnode htarget (ih rfl)
    · rw [List.cons_append]
      refine .link hdir hsize hnode htarget ?_
      rw [← List.append_assoc]
      exact ih (List.append_assoc _ _ _)
  | name hdir hsize hnode hlink _ ih =>
    rcases List.append_eq_cons_iff.1 hall with ⟨rfl, rfl⟩ | ⟨cs, rfl, htail⟩
    · exact .name hdir hsize hnode hlink (@ih [] _ rfl)
    · exact .name hdir hsize hnode hlink (ih htail.symm)

/-- Where steps end at a free name, its directory is there. -/
theorem free_of_follow {d : Disk} {through : Bool} {links : Nat} {loc l : Location} {s : String}
    {cs : List Component} (h : d.follow through links loc cs = .ok (.free l s)) :
    d.hasDirectory l = true ∧ ¬ s.utf8ByteSize > nameLimit ∧ d.node? (l ++ [s]) = none := by
  fun_induction follow d through links loc cs with
  | case10 links loc name cs hdir hsize hnode _ =>
    cases h
    exact ⟨by simpa using hdir, hsize, hnode⟩
  | case3 _ _ _ ih | case4 _ _ _ _ ih | case6 _ _ _ _ ih | case15 _ _ _ _ _ _ _ _ _ _ ih
  | case16 _ _ _ _ _ _ _ _ _ ih => exact ih h
  | _ => cases h

/-- The other steps lead to this directory, if a link at the end is not followed. -/
theorem exists_leads_of_free {d : Disk} {links : Nat} {loc l : Location} {s : String} {cs : List Component}
    (h : d.follow false links loc cs = .ok (.free l s)) :
    ∃ cs' n, cs = cs' ++ [.name s] ∧ Leads d links loc cs' n l := by
  generalize hthrough : false = through at h
  fun_induction follow d through links loc cs with
  | case3 links loc cs ih =>
    obtain ⟨cs', n, rfl, hleads⟩ := ih h
    exact ⟨.root :: cs', n, rfl, .root hleads⟩
  | case4 links loc cs hdir ih =>
    obtain ⟨cs', n, rfl, hleads⟩ := ih h
    exact ⟨.here :: cs', n, rfl, .here hdir hleads⟩
  | case6 links loc cs hdir ih =>
    obtain ⟨cs', n, rfl, hleads⟩ := ih h
    exact ⟨.up :: cs', n, rfl, .up hdir hleads⟩
  | case10 links loc name cs hdir hsize hnode hend =>
    cases h
    obtain rfl := List.isEmpty_iff.1 hend
    exact ⟨[], links, rfl, .done links _⟩
  | case15 loc name cs hdir hsize target hnode hend htarget links ih =>
    obtain ⟨cs', n, hsteps, hleads⟩ := ih h
    have hne : cs ≠ [] := by
      rintro rfl
      exact hend (by simp [← hthrough])
    -- the last step is one behind the link
    have hlast : cs = cs.dropLast ++ [.name s] := by
      have hsame := congrArg List.getLast? hsteps
      rw [List.getLast?_append_of_ne_nil _ hne, List.getLast?_concat] at hsame
      exact (List.dropLast_append_getLast? _ hsame).symm
    refine ⟨.name name :: cs.dropLast, n, by rw [List.cons_append, ← hlast], ?_⟩
    refine .link (by simpa using hdir) hsize hnode (by simpa using htarget) ?_
    rw [hlast, ← List.append_assoc] at hsteps
    rwa [List.append_cancel_right hsteps]
  | case16 links loc name cs hdir hsize node hlink hnode ih =>
    obtain ⟨cs', n, rfl, hleads⟩ := ih h
    exact ⟨.name name :: cs', n, rfl, .name (by simpa using hdir) hsize hnode hlink hleads⟩
  | _ => cases h

theorem Leads.clean {d : Disk} {links n : Nat} {loc l : Location} {cs : List Component}
    (h : Leads d links loc cs n l) : Leads d links loc (cs.filter (· ≠ .here)) n l :=
  @Leads.filter_here d links n loc l [] cs h

theorem Leads.exists_of_name {d : Disk} {links n : Nat} {loc l : Location} {name : String}
    (h : Leads d links loc [.name name] n l) : ∃ node, d.node? (loc ++ [name]) = some node := by
  cases h with
  | link _ _ hnode => exact ⟨_, hnode⟩
  | name _ _ hnode => exact ⟨_, hnode⟩

/-- Steps that lead to a node are followed to a node too if a link at the end is not. -/
theorem Leads.exists_follow {d : Disk} {links n : Nat} {loc l : Location} {cs : List Component}
    (h : Leads d links loc cs n l) {node : Node} (hnode : d.node? l = some node) :
    ∃ l' node', d.follow false links loc cs = .ok (.node l' node') := by
  induction h with
  | done =>
    rw [follow, hnode]
    exact ⟨_, _, rfl⟩
  | root _ ih =>
    rw [follow]
    exact ih hnode
  | here hdir _ ih =>
    rw [follow, if_pos hdir]
    exact ih hnode
  | up hdir _ ih =>
    rw [follow, if_pos hdir]
    exact ih hnode
  | @link _ _ _ _ _ _ cs hdir hsize hlink htarget _ ih =>
    rw [follow, if_neg (by simpa using hdir), if_neg hsize, hlink]
    dsimp only
    cases cs with
    | nil => exact ⟨_, _, rfl⟩
    | cons c cs =>
      rw [List.isEmpty_cons, Bool.false_and, if_neg (by decide), htarget, if_neg (by decide)]
      exact ih hnode
  | @name _ _ _ _ _ next cs hdir hsize hnext hlink _ ih =>
    rw [follow, if_neg (by simpa using hdir), if_neg hsize, hnext]
    cases next with
    | link target => exact absurd rfl (hlink target)
    | _ => exact ih hnode

theorem exists_find_of_isDirectory {d : Disk} {path : String} (h : d.isDirectory path = true) :
    ∃ loc, d.find path = .ok (loc, .directory) := by
  rw [isDirectory] at h
  split at h
  · rename_i loc hfind
    exact ⟨loc, hfind⟩
  · cases h

theorem exists_find_of_hasNode {d : Disk} {path : String} (h : d.hasNode path = true) :
    ∃ loc node, d.find path = .ok (loc, node) := by
  rw [hasNode] at h
  cases hfind : d.find path with
  | error fault =>
    rw [hfind] at h
    cases h
  | ok r => exact ⟨r.1, r.2, rfl⟩

theorem Extends.trans {d d' d'' : Disk} (h : d.Extends d') (h' : d'.Extends d'') : d.Extends d'' where
  workingDirectory := h'.workingDirectory.trans h.workingDirectory
  node? loc node hnode := h'.node? loc node (h.node? loc node hnode)

end Disk

end Covenant
