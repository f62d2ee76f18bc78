import Covenant.Proofs.FreshNames
import Covenant.Proofs.JoinedPaths

/-!
# Files of contracts

Whatever the names of contracts are, each contract gets a file of its own in the directory.

* `ContractFile`: the path of a file that lies directly in a directory and is named portably;
* `nodup_lowerText_joined`: paths in one directory are as different as the names of their files;
* `contractTargets_inTurn`: the files are named one after the other, in the order of the contracts.
-/

namespace Covenant

open Covenant.Text Covenant.Path StateTransition

/-! ## Names inside a directory -/

/-- The path of a file for a contract. It is a name in the directory, of letters, digits and the marks that file
names may have everywhere, with the extension that contracts are read by. -/
structure ContractFile (directory stem path : String) : Prop where
  path_eq : path = join directory (stem ++ ".yaml")
  directly : components path = components directory ++ [.name (stem ++ ".yaml")]
  portable : ∀ c ∈ (stem ++ ".yaml").toList, isPortable c = true

theorem contractFile_join (directory : String) {stem : String} (h : ∀ c ∈ stem.toList, isPortable c = true) :
    ContractFile directory stem (join directory (stem ++ ".yaml")) := by
  have hname : FileName (stem ++ ".yaml") := fileName_yaml fun hslash => absurd (h '/' hslash) (by decide)
  refine ⟨rfl, ?_, ?_⟩
  · by_cases hdir : directory = ""
    · subst hdir
      have hjoin : join "" (stem ++ ".yaml") = stem ++ ".yaml" := by simp [join]
      rw [hjoin, components_fileName hname]
      rfl
    · exact components_join hdir hname
  · have hyaml : ".yaml".toList.all isPortable = true := by decide
    intro c hc
    rw [String.toList_append] at hc
    rcases List.mem_append.1 hc with hstem | hend
    · exact h c hstem
    · exact List.all_eq_true.1 hyaml c hend

/-! ## Paths without the case of letters -/

theorem lowerText_append (s t : String) : lowerText (s ++ t) = lowerText s ++ lowerText t := by
  simp [lowerText]

/-- A path in a directory is that of the directory with the name behind it. -/
theorem exists_join_eq_append (directory : String) : ∃ front, ∀ name, join directory name = front ++ name := by
  by_cases h : (directory.isEmpty || endsWithSlash directory) = true
  · exact ⟨directory, fun name => if_pos h⟩
  · exact ⟨directory ++ "/", fun name => if_neg h⟩

/-- Files of one directory whose names differ in more than the case of letters have paths that do. -/
theorem nodup_lowerText_joined (directory : String) {stems : List String} (h : (stems.map lowerText).Nodup) :
    ((stems.map fun s => join directory (s ++ ".yaml")).map lowerText).Nodup := by
  obtain ⟨front, hfront⟩ := exists_join_eq_append directory
  have hlower : ∀ s, lowerText (join directory (s ++ ".yaml")) =
      lowerText front ++ (lowerText s ++ lowerText ".yaml") := by
    intro s
    rw [hfront, lowerText_append, lowerText_append]
  have hpaths : (stems.map fun s => join directory (s ++ ".yaml")).map lowerText =
      (stems.map lowerText).map fun s => lowerText front ++ (s ++ lowerText ".yaml") := by
    rw [List.map_map, List.map_map]
    exact List.map_congr_left fun s _ => hlower s
  rw [hpaths]
  refine h.map ?_
  intro s t heq
  exact (String.append_left_inj _).1 ((String.append_right_inj _).1 heq)

/-! ## Files in turn -/

/-- Each contract has a file, in their order and directly in the directory. Its name without the extension is the
name of the contract made portable, if no file before it has this name, the case of letters aside, or else that with
the least number that is free. No two paths differ in the case of letters alone, and the loop that tries the names
one after the other ends for each of the contracts. -/
theorem contractTargets_inTurn (directory : String) (cs : List Contract) :
    ∃ stems, NamesInTurn lowerText [] (cs.map fun c => fileStem c.name) stems ∧
      (∃ m ∈ eval (NameLoop.next lowerText) (.start [] [] (cs.map fun c => fileStem c.name)), m.given = stems) ∧
      List.Forall₂ (ContractFile directory) stems (contractTargets directory cs) ∧
      ((contractTargets directory cs).map lowerText).Nodup := by
  have hturn := namesInTurn_fileStems [] (cs.map Contract.name)
  rw [List.map_map] at hturn
  refine ⟨fileStems [] (cs.map Contract.name), hturn, hturn.exists_mem_eval, ?_, ?_⟩
  · rw [contractTargets, List.forall₂_map_right_iff, List.forall₂_same]
    intro stem hstem
    exact contractFile_join directory (isPortable_of_mem_fileStems hstem)
  · exact nodup_lowerText_joined directory hturn.keys.1

example : fileStems [] ["get user", "get_user", "get/user", "GET_USER", "get_user_2"] =
    ["get_user", "get_user_2", "get_user_3", "GET_USER_4", "get_user_2_2"] := by decide +kernel

end Covenant
