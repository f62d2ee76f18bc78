import Covenant.Disk.Resolve
import Covenant.Path

/-!
# Paths of files in a directory

What is known of the path that joins a directory and a file name.

* `FileName`: a name that is no part with a meaning of its own;
* `Path.parts_join`, `Path.components_join`, `Disk.steps_join`: its parts, components and steps;
* `Disk.steps_fileName`: the one step to a name;
* `Path.isContractFile_join`: which of these files hold contracts;
* `Path.contractName_join`: the names of the contracts in them.
-/

namespace Covenant

open Covenant.Text

/-- A name that a file in a directory can have. -/
structure FileName (name : String) : Prop where
  noSlash : '/' ∉ name.toList
  ne_nil : name.toList ≠ []
  ne_here : name ≠ "."
  ne_up : name ≠ ".."

instance (name : String) : Decidable (FileName name) :=
  decidable_of_iff ('/' ∉ name.toList ∧ name.toList ≠ [] ∧ name ≠ "." ∧ name ≠ "..")
    ⟨fun ⟨hslash, hne, hhere, hup⟩ => ⟨hslash, hne, hhere, hup⟩,
      fun h => ⟨h.noSlash, h.ne_nil, h.ne_here, h.ne_up⟩⟩

namespace Path

variable {directory name : String}

/-- The text of a joined path, with the directory without a slash at its end. -/
theorem toList_join (hdir : directory ≠ "") (name : String) : ∃ cs,
    (join directory name).toList = cs ++ '/' :: name.toList ∧
      (endsWithSlash directory = false ∧ directory.toList = cs ∨
        endsWithSlash directory = true ∧ directory.toList = cs ++ ['/']) := by
  have hempty : directory.isEmpty = false := by simpa using hdir
  rw [join, hempty, Bool.false_or]
  cases hslash : endsWithSlash directory with
  | false => exact ⟨directory.toList, by simp, .inl ⟨rfl, rfl⟩⟩
  | true =>
    have hlast : directory.toList.getLast? = some '/' := eq_of_beq hslash
    obtain ⟨cs, hcs⟩ := List.getLast?_eq_some_iff.1 hlast
    exact ⟨cs, by simp [hcs], .inr ⟨rfl, hcs⟩⟩

theorem isAbsolute_join (hdir : directory ≠ "") : isAbsolute (join directory name) = isAbsolute directory := by
  obtain ⟨cs, hjoin, ⟨-, hcs⟩ | ⟨-, hcs⟩⟩ := toList_join hdir name
  · have hne : cs ≠ [] := by
      rintro rfl
      exact hdir (String.toList_eq_nil_iff.1 hcs)
    rw [isAbsolute, isAbsolute, hjoin, hcs, List.head?_append, Option.or_of_isSome]
    simpa using hne
  · rw [isAbsolute, isAbsolute, hjoin, hcs]
    cases cs <;> rfl

theorem parts_join (hdir : directory ≠ "") (hname : FileName name) :
    parts (join directory name) = parts directory ++ [name] := by
  have hsplit : splitAt '/' name.toList = [name.toList] := splitAt_of_not_mem hname.noSlash
  have hkept : ([name.toList].filter fun p => !p.isEmpty) = [name.toList] := by
    rw [List.filter_cons_of_pos (by simpa using hname.ne_nil), List.filter_nil]
  obtain ⟨cs, hjoin, ⟨-, hcs⟩ | ⟨-, hcs⟩⟩ := toList_join hdir name
  · rw [parts, parts, hjoin, hcs, splitAt_append_sep, hsplit, List.filter_append, hkept, List.map_append,
      List.map_singleton, String.ofList_toList]
  · rw [parts, parts, hjoin, hcs, splitAt_append_sep, splitAt_append_sep, hsplit, List.filter_append, hkept,
      List.map_append, List.map_singleton, String.ofList_toList, List.filter_append]
    simp [splitAt]

theorem endsWithSlash_join (hdir : directory ≠ "") (hname : FileName name) :
    endsWithSlash (join directory name) = false := by
  obtain ⟨cs, hjoin, -⟩ := toList_join hdir name
  rw [endsWithSlash, hjoin]
  refine beq_false_of_ne fun hlast => hname.noSlash (List.mem_of_getLast? ?_)
  rwa [← List.singleton_append, ← List.append_assoc, List.getLast?_append,
    Option.or_of_isSome (by simpa using hname.ne_nil)] at hlast

theorem ofText_fileName (hname : FileName name) : Component.ofText name = .name name := by
  rw [Component.ofText, if_neg hname.ne_here, if_neg hname.ne_up]

theorem endsWithSlash_fileName {name : String} (hname : FileName name) : endsWithSlash name = false :=
  beq_false_of_ne fun hlast => hname.noSlash (List.mem_of_getLast? hlast)

theorem isAbsolute_fileName {name : String} (hname : FileName name) : isAbsolute name = false :=
  beq_false_of_ne fun hhead => hname.noSlash (List.mem_of_mem_head? hhead)

theorem parts_fileName {name : String} (hname : FileName name) : parts name = [name] := by
  rw [parts, splitAt_of_not_mem hname.noSlash, List.filter_cons_of_pos (by simpa using hname.ne_nil),
    List.filter_nil, List.map_singleton, String.ofList_toList]

theorem components_fileName {name : String} (hname : FileName name) : components name = [.name name] := by
  rw [components, isAbsolute_fileName hname, parts_fileName hname, List.map_singleton, ofText_fileName hname]
  rfl

theorem components_join (hdir : directory ≠ "") (hname : FileName name) :
    components (join directory name) = components directory ++ [.name name] := by
  have hkept : ([Component.name name].filter (· ≠ .here)) = [.name name] := rfl
  rw [components, components, isAbsolute_join hdir, parts_join hdir hname, List.map_append,
    List.map_singleton, ofText_fileName hname]
  generalize (parts directory).map Component.ofText = cs
  cases isAbsolute directory with
  | true =>
    simp only [if_true]
    rw [List.filter_append, hkept, List.cons_append]
  | false =>
    simp only [Bool.false_eq_true, if_false]
    cases cs with
    | nil => rfl
    | cons c cs =>
      cases c with
      | here =>
        show Component.here :: (cs ++ [Component.name name]).filter (fun c => decide (c ≠ Component.here)) = _
        rw [List.filter_append, hkept]
        rfl
      | _ =>
        show (_ :: cs ++ [Component.name name]).filter (fun c => decide (c ≠ Component.here)) = _
        rw [List.filter_append, hkept]

/-- The steps to a directory, without the one that a slash at the end adds. -/
def ownSteps (path : String) : List Component :=
  (if isAbsolute path then [.root] else []) ++ (parts path).map Component.ofText

end Path

open Covenant.Path

theorem Disk.steps_eq_ownSteps (path : String) :
    Disk.steps path = ownSteps path ∨ Disk.steps path = ownSteps path ++ [.here] := by
  rw [Disk.steps, ← ownSteps]
  cases endsWithSlash path && !((parts path).map Component.ofText).isEmpty with
  | false => exact .inl (List.append_nil _)
  | true => exact .inr rfl

/-- A name is the only step to it. -/
theorem Disk.steps_fileName {name : String} (hname : FileName name) : Disk.steps name = [.name name] := by
  rw [Disk.steps, isAbsolute_fileName hname, endsWithSlash_fileName hname, parts_fileName hname,
    List.map_singleton, ofText_fileName hname]
  rfl

theorem Disk.steps_join {directory name : String} (hdir : directory ≠ "") (hname : FileName name) :
    Disk.steps (join directory name) = ownSteps directory ++ [.name name] := by
  rw [Disk.steps, endsWithSlash_join hdir hname, isAbsolute_join hdir, parts_join hdir hname, ownSteps,
    List.map_append, List.map_singleton, ofText_fileName hname]
  simp

/-! ## Files of contracts -/

namespace Path

theorem fileName?_join {directory name : String} (hdir : directory ≠ "") (hname : FileName name) :
    fileName? (join directory name) = some name := by
  rw [fileName?, components_join hdir hname, List.getLast?_concat]

theorem splitExtension_yaml {stem : String} (h : stem ≠ "") :
    splitExtension (stem ++ ".yaml") = (stem, some "yaml") := by
  have hsplit : splitFirst? '.' (stem ++ ".yaml").toList.reverse =
      some (['l', 'm', 'a', 'y'], stem.toList.reverse) := by
    simp [splitFirst?]
  have hne : stem.toList.reverse ≠ [] := by simpa using h
  rw [splitExtension, hsplit]
  cases hrev : stem.toList.reverse with
  | nil => exact absurd hrev hne
  | cons c cs =>
    dsimp only
    rw [← hrev, List.reverse_reverse, String.ofList_toList]
    rfl

theorem fileName_yaml {stem : String} (h : '/' ∉ stem.toList) : FileName (stem ++ ".yaml") where
  noSlash := by simpa using h
  ne_nil := by simp
  ne_here hname := by simpa using congrArg (List.getLast? ∘ String.toList) hname
  ne_up hname := by simpa using congrArg (List.getLast? ∘ String.toList) hname

/-- A file whose name is only an extension holds no contract. -/
theorem isContractFile_join {directory stem : String} (hdir : directory ≠ "") (h : '/' ∉ stem.toList) :
    isContractFile (join directory (stem ++ ".yaml")) = decide (stem ≠ "") := by
  rw [isContractFile, extension?, fileName?_join hdir (fileName_yaml h), Option.bind_some]
  by_cases hstem : stem = ""
  · rw [hstem]
    decide
  · rw [splitExtension_yaml hstem]
    simp [hstem]
    decide

/-- The name of the contract in a file of a directory. A name of one dot turns into one of two. -/
theorem contractName_join {directory stem : String} (hdir : directory ≠ "") (h : '/' ∉ stem.toList)
    (hstem : stem ≠ "") :
    contractName directory (join directory (stem ++ ".yaml")) = if stem = "." then ".." else stem := by
  have hpre : (components directory).isPrefixOf (components directory ++ [.name (stem ++ ".yaml")]) = true :=
    List.isPrefixOf_iff_prefix.2 (List.prefix_append _ _)
  have hbelow : relativeTo directory (join directory (stem ++ ".yaml")) = [.name (stem ++ ".yaml")] := by
    rw [relativeTo, components_join hdir (fileName_yaml h), if_pos hpre, List.drop_left]
  rw [contractName, hbelow]
  dsimp only
  rw [dropExtension, splitExtension_yaml hstem]
  by_cases hhere : stem = "."
  · rw [hhere]
    rfl
  · by_cases hup : stem = ".."
    · rw [hup]
      decide
    · rw [if_neg hhere, if_neg (by simp [hhere, hup])]
      exact String.ofList_toList

end Path

end Covenant
