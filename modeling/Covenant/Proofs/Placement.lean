import Covenant.Proofs.Regeneration
import Covenant.Proofs.Writing

/-!
# Where contracts are placed

* `GenerateArguments.perform_refused`: the command is refused where a file is there;
* `makeDirectories_refused`: when nothing at all is done before that;
* `Disk.extends_placeContracts`: without leave to overwrite, all that stood on the disk is kept;
* `Disk.writes_placeContracts`: the files of the contracts are written;
* `generate_writes`: what the command does to the disk, in each of its cases.
-/

namespace Covenant

open Covenant.Path Covenant.Text

/-! ## The command -/

section

variable {a : GenerateArguments} {quiet color : Bool} {source : Source} {d made : Disk} {cs : List Contract}

theorem fileName_of_mem_stemFiles {f : String × String}
    (hf : f ∈ (withStems cs).map fun t => (stemFile t, t.1.fileText)) : FileName f.1 := by
  obtain ⟨t, ht, rfl⟩ := List.mem_map.1 hf
  exact fileName_stemFile ht

theorem nodup_fileNames (cs : List Contract) :
    (((withStems cs).map fun t => (stemFile t, t.1.fileText)).map Prod.fst).Nodup := by
  rw [List.map_map]
  exact nodup_stemFiles cs

/-- A refused command tells of a file that is there, and only makes directories. -/
theorem GenerateArguments.perform_refused (hcs : d.generatedContracts a.document source = .ok cs)
    (hforce : a.force = false) (hmake : d.makeDirectories a.directory = (made, .ok ()))
    (hthere : ∃ target ∈ contractTargets a.directory cs, made.hasNode target = true) :
    ∃ target ∈ contractTargets a.directory cs, made.hasNode target = true ∧ a.perform quiet color source d =
      .ofFailure made (.file ("'" ++ target ++ "' already exists (use --force to overwrite)")) := by
  cases hfound : (contractTargets a.directory cs).find? made.hasNode with
  | none =>
    obtain ⟨target, htarget, hnode⟩ := hthere
    exact absurd hnode (List.find?_eq_none.1 hfound target htarget)
  | some target =>
    refine ⟨target, List.mem_of_find?_eq_some hfound, List.find?_some hfound, ?_⟩
    rw [perform, hcs]
    dsimp only
    rw [Disk.placeContracts, hmake, hforce]
    dsimp only
    rw [if_neg (by decide), hfound]

theorem exists_of_mem_contractTargets {directory target : String} (h : target ∈ contractTargets directory cs) :
    ∃ name, FileName name ∧ target = join directory name := by
  rw [contractTargets, ← map_snd_withStems, List.map_map] at h
  obtain ⟨t, ht, rfl⟩ := List.mem_map.1 h
  exact ⟨stemFile t, fileName_stemFile ht, rfl⟩

/-- Where the directory was there, or the path to it takes no steps up, nothing at all is done before the command
is refused. -/
theorem makeDirectories_refused (hclosed : d.Closed) {directory target : String}
    (hmake : d.makeDirectories directory = (made, .ok ())) (htarget : target ∈ contractTargets directory cs)
    (hnode : made.hasNode target = true)
    (hpath : d.isDirectory directory = true ∨ .up ∉ components directory) : made = d := by
  rcases hpath with hdir | hup
  · rw [Disk.makeDirectories_of_isDirectory hdir] at hmake
    cases hmake
    rfl
  · obtain ⟨name, hname, rfl⟩ := exists_of_mem_contractTargets htarget
    exact Disk.makeDirectories_eq_self hclosed hup hmake hname hnode

/-- Without leave to overwrite, all that stood on the disk stands there as it was. -/
theorem Disk.extends_placeContracts {directory : String}
    (hlinks : (d.makeDirectories directory).1.LinkFree directory) (cs : List Contract) :
    d.Extends (d.placeContracts directory false cs).1 := by
  have hmore := Disk.moreDirectories_makeDirectories d directory
  rw [Disk.placeContracts]
  cases hmake : d.makeDirectories directory with
  | mk made result =>
    rw [hmake] at hlinks hmore
    cases result with
    | error fault => exact hmore.extends
    | ok =>
      obtain ⟨links, loc, hleads⟩ := Disk.exists_leads_of_makeDirectories hmake
      have hplain : made.LeadsPlainly directory links loc := ⟨hleads, hlinks links loc hleads⟩
      dsimp only
      split
      · exact hmore.extends
      · rename_i hnone
        rw [if_neg (by decide), List.find?_eq_none] at hnone
        rw [contractTargets_zip]
        refine hmore.extends.trans (hplain.extends_writeAll (fun f hf => fileName_of_mem_stemFiles hf)
          (nodup_fileNames cs) (fun f hf => ?_) rfl)
        obtain ⟨t, ht, rfl⟩ := List.mem_map.1 hf
        refine Bool.eq_false_iff.2 (hnone _ ?_)
        rw [contractTargets, ← map_snd_withStems, List.map_map]
        exact List.mem_map.2 ⟨t, ht, rfl⟩

/-- The command writes the files of the contracts. -/
theorem Disk.writes_placeContracts {directory : String} {force : Bool} {d' : Disk}
    (hlinks : (d.makeDirectories directory).1.LinkFree directory)
    (hplace : d.placeContracts directory force cs = (d', .ok ())) :
    d.Writes d' ((contractTargets directory cs).zip (cs.map Contract.fileText)) := by
  rw [Disk.placeContracts] at hplace
  have hmore := Disk.moreDirectories_makeDirectories d directory
  cases hmake : d.makeDirectories directory with
  | mk made result =>
    rw [hmake] at hplace hlinks hmore
    cases result with
    | error fault => cases hplace
    | ok =>
      obtain ⟨links, loc, hleads⟩ := Disk.exists_leads_of_makeDirectories hmake
      have hplain : made.LeadsPlainly directory links loc := ⟨hleads, hlinks links loc hleads⟩
      dsimp only at hplace hmore
      split at hplace
      · cases hplace
      · rw [contractTargets_zip] at hplace ⊢
        exact hplain.writes hmore (fun f hf => fileName_of_mem_stemFiles hf) (nodup_fileNames cs) hplace

/-- Without leave to overwrite, whatever becomes of the command. -/
theorem GenerateArguments.extends_perform (hforce : a.force = false)
    (hlinks : (d.makeDirectories a.directory).1.LinkFree a.directory) :
    d.Extends (a.perform quiet color source d).disk := by
  rw [perform]
  split
  · exact ⟨rfl, fun _ _ hnode => hnode⟩
  · rename_i cs _
    have hkept := Disk.extends_placeContracts hlinks cs
    rw [hforce]
    split
    · rename_i hplace
      rw [hplace] at hkept
      exact hkept
    · rename_i hplace
      rw [hplace] at hkept
      exact hkept

end

/-! ## A way around -/

namespace Sideways

/-- A disk with an API document, and a directory with a file for its contract. -/
def disk : Disk := (OneOperation.disk "200").put ["out", "a.yaml"] (.file [])

/-- The command that is to write the contract, by way of a directory that is missing. -/
def arguments : GenerateArguments := ⟨"api.yaml", "x/../out", false⟩

/-- The disk with this directory. -/
def made : Disk := disk.put ["x"] .directory

theorem closed_disk : disk.Closed :=
  Disk.closed_of_entries (List.forall_mem_cons.2 ⟨rfl, List.forall_mem_cons.2 ⟨rfl,
    List.forall_mem_singleton.2 rfl⟩⟩)

theorem noLink_disk : ∀ e ∈ disk.entries, ∀ target, e.2 ≠ .link target :=
  List.forall_mem_cons.2 ⟨nofun, List.forall_mem_cons.2 ⟨nofun, List.forall_mem_singleton.2 nofun⟩⟩

theorem extends_disk : (OneOperation.disk "200").Extends disk := Disk.extends_put rfl _

theorem generatedContracts_disk :
    disk.generatedContracts arguments.document .least = .ok [OneOperation.contract 200] := by
  have hcontracts := OneOperation.generatedContracts_success
  rw [Disk.generatedContracts, show OneOperation.arguments.document = "api.yaml" from rfl,
    OneOperation.readText_document] at hcontracts
  rw [Disk.generatedContracts, show arguments.document = "api.yaml" from rfl,
    extends_disk.readText (OneOperation.readText_document "200")]
  exact hcontracts

theorem steps_root : Disk.steps "x/.." = [.name "x", .up] := by decide +kernel

theorem steps_out : Disk.steps "x/../out" = [.name "x", .up, .name "out"] := by decide +kernel

theorem steps_file : Disk.steps "x/../out/a.yaml" = [.name "x", .up, .name "out", .name "a.yaml"] := by
  decide +kernel

/-- Before the directory is made, there is no way through it. -/
theorem place_missing {path : String} {c : Component} {cs : List Component} (hadm : Disk.Admissible path)
    (hsteps : Disk.steps path = .name "x" :: c :: cs) (through : Bool) :
    disk.place through path = .error .notFound := by
  rw [Disk.place_of_admissible hadm, hsteps]
  show disk.follow through Disk.linkLimit [] _ = _
  rw [Disk.follow]
  rfl

/-- Afterwards, the way leads back to the root. -/
theorem place_made {path : String} {cs : List Component} (hadm : Disk.Admissible path)
    (hsteps : Disk.steps path = .name "x" :: .up :: cs) (through : Bool) :
    made.place through path = made.follow through Disk.linkLimit [] cs := by
  rw [Disk.place_of_admissible hadm, hsteps]
  show made.follow through Disk.linkLimit [] _ = _
  rw [Disk.follow]
  show made.follow through Disk.linkLimit ["x"] (.up :: cs) = _
  rw [Disk.follow]
  rfl

theorem place_root (through : Bool) : made.place through "x/.." = .ok (.node [] .directory) := by
  rw [place_made ⟨by decide, by decide, by decide⟩ steps_root, Disk.follow]
  rfl

theorem place_out (through : Bool) : made.place through "x/../out" = .ok (.node ["out"] .directory) := by
  rw [place_made ⟨by decide, by decide, by decide⟩ steps_out,
    Disk.follow]
  show made.follow through Disk.linkLimit ["out"] [] = _
  rw [Disk.follow]
  rfl

theorem makeDirectory_x : disk.makeDirectory "x" = .ok made := by
  rw [Disk.makeDirectory, show trimSlashes "x" = "x" by decide +kernel, Disk.locate,
    Disk.place_of_admissible ⟨by decide, by decide, by decide⟩,
    show Disk.steps "x" = [.name "x"] by decide +kernel]
  have hfollow : disk.follow false Disk.linkLimit [] [.name "x"] = .ok (.free [] "x") := by
    rw [Disk.follow]
    rfl
  rw [show disk.workingDirectory = [] from rfl, hfollow]
  rfl

theorem ensureDirectory_made {path : String} {loc : Location} (htrim : trimSlashes path = path)
    (hplace : ∀ through, made.place through path = .ok (.node loc .directory)) :
    made.ensureDirectory path = (made, .ok ()) := by
  have hmake : made.makeDirectory path = .error .exists := by
    rw [Disk.makeDirectory, htrim, Disk.locate, hplace]
  have hdir : made.isDirectory path = true := by
    rw [Disk.isDirectory, Disk.find_eq_ok_iff.2 (hplace true)]
  rw [Disk.ensureDirectory, hmake]
  dsimp only
  rw [hdir, if_pos rfl]

theorem makeDirectories_out : disk.makeDirectories "x/../out" = (made, .ok ()) := by
  have hout : disk.makeDirectory "x/../out" = .error .notFound := by
    rw [Disk.makeDirectory, show trimSlashes "x/../out" = "x/../out" by decide +kernel, Disk.locate,
      place_missing ⟨by decide, by decide, by decide⟩ steps_out]
  have hroot : disk.makeDirectory "x/.." = .error .notFound := by
    rw [Disk.makeDirectory, show trimSlashes "x/.." = "x/.." by decide +kernel, Disk.locate,
      place_missing ⟨by decide, by decide, by decide⟩ steps_root]
  have hx : disk.ensureFirst ["x"] = (made, .ok ()) := by
    rw [Disk.ensureFirst, makeDirectory_x, Disk.ensureDirectory, makeDirectory_x]
  have hup : disk.ensureFirst ["x/..", "x"] = (made, .ok ()) := by
    rw [Disk.ensureFirst, hroot]
    dsimp only
    rw [hx]
    exact ensureDirectory_made (by decide +kernel) place_root
  rw [Disk.makeDirectories, if_neg (by decide),
    show withAncestors "x/../out" = ["x/../out", "x/..", "x"] by decide +kernel, Disk.ensureFirst, hout]
  dsimp only
  rw [hup]
  exact ensureDirectory_made (by decide +kernel) place_out

theorem hasNode_file : made.hasNode "x/../out/a.yaml" = true := by
  have hplace : made.place true "x/../out/a.yaml" = .ok (.node ["out", "a.yaml"] (.file [])) := by
    rw [place_made ⟨by decide, by decide, by decide⟩ steps_file, Disk.follow]
    show made.follow true Disk.linkLimit ["out"] [.name "a.yaml"] = _
    rw [Disk.follow]
    show made.follow true Disk.linkLimit ["out", "a.yaml"] [] = _
    rw [Disk.follow]
    rfl
  rw [Disk.hasNode, Disk.find_eq_ok_iff.2 hplace]
  rfl

theorem contractTargets_out : contractTargets "x/../out" [OneOperation.contract 200] = ["x/../out/a.yaml"] := by
  show (fileStems [] ["a"]).map (fun stem => join "x/../out" (stem ++ ".yaml")) = _
  decide +kernel

end Sideways

/-! ## All of it -/

/-- What the command does to a disk without links in the output directory. Nothing at all if there are no
contracts. If a file of theirs is there already and may not be overwritten, it makes directories at most, and only
on a path that takes steps up through directories that are missing. All that stood on the disk is kept if nothing
may be overwritten. And if the command succeeds, it has written the files of the contracts. -/
theorem generate_writes {a : GenerateArguments} {quiet color : Bool} {source : Source} {d : Disk}
    (hclosed : d.Closed) (hlinks : (d.makeDirectories a.directory).1.LinkFree a.directory) :
    (∀ f, d.generatedContracts a.document source = .error f →
      a.perform quiet color source d = .ofFailure d f) ∧
    (∀ cs made, d.generatedContracts a.document source = .ok cs → a.force = false →
      d.makeDirectories a.directory = (made, .ok ()) →
      (∃ target ∈ contractTargets a.directory cs, made.hasNode target = true) →
      (∃ target ∈ contractTargets a.directory cs, made.hasNode target = true ∧ a.perform quiet color source d =
        .ofFailure made (.file ("'" ++ target ++ "' already exists (use --force to overwrite)"))) ∧
      d.MoreDirectories made ∧
      (d.isDirectory a.directory = true ∨ .up ∉ components a.directory → made = d)) ∧
    (a.force = false → d.Extends (a.perform quiet color source d).disk) ∧
    ∀ cs, d.generatedContracts a.document source = .ok cs →
      (a.perform quiet color source d).exit = .success →
      d.Writes (a.perform quiet color source d).disk
        ((contractTargets a.directory cs).zip (cs.map Contract.fileText)) := by
  refine ⟨fun f hf => ?_, fun cs made hcs hforce hmake hthere => ⟨?_, ?_, fun hpath => ?_⟩, fun hforce => ?_, ?_⟩
  · rw [GenerateArguments.perform, hf]
  · exact GenerateArguments.perform_refused hcs hforce hmake hthere
  · have hmore := Disk.moreDirectories_makeDirectories d a.directory
    rwa [hmake] at hmore
  · obtain ⟨target, htarget, hnode⟩ := hthere
    exact makeDirectories_refused hclosed hmake htarget hnode hpath
  · exact GenerateArguments.extends_perform hforce hlinks
  · intro cs hcs hdone
    exact Disk.writes_placeContracts hlinks (GenerateArguments.placeContracts_of_success hcs hdone)

theorem generate_writes_oneOperation :
    (OneOperation.disk "200").Closed ∧ ((OneOperation.disk "200").makeDirectories "out").1.LinkFree "out" ∧
    (OneOperation.arguments.perform true false .least (OneOperation.disk "200")).exit = .success ∧
    (OneOperation.disk "200").Writes
      (OneOperation.arguments.perform true false .least (OneOperation.disk "200")).disk
      ((contractTargets "out" [OneOperation.contract 200]).zip [(OneOperation.contract 200).fileText]) := by
  have hcontracts := OneOperation.generatedContracts_success
  have hdone := OneOperation.perform_succeeds hcontracts
  have hclosed : (OneOperation.disk "200").Closed :=
    Disk.closed_of_entries (List.forall_mem_cons.2 ⟨rfl, List.forall_mem_singleton.2 rfl⟩)
  have hlinks : ((OneOperation.disk "200").makeDirectories "out").1.LinkFree "out" := by
    rw [OneOperation.makeDirectories_out]
    exact Disk.linkFree_of_entries (List.forall_mem_cons.2 ⟨nofun, List.forall_mem_singleton.2 nofun⟩) _
  obtain ⟨-, -, -, hwrites⟩ := generate_writes (a := OneOperation.arguments) hclosed hlinks
  exact ⟨hclosed, hlinks, hdone, hwrites _ hcontracts hdone⟩

/-- A command can be refused after it has made a directory. -/
theorem generate_refused_sideways :
    let ended := Sideways.arguments.perform true false .least Sideways.disk
    Sideways.disk.Closed ∧ (∀ e ∈ Sideways.disk.entries, ∀ target, e.2 ≠ .link target) ∧
    ended.exit = .fileError ∧
    ended.errors = "Error: File error: 'x/../out/a.yaml' already exists (use --force to overwrite)\n" ∧
    Sideways.disk.node? ["x"] = none ∧ ended.disk.node? ["x"] = some .directory := by
  have htargets : contractTargets Sideways.arguments.directory [OneOperation.contract 200] =
    ["x/../out/a.yaml"] := Sideways.contractTargets_out
  have hthere : ∃ target ∈ contractTargets Sideways.arguments.directory [OneOperation.contract 200],
      Sideways.made.hasNode target = true :=
    ⟨_, htargets ▸ List.mem_singleton_self _, Sideways.hasNode_file⟩
  obtain ⟨target, htarget, -, hended⟩ := @GenerateArguments.perform_refused Sideways.arguments true false .least
    _ _ _ Sideways.generatedContracts_disk rfl Sideways.makeDirectories_out hthere
  rw [htargets, List.mem_singleton] at htarget
  dsimp only
  rw [hended, htarget]
  exact ⟨Sideways.closed_disk, Sideways.noLink_disk, rfl, by decide +kernel, rfl, rfl⟩

end Covenant
