import Covenant.Proofs.Collections
import Covenant.Proofs.Directories
import Covenant.Proofs.Generated
import Covenant.Proofs.Rereading
import Mathlib.Data.List.Perm.Basic
import Mathlib.Data.List.Zip

/-!
# Generated contracts read back

The contracts of an API document are written to files of an empty directory, one file for each, and the
directory is loaded.

* `withStems`: the contracts with the names of their files, which tell how these are found;
* `Disk.Holds.writeAll`: what a directory holds after the files are written one after the other;
* `Disk.Reproduces`: loading gives one entry for each contract, with its request and expectation;
* `Disk.Holds.retrievable`, `Disk.Holds.reproduces`: the contracts of which this is so, in both directions;
* `generate_reproduces_iff`: the same for the command.
-/

namespace Covenant

open Covenant.Path

/-! ## Names of files -/

/-- Contracts with the names of their files, extensions aside. -/
def withStems (cs : List Contract) : List (Contract × String) :=
  cs.zip (fileStems [] (cs.map Contract.name))

/-- The name of the file for a contract. -/
def stemFile (t : Contract × String) : String := t.2 ++ ".yaml"

theorem map_fst_withStems (cs : List Contract) : (withStems cs).map Prod.fst = cs :=
  List.map_fst_zip (by simp)

theorem map_snd_withStems (cs : List Contract) :
    (withStems cs).map Prod.snd = fileStems [] (cs.map Contract.name) :=
  List.map_snd_zip (by simp)

theorem zip_contractTargets (directory : String) (cs : List Contract) :
    cs.zip (contractTargets directory cs) =
      (withStems cs).map fun t => (t.1, join directory (stemFile t)) := by
  rw [contractTargets, List.zip_map_right]
  rfl

theorem contractTargets_zip (directory : String) (cs : List Contract) :
    (contractTargets directory cs).zip (cs.map Contract.fileText) =
      ((withStems cs).map fun t => (stemFile t, t.1.fileText)).map fun f => (join directory f.1, f.2) := by
  rw [contractTargets, List.zip_map, ← List.zip_swap, List.map_map, List.map_map]
  rfl

theorem exists_withStems {cs : List Contract} {c : Contract} (h : c ∈ cs) : ∃ t ∈ withStems cs, t.1 = c := by
  rw [← map_fst_withStems cs] at h
  exact List.mem_map.1 h

theorem mem_of_withStems {cs : List Contract} {t : Contract × String} (h : t ∈ withStems cs) : t.1 ∈ cs :=
  (List.of_mem_zip h).1

theorem noSlash_of_withStems {cs : List Contract} {t : Contract × String} (h : t ∈ withStems cs) :
    '/' ∉ t.2.toList := fun hslash =>
  absurd (isPortable_of_mem_fileStems (List.of_mem_zip h).2 '/' hslash) (by decide)

theorem fileName_stemFile {cs : List Contract} {t : Contract × String} (h : t ∈ withStems cs) :
    FileName (stemFile t) :=
  fileName_yaml (noSlash_of_withStems h)

theorem stemFile_injective {t t' : Contract × String} (h : stemFile t = stemFile t') : t.2 = t'.2 :=
  (String.append_left_inj ".yaml").1 h

theorem nodup_stemFiles (cs : List Contract) : ((withStems cs).map stemFile).Nodup := by
  have hstems : (((withStems cs).map Prod.snd).map (· ++ ".yaml")).Nodup := by
    rw [map_snd_withStems]
    exact (nodup_fileStems _).map fun s t h => (String.append_left_inj ".yaml").1 h
  rwa [List.map_map] at hstems

/-- A contract of different names has a file name of dots alone exactly if it is its name. -/
theorem stem_eq_bare_iff {cs : List Contract} (hnodup : (cs.map Contract.name).Nodup)
    {t : Contract × String} (ht : t ∈ withStems cs) {b : String} (hb : Bare b) : t.2 = b ↔ t.1.name = b := by
  have hbare := fileStems_bare hnodup (fun _ _ _ => List.not_mem_nil)
  rw [List.forall₂_map_left_iff] at hbare
  exact List.forall₂_zip hbare ht b hb

/-- The name that a contract has when it is loaded from its file. -/
def loadedName (t : Contract × String) : String := if t.2 = "." then ".." else t.2

/-- Names of one dot and of two are the only different ones that turn into one. -/
theorem nodup_loadedNames {cs : List Contract} (hnodup : (cs.map Contract.name).Nodup)
    (hapart : ¬ ("." ∈ cs.map Contract.name ∧ ".." ∈ cs.map Contract.name)) :
    ((withStems cs).map loadedName).Nodup := by
  have hstems : ((withStems cs).map Prod.snd).Nodup := by
    rw [map_snd_withStems]
    exact nodup_fileStems _
  have hname {t : Contract × String} {b : String} (ht : t ∈ withStems cs) (hb : Bare b) (h : t.2 = b) :
      b ∈ cs.map Contract.name :=
    List.mem_map.2 ⟨t.1, mem_of_withStems ht, (stem_eq_bare_iff hnodup ht hb).1 h⟩
  refine (hstems.of_map _).map_on fun t ht t' ht' h => ?_
  refine List.inj_on_of_nodup_map hstems ht ht' ?_
  rw [loadedName, loadedName] at h
  by_cases hdot : t.2 = "." <;> by_cases hdot' : t'.2 = "."
  · rw [hdot, hdot']
  · rw [if_pos hdot, if_neg hdot'] at h
    exact absurd ⟨hname ht (by decide) hdot, hname ht' (by decide) h.symm⟩ hapart
  · rw [if_neg hdot, if_pos hdot'] at h
    exact absurd ⟨hname ht' (by decide) hdot', hname ht (by decide) h⟩ hapart
  · rwa [if_neg hdot, if_neg hdot'] at h

/-! ## Files written -/

namespace Disk

/-- A path leads to a directory in which nothing stands. -/
def IsEmptyDirectory (d : Disk) (path : String) : Prop :=
  ∃ loc, d.find path = .ok (loc, .directory) ∧ d.names loc = []

/-- Files that are written one after the other are what a directory holds more. -/
theorem Holds.writeAll {d d' : Disk} {directory : String} {loc : Location}
    {files new : List (String × String)} (h : Holds d directory loc files)
    (hnames : ∀ f ∈ new, FileName f.1) (hnodup : (new.map Prod.fst).Nodup)
    (hfree : ∀ f ∈ new, f.1 ∉ files.map Prod.fst)
    (hwrite : d.writeAll (new.map fun f => (join directory f.1, f.2)) = (d', .ok ())) :
    Holds d' directory loc (new.reverse ++ files) := by
  induction new generalizing d files with
  | nil =>
    cases hwrite
    exact h
  | cons f new ih =>
    obtain ⟨hname, hnames⟩ := List.forall_mem_cons.1 hnames
    obtain ⟨hf, hnodup⟩ := List.nodup_cons.1 hnodup
    obtain ⟨hfirst, hfree⟩ := List.forall_mem_cons.1 hfree
    rw [List.map_cons, Disk.writeAll] at hwrite
    cases hnext : d.write (join directory f.1) (Text.encode f.2.toList) with
    | error fault =>
      rw [hnext] at hwrite
      cases hwrite
    | ok next =>
      rw [hnext] at hwrite
      rw [List.reverse_cons, List.append_assoc]
      refine ih (h.write hname hfirst hnext) hnames hnodup (fun g hg hmem => ?_) hwrite
      rcases List.mem_cons.1 hmem with heq | hmem
      · exact hf (heq ▸ List.mem_map_of_mem hg)
      · exact hfree g hg hmem

/-- The files of contracts are all that stands in a directory that was empty. -/
theorem holds_placeContracts {d d' : Disk} {directory : String} {force : Bool} {cs : List Contract}
    (hempty : (d.makeDirectories directory).1.IsEmptyDirectory directory)
    (hplace : d.placeContracts directory force cs = (d', .ok ())) :
    ∃ loc, Holds d' directory loc ((withStems cs).map fun t => (stemFile t, t.1.fileText)).reverse := by
  obtain ⟨loc, hfound, hnames⟩ := hempty
  refine ⟨loc, ?_⟩
  rw [Disk.placeContracts] at hplace
  cases hmake : d.makeDirectories directory with
  | mk made result =>
    rw [hmake] at hplace hfound hnames
    cases result with
    | error fault => cases hplace
    | ok =>
      dsimp only at hplace
      split at hplace
      · cases hplace
      · rw [contractTargets_zip] at hplace
        have hfiles := (holds_nil hfound hnames).writeAll (fun f hf => ?_) ?_ (fun _ _ => List.not_mem_nil)
          hplace
        · rwa [List.append_nil] at hfiles
        · obtain ⟨t, ht, rfl⟩ := List.mem_map.1 hf
          exact fileName_stemFile ht
        · rw [List.map_map]
          exact nodup_stemFiles cs

end Disk

/-! ## Entries of files -/

/-- The entry of a file has a contract with the request and the expectation of the one that was written. -/
def Entry.Mirrors (f : Contract × String) (e : Entry) : Prop :=
  e.path = f.2 ∧ ∃ c, e.contract = .ok c ∧ c.request = f.1.request ∧ c.expected = f.1.expected

/-- The entry of the file of a contract has the contract exactly if this is reloadable. -/
theorem mirrors_ofFile_iff {d : Disk} {root path : String} {c : Contract} (hkeys : c.DistinctKeys)
    (hread : d.readText path = .ok c.fileText) (hyaml : Yaml.read? c.fileText = some (Yaml.ofJson c.toDocument))
    (s : Source) : (Entry.ofFile d root path s).1.Mirrors (c, path) ↔ c.Reloadable := by
  generalize hname : contractName root path = name
  have htext : Contract.ofText name c.fileText = Contract.ofDocument name (Yaml.ofJson c.toDocument) := by
    rw [Contract.ofText, hyaml]
  have hcontract : (Entry.ofFile d root path s).1.contract =
      (Contract.ofDocument name (Yaml.ofJson c.toDocument) s).map Prod.fst := by
    rw [Entry.ofFile, hread, hname]
    dsimp only
    rw [htext]
    cases Contract.ofDocument name (Yaml.ofJson c.toDocument) s <;> rfl
  rw [Entry.Mirrors, Entry.path_ofFile, hcontract, ← Contract.ofDocument_toDocument_eq_ok_iff hkeys name s]
  cases hload : Contract.ofDocument name (Yaml.ofJson c.toDocument) s with
  | error e =>
    constructor
    · rintro ⟨-, c', hc', -⟩
      cases hc'
    · rintro ⟨s', h⟩
      cases h
  | ok r =>
    obtain ⟨⟨name', request, expected⟩, s'⟩ := r
    have hsame : name' = name := (Contract.exists_of_ofDocument hload).1
    constructor
    · rintro ⟨-, c', hc', hrequest, hexpected⟩
      cases hc'
      exact ⟨s', by rw [hsame, ← hrequest, ← hexpected]⟩
    · rintro ⟨s'', heq⟩
      cases heq
      exact ⟨rfl, _, rfl, rfl, rfl⟩

/-- Loading a directory gives one entry for each contract, with a contract of its request and of its
expectation. -/
def Disk.Reproduces (d : Disk) (directory : String) (cs : List Contract) (s : Source) : Prop :=
  ∃ load es, d.collection directory = .ok load ∧ es.Perm (load s).1 ∧
    List.Forall₂ Entry.Mirrors (cs.zip (contractTargets directory cs)) es

/-- What contracts of different names have to be so that they are read back: their files are found, their
names stay different, and their trees read back. -/
structure Retrievable (cs : List Contract) : Prop where
  named : ∀ c ∈ cs, c.name ≠ ""
  /-- Both would be loaded under the name of two dots. -/
  apart : ¬ ("." ∈ cs.map Contract.name ∧ ".." ∈ cs.map Contract.name)
  status : ∀ c ∈ cs, InRange c.expected.status
  request : ∀ c ∈ cs, c.request.Reloadable

section

variable {d : Disk} {directory : String} {loc : Location} {cs : List Contract}
  (hholds : d.Holds directory loc ((withStems cs).map fun t => (stemFile t, t.1.fileText)).reverse)
include hholds

theorem Disk.Holds.readText_stemFile {t : Contract × String} (ht : t ∈ withStems cs) :
    d.readText (join directory (stemFile t)) = .ok t.1.fileText :=
  hholds.readText (stemFile t, t.1.fileText) (List.mem_reverse.2 (List.mem_map.2 ⟨t, ht, rfl⟩))

/-- A walk finds the files of the contracts, except for one without a stem. -/
theorem Disk.Holds.walk_stemFiles : ∃ found, d.walk directory = .ok found ∧
    found.Perm ((withStems cs).flatMap fun t => Found.ofFile (join directory (stemFile t))) := by
  obtain ⟨found, hwalk, hperm⟩ := hholds.walk
  refine ⟨found, hwalk, hperm.trans ?_⟩
  have hall := (List.reverse_perm ((withStems cs).map fun t => (stemFile t, t.1.fileText))).flatMap_right
    fun f => Found.ofFile (join directory f.1)
  rwa [List.flatMap_map] at hall

theorem Disk.Holds.isContractFile_stemFile {t : Contract × String} (ht : t ∈ withStems cs) :
    isContractFile (join directory (stemFile t)) = decide (t.2 ≠ "") :=
  isContractFile_join (ne_empty_of_find hholds.found) (noSlash_of_withStems ht)

theorem Disk.Holds.contractName_stemFile {t : Contract × String} (ht : t ∈ withStems cs) (hne : t.2 ≠ "") :
    contractName directory (join directory (stemFile t)) = loadedName t :=
  contractName_join (ne_empty_of_find hholds.found) (noSlash_of_withStems ht) hne

theorem Disk.Holds.stem_eq_of_join_eq {t t' : Contract × String} (ht : t ∈ withStems cs)
    (ht' : t' ∈ withStems cs) (h : join directory (stemFile t) = join directory (stemFile t')) :
    t.2 = t'.2 := by
  have hdir := ne_empty_of_find hholds.found
  have hname := congrArg fileName? h
  rw [fileName?_join hdir (fileName_stemFile ht), fileName?_join hdir (fileName_stemFile ht')] at hname
  exact stemFile_injective (Option.some.inj hname)

variable (hfresh : Fresh cs) (hyaml : ∀ c ∈ cs, Yaml.read? c.fileText = some (Yaml.ofJson c.toDocument))
include hfresh hyaml

theorem Disk.Holds.mirrors_iff {t : Contract × String} (ht : t ∈ withStems cs) (s : Source) :
    (Entry.ofFile d directory (join directory (stemFile t)) s).1.Mirrors
      (t.1, join directory (stemFile t)) ↔ t.1.Reloadable :=
  mirrors_ofFile_iff (hfresh.distinctKeys t.1 (mem_of_withStems ht)) (hholds.readText_stemFile ht)
    (hyaml t.1 (mem_of_withStems ht)) s

/-- Where a directory is read back, the entry of a contract is that of its file, which is found. -/
theorem Disk.Holds.entry_of_mirrors {found : List Found} {es : List Entry} {s : Source}
    (hfound : found.Perm ((withStems cs).flatMap fun t => Found.ofFile (join directory (stemFile t))))
    (hperm : es.Perm (Entry.ofAllFound d directory found s).1)
    (hmirrors : List.Forall₂ (fun t e => Entry.Mirrors (t.1, join directory (stemFile t)) e) (withStems cs) es)
    {t : Contract × String} (ht : t ∈ withStems cs) :
    t.2 ≠ "" ∧ t.1.Reloadable ∧ ∃ s', (Entry.ofFile d directory (join directory (stemFile t)) s').1 ∈
      (Entry.ofAllFound d directory found s).1 := by
  obtain ⟨e, he, hmirror⟩ := exists_of_mem_right hmirrors.flip ht
  have he := hperm.mem_iff.1 he
  obtain ⟨f, hf, s', hs'⟩ := exists_of_mem_right (Entry.forall₂_ofAllFound d directory found s) he
  obtain ⟨t', -, hfile⟩ := List.mem_flatMap.1 (hfound.mem_iff.1 hf)
  rw [Found.ofFile] at hfile
  split at hfile
  · rename_i hcontract
    cases List.mem_singleton.1 hfile
    have hsame : join directory (stemFile t') = join directory (stemFile t) := by
      have hpath : e.path = join directory (stemFile t) := hmirror.1
      rw [← hpath, ← hs', Entry.ofFound, Entry.path_ofFile]
    rw [hsame, hholds.isContractFile_stemFile ht] at hcontract
    rw [← hs', Entry.ofFound, hsame] at hmirror he
    exact ⟨of_decide_eq_true hcontract, (hholds.mirrors_iff hfresh hyaml ht s').1 hmirror, s', he⟩
  · cases hfile

/-- Contracts that are read back are retrievable. -/
theorem Disk.Holds.retrievable {s : Source} (h : d.Reproduces directory cs s) : Retrievable cs := by
  obtain ⟨load, es, hload, hperm, hmirrors⟩ := h
  obtain ⟨found, hwalk, hfound⟩ := hholds.walk_stemFiles
  rw [Disk.collection, hwalk] at hload
  cases hload
  rw [zip_contractTargets, List.forall₂_map_left_iff] at hmirrors
  dsimp only at hperm
  -- all entries keep their contracts, so none lost its name
  have hloaded : ∀ e ∈ Entry.settleNames [] (Entry.ofAllFound d directory found s).1, e.Loaded := by
    intro e he
    obtain ⟨t, -, -, c, hc, -⟩ := exists_of_mem_right hmirrors (hperm.mem_iff.2 he)
    exact ⟨c, hc⟩
  obtain ⟨hnodup, hfree⟩ := Entry.distinct_of_settleNames hloaded
  rw [Entry.settleNames_eq_self hnodup hfree] at hperm
  have hentry {t : Contract × String} (ht : t ∈ withStems cs) :=
    hholds.entry_of_mirrors hfresh hyaml hfound hperm hmirrors ht
  have hreload : ∀ c ∈ cs, c.Reloadable := by
    intro c hc
    obtain ⟨t, ht, rfl⟩ := exists_withStems hc
    exact (hentry ht).2.1
  refine ⟨fun c hc hname => ?_, ?_, fun c hc => (hreload c hc).expected.status,
    fun c hc => (hreload c hc).request⟩
  · obtain ⟨t, ht, rfl⟩ := exists_withStems hc
    exact (hentry ht).1 ((stem_eq_bare_iff hfresh.nodup ht (by decide : Bare "")).2 hname)
  · rintro ⟨hdot, hdots⟩
    obtain ⟨c, hc, hdot⟩ := List.mem_map.1 hdot
    obtain ⟨c', hc', hdots⟩ := List.mem_map.1 hdots
    obtain ⟨t, ht, rfl⟩ := exists_withStems hc
    obtain ⟨t', ht', rfl⟩ := exists_withStems hc'
    obtain ⟨hne, -, s₁, he⟩ := hentry ht
    obtain ⟨hne', -, s₂, he'⟩ := hentry ht'
    have hstem := (stem_eq_bare_iff hfresh.nodup ht (by decide : Bare ".")).2 hdot
    have hstem' := (stem_eq_bare_iff hfresh.nodup ht' (by decide : Bare "..")).2 hdots
    -- both contracts are named with two dots
    have hsame := List.inj_on_of_nodup_map hnodup he he' (by
      rw [Entry.name_ofFile, Entry.name_ofFile, hholds.contractName_stemFile ht hne,
        hholds.contractName_stemFile ht' hne', loadedName, loadedName, hstem, hstem']
      rfl)
    have hpath := congrArg Entry.path hsame
    rw [Entry.path_ofFile, Entry.path_ofFile] at hpath
    have hstems := hholds.stem_eq_of_join_eq ht ht' hpath
    rw [hstem, hstem'] at hstems
    exact absurd hstems (by decide)

/-- Retrievable contracts are read back. -/
theorem Disk.Holds.reproduces (h : Retrievable cs) (s : Source) : d.Reproduces directory cs s := by
  have hreload : ∀ c ∈ cs, c.Reloadable := fun c hc =>
    ⟨h.request c hc, (hfresh.expected c hc).reloadable_iff.2 (h.status c hc)⟩
  have hne : ∀ t ∈ withStems cs, t.2 ≠ "" := fun t ht hstem =>
    h.named t.1 (mem_of_withStems ht) ((stem_eq_bare_iff hfresh.nodup ht (by decide : Bare "")).1 hstem)
  obtain ⟨found, hwalk, hfound⟩ := hholds.walk_stemFiles
  have hfiles : ((withStems cs).flatMap fun t => Found.ofFile (join directory (stemFile t))) =
      (withStems cs).map fun t => .file (join directory (stemFile t)) := by
    rw [List.map_eq_flatMap]
    refine List.flatMap_congr fun t ht => ?_
    rw [Found.ofFile, hholds.isContractFile_stemFile ht, if_pos (decide_eq_true (hne t ht))]
  rw [hfiles] at hfound
  obtain ⟨es, hes, hperm⟩ :=
    List.perm_comp_forall₂ hfound.symm (Entry.forall₂_ofAllFound d directory found s)
  rw [List.forall₂_map_left_iff] at hes
  have hall : List.Forall₂ (fun t e => t ∈ withStems cs ∧ ∃ s', (Entry.ofFound d directory
      (.file (join directory (stemFile t))) s').1 = e) (withStems cs) es :=
    (List.forall₂_and_left _ _).2 ⟨fun t ht => ht, hes⟩
  have hnames : (withStems cs).map loadedName = es.map Entry.name := by
    refine List.forall₂_eq_eq_eq ▸ List.forall₂_map_left_iff.2 (List.forall₂_map_right_iff.2 ?_)
    refine hall.imp fun t e ⟨ht, s', hs'⟩ => ?_
    rw [← hs', Entry.ofFound, Entry.name_ofFile, hholds.contractName_stemFile ht (hne t ht)]
  have hnodup : ((Entry.ofAllFound d directory found s).1.map Entry.name).Nodup := by
    rw [← (hperm.map Entry.name).nodup_iff, ← hnames]
    exact nodup_loadedNames hfresh.nodup h.apart
  refine ⟨_, es, by rw [Disk.collection, hwalk]; rfl, ?_, ?_⟩
  · dsimp only
    rwa [Entry.settleNames_eq_self hnodup fun _ _ => List.not_mem_nil]
  · rw [zip_contractTargets, List.forall₂_map_left_iff]
    refine hall.imp fun t e ⟨ht, s', hs'⟩ => ?_
    rw [← hs']
    exact (hholds.mirrors_iff hfresh hyaml ht s').2 (hreload t.1 (mem_of_withStems ht))

end

/-! ## The command -/

theorem ExitCode.ofFailure_ne_success (f : Failure) : ExitCode.ofFailure f ≠ .success := by
  rw [ofFailure]
  split
  · exact nofun
  · split <;> exact nofun

/-- A command that ended well has placed the contracts. -/
theorem GenerateArguments.placeContracts_of_success {a : GenerateArguments} {quiet color : Bool}
    {source : Source} {d : Disk} {cs : List Contract} (hcs : d.generatedContracts a.document source = .ok cs)
    (hdone : (a.perform quiet color source d).exit = .success) :
    d.placeContracts a.directory a.force cs = ((a.perform quiet color source d).disk, .ok ()) := by
  rw [perform, hcs] at hdone ⊢
  dsimp only at hdone ⊢
  cases hplace : d.placeContracts a.directory a.force cs with
  | mk d' result =>
    rw [hplace] at hdone
    cases result with
    | error f => exact absurd hdone (ExitCode.ofFailure_ne_success f)
    | ok => rfl

/-! ## A document of one operation -/

namespace OneOperation

/-- A document that declares one response, under a status code. -/
def text (code : String) : String :=
  "paths:\n  /:\n    get:\n      operationId: a\n      responses:\n        '" ++ code ++
    "':\n          description: ok\n"

/-- A disk with the document and an empty directory. -/
def disk (code : String) : Disk where
  entries := [(["api.yaml"], .file (Text.encode (text code).toList)), (["out"], .directory)]
  workingDirectory := []

/-- The contract of the operation. -/
def contract (status : UInt16) : Contract := ⟨"a", .plain "/" .get, .ofStatus status⟩

/-- The command that writes it. -/
def arguments : GenerateArguments := ⟨"api.yaml", "out", false⟩

theorem readText_document (code : String) : (disk code).readText "api.yaml" = .ok (text code) := by
  have hfind : (disk code).find "api.yaml" =
      .ok (["api.yaml"], .file (Text.encode (text code).toList)) :=
    Disk.find_eq_ok_iff.2 (Disk.place_fileName (by decide) ⟨by decide, by decide, by decide⟩ (by decide) rfl rfl
      (by simp) true)
  have hread := Disk.readText_of_find hfind (Text.decode?_encode _)
  rwa [String.ofList_toList] at hread

theorem place_out (code : String) (through : Bool) :
    (disk code).place through "out" = .ok (.node ["out"] .directory) :=
  Disk.place_fileName (by decide) ⟨by decide, by decide, by decide⟩ (by decide) rfl rfl (by simp) through

theorem find_out (code : String) : (disk code).find "out" = .ok (["out"], .directory) :=
  Disk.find_eq_ok_iff.2 (place_out code true)

theorem resolve_file (code : String) : (disk code).resolve "out/a.yaml" = .ok (.free ["out"] "a.yaml") := by
  rw [Disk.resolve, Disk.place_of_admissible ⟨by decide, by decide, by decide⟩,
    show Disk.steps "out/a.yaml" = [.name "out", .name "a.yaml"] by decide +kernel, Disk.follow]
  show (disk code).follow true Disk.linkLimit ["out"] [.name "a.yaml"] = _
  rw [Disk.follow]
  rfl

theorem makeDirectories_out (code : String) : (disk code).makeDirectories "out" = (disk code, .ok ()) := by
  have hmake : (disk code).makeDirectory "out" = .error .exists := by
    rw [Disk.makeDirectory, show trimSlashes "out" = "out" by decide +kernel, Disk.locate, place_out]
  rw [Disk.makeDirectories, if_neg (by decide), show withAncestors "out" = ["out"] by decide +kernel,
    Disk.ensureFirst, hmake, Disk.ensureDirectory, hmake, Disk.isDirectory, find_out]
  rfl

theorem isEmptyDirectory_out (code : String) :
    ((disk code).makeDirectories arguments.directory).1.IsEmptyDirectory arguments.directory := by
  rw [arguments, makeDirectories_out]
  exact ⟨["out"], find_out code, rfl⟩

theorem perform_succeeds {code : String} {status : UInt16}
    (hcs : (disk code).generatedContracts arguments.document .least = .ok [contract status]) :
    (arguments.perform true false .least (disk code)).exit = .success := by
  have htargets : contractTargets "out" [contract status] = ["out/a.yaml"] := by
    show (fileStems [] ["a"]).map (fun stem => join "out" (stem ++ ".yaml")) = _
    decide +kernel
  have hfree : (disk code).hasNode "out/a.yaml" = false := by
    rw [Disk.hasNode, Disk.find, resolve_file]
    rfl
  rw [GenerateArguments.perform, hcs, arguments]
  dsimp only
  rw [Disk.placeContracts, makeDirectories_out]
  dsimp only
  rw [htargets, if_neg (by decide), List.find?_cons, hfree]
  dsimp only [List.find?_nil]
  rw [List.map_singleton, List.zip_cons_cons, Disk.writeAll, Disk.write, if_neg (by decide), resolve_file]
  rfl

theorem generatedContracts_success :
    (disk "200").generatedContracts arguments.document .least = .ok [contract 200] := by
  rw [arguments, Disk.generatedContracts, readText_document]
  decide +kernel

theorem generatedContracts_beyond :
    (disk "600").generatedContracts arguments.document .least = .ok [contract 600] := by
  rw [arguments, Disk.generatedContracts, readText_document]
  decide +kernel

end OneOperation

/-- Generated contracts are read back from a directory that was empty exactly if they are retrievable,
provided that the written trees are what is read. -/
theorem generate_reproduces_iff {a : GenerateArguments} {quiet color : Bool} {source : Source} {d : Disk}
    {cs : List Contract} (hcs : d.generatedContracts a.document source = .ok cs)
    (hempty : (d.makeDirectories a.directory).1.IsEmptyDirectory a.directory)
    (hdone : (a.perform quiet color source d).exit = .success)
    (hyaml : ∀ c ∈ cs, Yaml.read? c.fileText = some (Yaml.ofJson c.toDocument)) (s : Source) :
    (a.perform quiet color source d).disk.Reproduces a.directory cs s ↔ Retrievable cs := by
  obtain ⟨loc, hholds⟩ :=
    Disk.holds_placeContracts hempty (GenerateArguments.placeContracts_of_success hcs hdone)
  have hfresh := fresh_generatedContracts hcs
  exact ⟨hholds.retrievable hfresh hyaml, fun h => hholds.reproduces hfresh hyaml h s⟩

/-- Contracts of the status codes 200 and 600 are written alike, and only the first one is read back. -/
theorem generate_reproduces_status :
    (OneOperation.arguments.perform true false .least (OneOperation.disk "200")).disk.Reproduces "out"
        [OneOperation.contract 200] .least ∧
      ¬ (OneOperation.arguments.perform true false .least (OneOperation.disk "600")).disk.Reproduces "out"
        [OneOperation.contract 600] .least := by
  have hyaml : ∀ c ∈ [OneOperation.contract 200], Yaml.read? c.fileText = some (Yaml.ofJson c.toDocument) := by
    intro c hc
    rw [List.mem_singleton.1 hc]
    decide +kernel
  have hyaml' : ∀ c ∈ [OneOperation.contract 600], Yaml.read? c.fileText = some (Yaml.ofJson c.toDocument) := by
    intro c hc
    rw [List.mem_singleton.1 hc]
    decide +kernel
  constructor
  · refine (generate_reproduces_iff OneOperation.generatedContracts_success
      (OneOperation.isEmptyDirectory_out _)
      (OneOperation.perform_succeeds OneOperation.generatedContracts_success) hyaml .least).2 ?_
    exact ⟨List.forall_mem_singleton.2 (by decide), by decide, List.forall_mem_singleton.2 (by decide),
      List.forall_mem_singleton.2 ⟨nofun, nofun⟩⟩
  · refine fun h => absurd ((generate_reproduces_iff OneOperation.generatedContracts_beyond
      (OneOperation.isEmptyDirectory_out _)
      (OneOperation.perform_succeeds OneOperation.generatedContracts_beyond) hyaml' .least).1 h).status ?_
    exact fun hstatus => absurd (hstatus _ List.mem_cons_self) (by decide)

end Covenant
