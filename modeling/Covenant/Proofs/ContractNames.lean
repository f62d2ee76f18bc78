import Covenant.Proofs.Collecting
import Covenant.Proofs.StepsOfPaths

/-!
# Which contracts share a name

The name of a contract is the path of its file below a directory, without the extension. A file name that is
`.` or `..` without its extension reads as a step and not as a name, so that both come out as a step up.

* `Path.below`: the path of names inside each other, and `Path.components_below`: its parts;
* `Path.stem`, `Path.bareName`: a file name without its extension, and what it contributes to the name of a contract;
* `Path.contractName_below`: the name of the contract in a file below a directory;
* `Path.Siblings`: paths of files in one directory, and `Path.contractName_below_eq_iff`: which names are the same;
* `Disk.exists_below_of_contains`: a walk finds files below its root;
* `Disk.names_coincide_iff`: all of it for a walk, and for the contracts that lose their name to another one.
-/

namespace Covenant

open Covenant.Path Covenant.Text

namespace Path

/-! ## Paths below a directory -/

/-- The path of the last name, where each name stands in the directory that the one before it names. -/
def below (directory : String) (names : List String) : String := names.foldl join directory

theorem below_concat (directory : String) (names : List String) (name : String) :
    below directory (names ++ [name]) = join (below directory names) name := by
  rw [below, List.foldl_append]
  rfl

theorem components_join_name (directory : String) {name : String} (hname : FileName name) :
    components (join directory name) = components directory ++ [.name name] := by
  by_cases hdir : directory = ""
  · rw [hdir, join_empty, components_fileName hname]
    rfl
  · exact components_join hdir hname

theorem components_below (directory : String) {names : List String} (h : ∀ name ∈ names, FileName name) :
    components (below directory names) = components directory ++ names.map .name := by
  induction names generalizing directory with
  | nil => rw [List.map_nil, List.append_nil, below, List.foldl_nil]
  | cons name names ih =>
    obtain ⟨hname, hnames⟩ := List.forall_mem_cons.1 h
    rw [below, List.foldl_cons, ← below, ih _ hnames, components_join_name directory hname, List.append_assoc]
    rfl

/-! ## Names without extension -/

/-- A file name without its extension. -/
def stem (name : String) : String := (splitExtension name).1

/-- A text that is a step and no name. -/
def IsDots (text : String) : Prop := text = "." ∨ text = ".."

instance (text : String) : Decidable (IsDots text) := inferInstanceAs (Decidable (_ ∨ _))

/-- What is left of a file name in the name of a contract. -/
def bareName (name : String) : String := if IsDots (stem name) then ".." else stem name

theorem prefix_stem (name : String) : (stem name).toList <+: name.toList := by
  rw [stem, splitExtension]
  split
  · exact List.prefix_rfl
  · exact List.prefix_rfl
  · rename_i ext front hfront hsplit
    obtain ⟨-, hname⟩ := splitFirst?_eq_some_iff.1 hsplit
    refine ⟨'.' :: ext.reverse, ?_⟩
    rw [String.toList_ofList, ← List.reverse_reverse name.toList, hname]
    simp

theorem noSlash_bareName {name : String} (hname : FileName name) : '/' ∉ (bareName name).toList := by
  rw [bareName]
  split
  · decide
  · exact fun hmem => hname.noSlash ((prefix_stem name).mem hmem)

theorem bareName_eq_iff {name name' : String} :
    bareName name = bareName name' ↔ stem name = stem name' ∨ IsDots (stem name) ∧ IsDots (stem name') := by
  rw [bareName, bareName]
  by_cases h : IsDots (stem name) <;> by_cases h' : IsDots (stem name')
  · simp [h, h']
  · -- two dots are a step, so neither name is left with them
    have hup : ".." ≠ stem name' := fun heq => h' (.inr heq.symm)
    have hne : stem name ≠ stem name' := fun heq => h' (heq ▸ h)
    simp [h, h', hup, hne]
  · have hup : stem name ≠ ".." := fun heq => h (.inr heq)
    have hne : stem name ≠ stem name' := fun heq => h (heq ▸ h')
    simp [h, h', hup, hne]
  · simp [h, h']

/-! ## Names of contracts below a directory -/

/-- Only the last name loses its extension. -/
theorem texts_dropExtension (names : List String) (name : String) :
    (dropExtension ((names ++ [name]).map Component.name)).map Component.text = names ++ [bareName name] := by
  induction names with
  | nil =>
    show [Component.text (if IsDots (stem name) then .up else .name (stem name))] = [bareName name]
    rw [bareName]
    split <;> rfl
  | cons first names ih =>
    have hrest : dropExtension (.name first :: (names ++ [name]).map Component.name) =
        .name first :: dropExtension ((names ++ [name]).map Component.name) := by
      cases names <;> rfl
    rw [List.cons_append, List.map_cons, hrest, List.map_cons, ih]
    rfl

theorem contractName_below (root : String) {names : List String} {name : String}
    (h : ∀ n ∈ names ++ [name], FileName n) :
    contractName root (below root (names ++ [name])) =
      String.ofList (joinWith '/' ((names ++ [bareName name]).map String.toList)) := by
  have hrelative : relativeTo root (below root (names ++ [name])) = (names ++ [name]).map Component.name := by
    rw [relativeTo, components_below root h, if_pos (List.isPrefixOf_iff_prefix.2 (List.prefix_append _ _)),
      List.drop_left]
  rw [contractName, hrelative]
  split
  · rename_i hnil
    simp at hnil
  · rw [ofComponents, ← texts_dropExtension, List.map_map]
    rfl

/-- Paths of names in one directory that are related in some way. -/
def Siblings (related : String → String → Prop) (p q : String) : Prop :=
  ∃ directory name name', FileName name ∧ FileName name' ∧ p = join directory name ∧ q = join directory name' ∧
    related name name'

/-- File names that differ in their extension at most. -/
def SameStem (name name' : String) : Prop := stem name = stem name'

/-- File names that are one dot or two in front of their extension. -/
def BothDots (name name' : String) : Prop := IsDots (stem name) ∧ IsDots (stem name')

section

variable {root : String} {names names' : List String} {name name' : String}

/-- The directory and the file name that the path of names consists of. -/
theorem of_below_eq_join {directory n : String} (hnames : ∀ n ∈ names ++ [name], FileName n) (hn : FileName n)
    (h : below root (names ++ [name]) = join directory n) :
    components root ++ names.map .name = components directory ∧ name = n := by
  have hparts := congrArg components h
  rw [components_below root hnames, components_join_name directory hn, List.map_append, List.map_singleton,
    ← List.append_assoc] at hparts
  obtain ⟨hway, hlast⟩ := List.append_inj' hparts rfl
  exact ⟨hway, Component.name.inj (List.singleton_inj.1 hlast)⟩

/-- Files below a directory stand in one directory if the names on the way to them are the same. -/
theorem siblings_below_iff {related : String → String → Prop} (hnames : ∀ n ∈ names ++ [name], FileName n)
    (hnames' : ∀ n ∈ names' ++ [name'], FileName n) :
    Siblings related (below root (names ++ [name])) (below root (names' ++ [name'])) ↔
      names = names' ∧ related name name' := by
  constructor
  · rintro ⟨directory, n, n', hn, hn', hp, hq, h⟩
    obtain ⟨hway, rfl⟩ := of_below_eq_join hnames hn hp
    obtain ⟨hway', rfl⟩ := of_below_eq_join hnames' hn' hq
    have hsame := List.append_cancel_left (hway.trans hway'.symm)
    exact ⟨List.map_injective_iff.2 (fun _ _ => Component.name.inj) hsame, h⟩
  · rintro ⟨rfl, h⟩
    refine ⟨below root names, name, name', ?_, ?_, below_concat root names name, below_concat root names name', h⟩
    · exact hnames name List.mem_concat_self
    · exact hnames' name' List.mem_concat_self

theorem noSlash_of_mem_texts (h : ∀ n ∈ names ++ [name], FileName n) {cs : List Char}
    (hcs : cs ∈ (names ++ [bareName name]).map String.toList) : '/' ∉ cs := by
  obtain ⟨n, hn, rfl⟩ := List.mem_map.1 hcs
  rcases List.mem_append.1 hn with hn | hn
  · exact (h n (List.mem_append_left _ hn)).noSlash
  · rw [List.mem_singleton.1 hn]
    exact noSlash_bareName (h name List.mem_concat_self)

/-- Contracts share a name if their files stand in one directory and the same is left of their file names. -/
theorem contractName_below_eq_iff (hnames : ∀ n ∈ names ++ [name], FileName n)
    (hnames' : ∀ n ∈ names' ++ [name'], FileName n) :
    contractName root (below root (names ++ [name])) = contractName root (below root (names' ++ [name'])) ↔
      Siblings SameStem (below root (names ++ [name])) (below root (names' ++ [name'])) ∨
        Siblings BothDots (below root (names ++ [name])) (below root (names' ++ [name'])) := by
  rw [siblings_below_iff hnames hnames', siblings_below_iff hnames hnames', ← and_or_left, SameStem, BothDots,
    ← bareName_eq_iff, contractName_below root hnames, contractName_below root hnames']
  constructor
  · intro h
    have hsplit := congrArg (splitAt '/') (String.ofList_injective h)
    rw [splitAt_joinWith (by simp) fun _ => noSlash_of_mem_texts hnames,
      splitAt_joinWith (by simp) fun _ => noSlash_of_mem_texts hnames'] at hsplit
    have htexts := List.map_injective_iff.2 (fun _ _ => String.toList_injective) hsplit
    obtain ⟨hsame, hlast⟩ := List.append_inj' htexts rfl
    exact ⟨hsame, List.singleton_inj.1 hlast⟩
  · rintro ⟨rfl, h⟩
    rw [h]

end

end Path

/-! ## Names in a collection -/

namespace Disk

section

variable {d : Disk} {start : Location} {root : String}

theorem below_join (hnamed : d.Named) {names : List String} (hnames : ∀ n ∈ names, FileName n) {loc : Location}
    {name : String} {node : Node} (hnode : d.node? (loc ++ [name]) = some node) :
    (∀ n ∈ names ++ [name], FileName n) ∧ join (below root names) name = below root (names ++ [name]) := by
  have hname := fileName_of_mem_names hnamed (mem_names hnode)
  exact ⟨List.forall_mem_append.2 ⟨hnames, List.forall_mem_singleton.2 hname⟩, (below_concat root names name).symm⟩

/-- A walk enters directories below its root. -/
theorem exists_below_of_enters (hnamed : d.Named) {trail : Trail} {loc : Location} {path : String}
    (h : Enters d start root trail loc path) : ∃ names, (∀ n ∈ names, FileName n) ∧ path = below root names := by
  induction h with
  | root => exact ⟨[], nofun, rfl⟩
  | directory _ hnode ih =>
    obtain ⟨names, hnames, rfl⟩ := ih
    exact ⟨_, below_join hnamed hnames hnode⟩
  | link _ hnode _ _ ih =>
    obtain ⟨names, hnames, rfl⟩ := ih
    exact ⟨_, below_join hnamed hnames hnode⟩

/-- A walk finds files below its root. -/
theorem exists_below_of_contains (hnamed : d.Named) {p : String} (h : Contains d start root (.file p)) :
    ∃ names name, (∀ n ∈ names ++ [name], FileName n) ∧ p = below root (names ++ [name]) := by
  cases h with
  | file henters hnode _ =>
    obtain ⟨names, hnames, rfl⟩ := exists_below_of_enters hnamed henters
    exact ⟨names, _, below_join hnamed hnames hnode⟩
  | linked henters hnode _ _ _ =>
    obtain ⟨names, hnames, rfl⟩ := exists_below_of_enters hnamed henters
    exact ⟨names, _, below_join hnamed hnames hnode⟩

/-- Of the files that a walk finds, those in one directory share a name whose file names are the same without their
extension, or are both dots without it. -/
theorem contractName_eq_of_contains (hnamed : d.Named) {p q : String} (hp : Contains d start root (.file p))
    (hq : Contains d start root (.file q)) :
    contractName root p = contractName root q ↔ Siblings SameStem p q ∨ Siblings BothDots p q := by
  obtain ⟨names, name, hnames, rfl⟩ := exists_below_of_contains hnamed hp
  obtain ⟨names', name', hnames', rfl⟩ := exists_below_of_contains hnamed hq
  exact contractName_below_eq_iff hnames hnames'

theorem EntryOf.path_eq {earlier : List Found} {f : Found} {e : Entry} (h : d.EntryOf root earlier f e) :
    e.path = f.path := by
  cases h <;> rfl

/-- It is enough that a contract is read with one source of random choices. -/
theorem parses_of_readText {path text : String} (hread : d.readText path = .ok text)
    (hok : (Contract.ofText (contractName root path) text .least).isOk = true) : d.Parses root path := by
  rcases parses_or_failsWith d root path with hparses | ⟨e, he⟩
  · exact hparses
  · have hleast := he .least
    rw [Entry.ofFile, hread] at hleast
    cases htext : Contract.ofText (contractName root path) text .least with
    | error e =>
      rw [htext] at hok
      cases hok
    | ok p =>
      dsimp only at hleast
      rw [htext] at hleast
      cases hleast

/-- A contract is not loaded if a file before it holds a contract of the same name. -/
theorem EntryOf.loaded_iff {earlier : List Found} {path : String} {e : Entry}
    (h : d.EntryOf root earlier (.file path) e) (hparses : d.Parses root path) :
    e.Loaded ↔ ∀ p, .file p ∈ earlier → d.Parses root p → contractName root p ≠ contractName root path := by
  cases h with
  | failed hfails => exact absurd hparses (not_parses_of_failsWith hfails)
  | @first _ _ c _ hfree _ =>
    refine ⟨fun _ p hp hpparses heq => ?_, fun _ => ⟨c, rfl⟩⟩
    exact hfree _ hp ⟨p, rfl, hpparses, heq⟩
  | repeated _ hg hname =>
    obtain ⟨p, rfl, hpparses, heq⟩ := hname
    exact ⟨nofun, fun hfree => absurd heq (hfree p hg hpparses)⟩

end

/-- Two contract files below a directory have one name exactly if they stand in one directory and their file names
differ in the extension at most, or are dots in front of it. Only to such a file can a contract lose its name. -/
theorem names_coincide_iff {d : Disk} (hnamed : d.Named) {root : String} {start : Location}
    (hroot : d.find root = .ok (start, .directory)) :
    ∃ found load, d.walk root = .ok found ∧ d.collection root = .ok load ∧
      (∀ p q, .file p ∈ found → .file q ∈ found →
        (contractName root p = contractName root q ↔ Siblings SameStem p q ∨ Siblings BothDots p q)) ∧
      ∀ s before path after, found = before ++ .file path :: after → d.Parses root path →
        ∃ e, (load s).1[before.length]? = some e ∧ e.path = path ∧
          (e.Loaded ↔ ∀ p, .file p ∈ before → d.Parses root p →
            ¬ (Siblings SameStem p path ∨ Siblings BothDots p path)) := by
  obtain ⟨found, hwalk, hmem, -, -⟩ := exists_walk hnamed hroot
  have hnames {p q : String} (hp : .file p ∈ found) (hq : .file q ∈ found) :=
    contractName_eq_of_contains hnamed ((hmem _).1 hp) ((hmem _).1 hq)
  refine ⟨found, _, hwalk, by rw [collection, hwalk]; rfl, fun p q => hnames, ?_⟩
  intro s before path after hfound hparses
  have htaken : Entry.Taken d root [] [] := fun name => by simp
  obtain ⟨e, he, hentry⟩ := Entry.entryOf_settleNames htaken hfound s
  rw [List.nil_append] at hentry
  refine ⟨e, he, hentry.path_eq, (hentry.loaded_iff hparses).trans (forall₃_congr fun p hp _ => not_congr ?_)⟩
  have hbefore : .file p ∈ found := hfound ▸ List.mem_append_left _ hp
  have hpath : .file path ∈ found := hfound ▸ List.mem_append_right _ List.mem_cons_self
  exact hnames hbefore hpath

/-- A directory with two files that differ in the extension, and two that are dots in front of it. -/
def dotted : Disk where
  entries := [(["c"], .directory), (["c", "...yaml"], .file (Text.encode clashingText.toList)),
    (["c", "..yaml"], .file (Text.encode clashingText.toList)),
    (["c", "order.yaml"], .file (Text.encode clashingText.toList)),
    (["c", "order.yml"], .file (Text.encode clashingText.toList))]
  workingDirectory := []

theorem named_dotted : dotted.Named := by decide +kernel

theorem find_dotted : dotted.find "c" = .ok (["c"], .directory) :=
  find_eq_ok_iff.2 (place_fileName (by decide) ⟨by decide, by decide, by decide⟩ (by decide) rfl rfl (by simp) true)

/-- The walk finds every contract file of the directory. -/
theorem mem_walk_dotted {found : List Found} (hwalk : dotted.walk "c" = .ok found) (name : String)
    (hnode : dotted.node? ["c", name] = some (.file (Text.encode clashingText.toList)))
    (hext : isContractFile (join "c" name) = true) : .file (join "c" name) ∈ found := by
  obtain ⟨_, hwalk', hmem, -, -⟩ := exists_walk named_dotted find_dotted
  cases hwalk.symm.trans hwalk'
  exact (hmem _).2 (.file .root hnode hext)

theorem parses_order : dotted.Parses "c" "c/order.yml" := by
  have hfind : dotted.find (join "c" "order.yml") =
      .ok (["c"] ++ ["order.yml"], .file (Text.encode clashingText.toList)) :=
    find_join find_dotted (by decide) ⟨by decide, by decide, by decide⟩ (by decide) rfl
  have hread := readText_of_find hfind (Text.decode?_encode clashingText.toList)
  rw [String.ofList_toList] at hread
  exact parses_of_readText hread (by decide +kernel)

theorem names_coincide_iff_order : dotted.Named ∧ dotted.find "c" = .ok (["c"], .directory) ∧
    ∃ found load, dotted.walk "c" = .ok found ∧ dotted.collection "c" = .ok load ∧
      .file "c/order.yaml" ∈ found ∧ .file "c/order.yml" ∈ found ∧
      (contractName "c" "c/order.yaml" = contractName "c" "c/order.yml" ↔
        Siblings SameStem "c/order.yaml" "c/order.yml" ∨ Siblings BothDots "c/order.yaml" "c/order.yml") ∧
      dotted.Parses "c" "c/order.yml" ∧ ∃ before after, found = before ++ .file "c/order.yml" :: after ∧
        ∃ e, (load .least).1[before.length]? = some e ∧ e.path = "c/order.yml" ∧
          (e.Loaded ↔ ∀ p, .file p ∈ before → dotted.Parses "c" p →
            ¬ (Siblings SameStem p "c/order.yml" ∨ Siblings BothDots p "c/order.yml")) := by
  obtain ⟨found, load, hwalk, hcollection, hnames, hentries⟩ := names_coincide_iff named_dotted find_dotted
  have hyaml : .file "c/order.yaml" ∈ found := mem_walk_dotted hwalk "order.yaml" rfl (by decide)
  have hyml : .file "c/order.yml" ∈ found := mem_walk_dotted hwalk "order.yml" rfl (by decide)
  obtain ⟨before, after, hfound⟩ := List.append_of_mem hyml
  exact ⟨named_dotted, find_dotted, found, load, hwalk, hcollection, hyaml, hyml, hnames _ _ hyaml hyml,
    parses_order, before, after, hfound, hentries _ before _ after hfound parses_order⟩

/-- The files `..yaml` and `...yaml` have no name in common without their extension, but their contracts have. -/
theorem names_coincide_dots : dotted.Named ∧ dotted.find "c" = .ok (["c"], .directory) ∧
    ∃ found, dotted.walk "c" = .ok found ∧ .file "c/...yaml" ∈ found ∧ .file "c/..yaml" ∈ found ∧
      contractName "c" "c/...yaml" = contractName "c" "c/..yaml" ∧ ¬ Siblings SameStem "c/...yaml" "c/..yaml" := by
  obtain ⟨found, hwalk, -, -, -⟩ := exists_walk named_dotted find_dotted
  have hthree : .file "c/...yaml" ∈ found := mem_walk_dotted hwalk "...yaml" rfl (by decide)
  have htwo : .file "c/..yaml" ∈ found := mem_walk_dotted hwalk "..yaml" rfl (by decide)
  have hsiblings : Siblings SameStem (below "c" ([] ++ ["...yaml"])) (below "c" ([] ++ ["..yaml"])) ↔
      [] = [] ∧ SameStem "...yaml" "..yaml" := siblings_below_iff (by decide) (by decide)
  refine ⟨named_dotted, find_dotted, found, hwalk, hthree, htwo, by decide +kernel, fun h => ?_⟩
  have hstem : stem "...yaml" = stem "..yaml" := (hsiblings.1 h).2
  exact absurd hstem (by decide)

end Disk

end Covenant
