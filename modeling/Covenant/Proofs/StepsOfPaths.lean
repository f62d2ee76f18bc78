import Covenant.Proofs.JoinedPaths
import Mathlib.Data.List.Basic
import Mathlib.Data.List.TakeWhile

/-!
# Steps of paths

* `Path.cleanSteps`: the steps of a path without those that stay where they are;
* `Path.ownSteps_ofComponents`: the path of parts takes their steps;
* `Path.ownSteps_trimSlashes`: slashes at the end are no steps;
* `Path.Ascends`, `Path.ascends_withAncestors`: the paths above a path take its steps without the last one, without
  the last two, and so on;
* `Path.ownSteps_join`: a name in a directory is one more step.
-/

namespace Covenant

open Covenant.Path Covenant.Text

namespace Path

/-! ## Steps that change the place -/

/-- The steps of a path without those that stay where they are. -/
def cleanSteps (path : String) : List Component := (ownSteps path).filter (· ≠ .here)

theorem filter_steps (path : String) : (Disk.steps path).filter (· ≠ .here) = cleanSteps path := by
  rcases Disk.steps_eq_ownSteps path with hsteps | hsteps
  · rw [hsteps, cleanSteps]
  · rw [hsteps, List.filter_append, cleanSteps]
    exact List.append_nil _

theorem filter_components (path : String) : (components path).filter (· ≠ .here) = cleanSteps path := by
  rw [components, cleanSteps, ownSteps]
  generalize (parts path).map Component.ofText = cs
  cases isAbsolute path with
  | true => simp
  | false =>
    cases cs with
    | nil => rfl
    | cons c cs => cases c <;> simp

/-- A part that reads as itself. -/
structure Component.Plain (c : Component) : Prop where
  noSlash : '/' ∉ c.text.toList
  ne_nil : c.text.toList ≠ []
  ofText : Component.ofText c.text = c

theorem plain_ofText {s : String} (hslash : '/' ∉ s.toList) (hne : s.toList ≠ []) :
    (Component.ofText s).Plain := by
  have htext : (Component.ofText s).text = s := by
    rw [Component.ofText]
    split
    · rename_i hs
      rw [hs]
      rfl
    · split
      · rename_i hs
        rw [hs]
        rfl
      · rfl
  exact ⟨htext.symm ▸ hslash, htext.symm ▸ hne, by rw [htext]⟩

theorem plain_of_mem_parts {path : String} {c : Component} (h : c ∈ (parts path).map Component.ofText) :
    c.Plain := by
  obtain ⟨s, hs, rfl⟩ := List.mem_map.1 h
  obtain ⟨p, hp, rfl⟩ := List.mem_map.1 hs
  obtain ⟨hp, hne⟩ := List.mem_filter.1 hp
  refine plain_ofText ?_ ?_
  · rw [String.toList_ofList]
    exact not_mem_of_mem_splitAt hp
  · rw [String.toList_ofList]
    simpa using hne

/-- Parts that read as they stand. The root can only be the first one. -/
def Proper (cs : List Component) : Prop :=
  (∀ c ∈ cs, c.Plain) ∨ ∃ below, cs = .root :: below ∧ ∀ c ∈ below, c.Plain

theorem proper_components (path : String) : Proper (components path) := by
  have hplain {c : Component} := @plain_of_mem_parts path c
  rw [components]
  generalize (parts path).map Component.ofText = cs at hplain
  split
  · exact .inr ⟨_, rfl, fun c hc => hplain (List.mem_of_mem_filter hc)⟩
  · refine .inl fun c hc => hplain ?_
    split at hc
    · rcases List.mem_cons.1 hc with rfl | hc
      · exact List.mem_cons_self
      · exact List.mem_cons_of_mem _ (List.mem_of_mem_filter hc)
    · exact List.mem_of_mem_filter hc

/-- Only the first part stays where it is. -/
theorem ne_here_of_mem_tail {path : String} {c : Component} (h : c ∈ (components path).tail) : c ≠ .here := by
  have hfilter {cs : List Component} (h : c ∈ cs.filter (· ≠ .here)) : c ≠ .here := by
    simpa using (List.mem_filter.1 h).2
  rw [components] at h
  generalize (parts path).map Component.ofText = cs at h
  split at h
  · exact hfilter h
  · split at h
    · exact hfilter h
    · exact hfilter (List.mem_of_mem_tail h)

theorem Proper.take {cs : List Component} (h : Proper cs) (k : Nat) : Proper (cs.take k) := by
  rcases h with h | ⟨below, rfl, h⟩
  · exact .inl fun c hc => h c (List.mem_of_mem_take hc)
  · cases k with
    | zero => exact .inl nofun
    | succ k => exact .inr ⟨below.take k, rfl, fun c hc => h c (List.mem_of_mem_take hc)⟩

theorem splitAt_texts {cs : List Component} (hne : cs ≠ []) (h : ∀ c ∈ cs, c.Plain) :
    splitAt '/' (joinWith '/' (cs.map fun c => c.text.toList)) = cs.map fun c => c.text.toList := by
  refine splitAt_joinWith (by simpa using hne) fun p hp => ?_
  obtain ⟨c, hc, rfl⟩ := List.mem_map.1 hp
  exact (h c hc).noSlash

theorem parts_texts {cs : List Component} (h : ∀ c ∈ cs, c.Plain) :
    ((((cs.map fun c => c.text.toList).filter fun p => !p.isEmpty).map String.ofList).map Component.ofText) =
      cs := by
  have hkept : ((cs.map fun c => c.text.toList).filter fun p => !p.isEmpty) = cs.map fun c => c.text.toList := by
    refine List.filter_eq_self.2 fun p hp => ?_
    obtain ⟨c, hc, rfl⟩ := List.mem_map.1 hp
    simpa using (h c hc).ne_nil
  rw [hkept, List.map_map, List.map_map]
  refine (List.map_congr_left fun c hc => ?_).trans (List.map_id cs)
  simpa using (h c hc).ofText

theorem head?_joinWith {sep : Char} {p : List Char} (hp : p ≠ []) (ps : List (List Char)) :
    (joinWith sep (p :: ps)).head? = p.head? := by
  cases p with
  | nil => exact absurd rfl hp
  | cons c p => cases ps <;> rfl

/-- The path of parts takes these steps. -/
theorem ownSteps_ofComponents {cs : List Component} (hne : cs ≠ []) (h : Proper cs) :
    ownSteps (ofComponents cs) = cs := by
  rcases h with h | ⟨below, rfl, h⟩
  · have habsolute : isAbsolute (ofComponents cs) = false := by
      cases cs with
      | nil => exact absurd rfl hne
      | cons c cs =>
        have hc := h c List.mem_cons_self
        rw [isAbsolute, ofComponents, String.toList_ofList, List.map_cons, head?_joinWith hc.ne_nil]
        exact beq_false_of_ne fun hhead => hc.noSlash (List.mem_of_mem_head? hhead)
    rw [ownSteps, habsolute, parts, ofComponents, String.toList_ofList, splitAt_texts hne h, parts_texts h]
    rfl
  · have habsolute : isAbsolute (ofComponents (.root :: below)) = true := by
      rw [isAbsolute, ofComponents, String.toList_ofList, List.map_cons, head?_joinWith (by decide)]
      rfl
    rw [ownSteps, habsolute, parts, ofComponents, String.toList_ofList]
    cases below with
    | nil => rfl
    | cons c below =>
      show [Component.root] ++ (((splitAt '/' (['/'] ++ '/' ::
        joinWith '/' ((c :: below).map fun c => c.text.toList))).filter _).map _).map _ = _
      rw [splitAt_append_sep, splitAt_texts (by simp) h, List.filter_append, List.map_append, List.map_append,
        parts_texts h]
      rfl

/-! ### Slashes at the end -/

theorem exists_trimSlashes (path : String) : ∃ slashes : List Char,
    path.toList = (trimSlashes path).toList ++ slashes ∧ (∀ c ∈ slashes, c = '/') ∧
      ((trimSlashes path).toList = [] → path = "") := by
  have hsplit := List.takeWhile_append_dropWhile (p := (· = '/')) (l := path.toList.reverse)
  rw [trimSlashes]
  cases hcs : path.toList.reverse.dropWhile (· = '/') with
  | nil => exact ⟨[], (List.append_nil _).symm, nofun, String.toList_eq_nil_iff.1⟩
  | cons c cs =>
    refine ⟨(path.toList.reverse.takeWhile (· = '/')).reverse, ?_, fun c hc => ?_, fun h => ?_⟩
    · rw [String.toList_ofList, ← List.reverse_append, ← hcs, hsplit, List.reverse_reverse]
    · simpa using List.mem_takeWhile_imp (List.mem_reverse.1 hc)
    · rw [String.toList_ofList, List.reverse_eq_nil_iff] at h
      cases h

theorem filter_splitAt_slashes {slashes : List Char} (h : ∀ c ∈ slashes, c = '/') :
    ((splitAt '/' slashes).filter fun p => !p.isEmpty) = [] := by
  induction slashes with
  | nil => rfl
  | cons c slashes ih =>
    obtain ⟨rfl, hrest⟩ := List.forall_mem_cons.1 h
    rw [splitAt, if_pos rfl]
    exact ih hrest

/-- Slashes at the end are no steps of a path. -/
theorem ownSteps_trimSlashes (path : String) : ownSteps (trimSlashes path) = ownSteps path := by
  obtain ⟨slashes, hpath, hslashes, hempty⟩ := exists_trimSlashes path
  by_cases hne : (trimSlashes path).toList = []
  · rw [hempty hne]
    rfl
  · have habsolute : isAbsolute (trimSlashes path) = isAbsolute path := by
      rw [isAbsolute, isAbsolute, hpath, List.head?_append_of_ne_nil _ hne]
    have hparts : parts (trimSlashes path) = parts path := by
      rw [parts, parts, hpath]
      cases slashes with
      | nil => rw [List.append_nil]
      | cons c slashes =>
        obtain ⟨rfl, hrest⟩ := List.forall_mem_cons.1 hslashes
        rw [splitAt_append_sep, List.filter_append, filter_splitAt_slashes hrest, List.append_nil]
    rw [ownSteps, ownSteps, habsolute, hparts]

theorem filter_steps_trimSlashes (path : String) :
    (Disk.steps (trimSlashes path)).filter (· ≠ .here) = cleanSteps path := by
  rw [filter_steps, cleanSteps, ownSteps_trimSlashes, cleanSteps]

/-! ### The paths of the directories above -/

/-- Paths that take certain steps, then those steps without the last one, and so on. -/
inductive Ascends : List String → List Component → Prop
  | nil (cs : List Component) : Ascends [] cs
  | cons {path : String} {above : List String} {cs : List Component} :
      cleanSteps path = cs → Ascends above cs.dropLast → Ascends (path :: above) cs

theorem filter_take_succ {cs : List Component} (htail : ∀ c ∈ cs.tail, c ≠ .here) {k : Nat}
    (hk : k + 1 < cs.length) :
    ((cs.take (k + 2)).filter (· ≠ .here)).dropLast = (cs.take (k + 1)).filter (· ≠ .here) := by
  have hlast : cs[k + 1] ∈ cs.tail := by
    rw [← List.drop_one]
    exact List.mem_drop_iff_getElem.2 ⟨k, by omega, by congr 1; omega⟩
  rw [List.take_succ_eq_append_getElem hk, List.filter_append,
    List.filter_cons_of_pos (by simpa using htail _ hlast), List.filter_nil, List.dropLast_concat]

theorem take_succ_ne_nil {cs : List Component} {k : Nat} (hk : k < cs.length) : cs.take (k + 1) ≠ [] := by
  refine List.ne_nil_of_length_pos ?_
  rw [List.length_take]
  omega

theorem ascends_take {cs : List Component} (hproper : Proper cs) (htail : ∀ c ∈ cs.tail, c ≠ .here) {k : Nat}
    (hk : k < cs.length) :
    Ascends ((List.range (k + 1)).reverse.map fun n => ofComponents (cs.take (n + 1)))
      ((cs.take (k + 1)).filter (· ≠ .here)) := by
  induction k with
  | zero =>
    refine .cons ?_ (.nil _)
    rw [cleanSteps, ownSteps_ofComponents (take_succ_ne_nil (by omega)) (hproper.take _)]
  | succ k ih =>
    rw [List.range_succ, List.reverse_append, List.reverse_singleton, List.singleton_append, List.map_cons]
    refine .cons ?_ ?_
    · rw [cleanSteps, ownSteps_ofComponents (take_succ_ne_nil (by omega)) (hproper.take _)]
    · rw [filter_take_succ htail hk]
      exact ih (by omega)

/-- The paths above a path are without its last step, without the last two, and so on. -/
theorem ascends_withAncestors (path : String) : Ascends (withAncestors path) (cleanSteps path) := by
  refine .cons rfl ?_
  have hproper := proper_components path
  have htail : ∀ c ∈ (components path).tail, c ≠ .here := fun c hc => ne_here_of_mem_tail hc
  rw [← filter_components]
  generalize components path = cs at hproper htail
  match hlength : cs.length with
  | 0 | 1 => exact .nil _
  | k + 2 =>
    have habove := ascends_take hproper htail (k := k) (by omega)
    have hsame := filter_take_succ htail (k := k) (by omega)
    rw [List.take_of_length_le (by omega)] at hsame
    rw [hsame]
    exact habove

/-- Without steps up, all steps but the first are to names. -/
theorem exists_name_of_mem_tail {path : String} (hup : .up ∉ components path) {c : Component}
    (h : c ∈ (cleanSteps path).tail) : ∃ name, c = .name name := by
  have hclean := filter_components path
  have hne : c ≠ .up := by
    rintro rfl
    rw [← hclean] at h
    exact hup (List.mem_of_mem_filter (List.mem_of_mem_tail h))
  have hmem : c ∈ ((parts path).map Component.ofText).filter (· ≠ .here) := by
    rw [cleanSteps, ownSteps] at h
    split at h
    · exact h
    · exact List.mem_of_mem_tail h
  obtain ⟨hpart, hhere⟩ := List.mem_filter.1 hmem
  obtain ⟨s, -, rfl⟩ := List.mem_map.1 hpart
  rw [Component.ofText] at hhere hne ⊢
  split at hhere
  · cases hhere
  · split at hhere
    · rename_i hs hups
      rw [if_neg hs, if_pos hups] at hne
      exact absurd rfl hne
    · rename_i hs hups
      rw [if_neg hs, if_neg hups]
      exact ⟨s, rfl⟩

/-! ## Names in a directory -/

theorem join_empty (name : String) : join "" name = name := by
  rw [join, if_pos (by decide), String.empty_append]

/-- The steps to a name in a directory, which can be the working directory too. -/
theorem steps_join_name (directory : String) {name : String} (hname : FileName name) :
    Disk.steps (join directory name) = ownSteps directory ++ [.name name] := by
  by_cases hdir : directory = ""
  · rw [hdir, join_empty, Disk.steps_fileName hname]
    rfl
  · exact Disk.steps_join hdir hname

theorem ownSteps_join (directory : String) {name : String} (hname : FileName name) :
    ownSteps (join directory name) = ownSteps directory ++ [.name name] := by
  rcases Disk.steps_eq_ownSteps (join directory name) with hsteps | hsteps
  · rw [← hsteps, steps_join_name directory hname]
  · rw [steps_join_name directory hname] at hsteps
    exact absurd (List.append_inj_right' hsteps rfl) (by simp)

end Path

end Covenant
