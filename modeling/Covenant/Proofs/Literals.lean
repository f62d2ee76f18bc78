import Covenant.Contract.Reader
import Covenant.Proofs.Conformance
import Covenant.Proofs.Mismatches
import Covenant.Proofs.Resolving
import Covenant.Proofs.YamlValues

/-!
# Declared texts that are no tokens

A declared string that is no token stands for one text: itself, or the token that it escapes. Loading,
comparisons and the check of headers each remove some escapes. Together they remove each of them once.

* `Denotes`: the text that a declared string stands for;
* `materializeText_request`, `materializeText_response`: what the string becomes in each role;
* `conforms_text_iff`: an expected string that is no wildcard accepts the text it stands for and nothing else;
* `OnlyTextAt`, `OnlyTextBody`, `OnlyTextHeader`: an expected value accepts one text and nothing else, at a
  place below it, as a whole body and as a header;
* `Contract.literal_read_once`: what is loaded for a declared string, wherever it stands.
-/

namespace Covenant

/-! ## The text that a string stands for -/

/-- The text that a declared string stands for: the token behind a backslash, if the string is an escape, and
otherwise the string itself. -/
inductive Denotes : String → String → Prop
  | escape {t : String} : IsToken t → Denotes ("\\" ++ t) t
  | text {s : String} : (∀ t, IsToken t → s ≠ "\\" ++ t) → Denotes s s

theorem denotes_iff {s t : String} : Denotes s t ↔ (escaped? s).getD s = t := by
  constructor
  · intro h
    cases h with
    | escape htoken => rw [escaped?_eq_some_iff.2 ⟨rfl, htoken⟩, Option.getD_some]
    | text hplain =>
      rcases escaped?_cases s with ⟨u, -, heq, htoken⟩ | ⟨hnone, -⟩
      · exact absurd heq (hplain u htoken)
      · rw [hnone, Option.getD_none]
  · intro h
    rcases escaped?_cases s with ⟨u, hu, rfl, htoken⟩ | ⟨hnone, hplain⟩
    · rw [hu, Option.getD_some] at h
      rw [← h]
      exact .escape htoken
    · rw [hnone, Option.getD_none] at h
      rw [← h]
      exact .text hplain

theorem exists_denotes (s : String) : ∃ t, Denotes s t :=
  ⟨(escaped? s).getD s, denotes_iff.2 rfl⟩

/-- A generator token is no escape. -/
theorem denotes_self_of_isGenerator {t : String} (h : isGenerator t = true) : Denotes t t := by
  refine .text ?_
  rintro u - rfl
  have hhead := head?_of_isGenerator h
  rw [String.toList_append] at hhead
  cases hhead

theorem ne_label_of_not_isToken {s : String} (h : ¬ IsToken s) (w : Wildcard) : s ≠ w.label := by
  rintro rfl
  exact h (.inl (isWildcard_label w))

/-! ## Loading -/

section Loading

variable {s t : String} (hs : ¬ IsToken s) (h : Denotes s t) (src : Source)

include hs in
theorem parse?_eq_none_of_not_isToken : Generator.parse? s = none := by
  have hgen : isGenerator s = false := Bool.eq_false_iff.2 fun hg => hs (.inr hg)
  simpa [isGenerator] using hgen

include hs h in
/-- In a request the string becomes the text it stands for. -/
theorem materializeText_request : materializeText .request s src = (.string t, src) := by
  have ht := denotes_iff.1 h
  rw [materializeText, parse?_eq_none_of_not_isToken hs]
  cases hesc : escaped? s with
  | none =>
    rw [hesc, Option.getD_none] at ht
    rw [ht]
    rfl
  | some u =>
    rw [hesc, Option.getD_some] at ht
    rw [ht]
    rfl

include hs h in
/-- In an expectation it becomes a string that is no wildcard and stands for the same text. -/
theorem materializeText_response :
    ∃ u, materializeText .response s src = (.string u, src) ∧ (∀ w : Wildcard, u ≠ w.label) ∧ Denotes u t := by
  rw [materializeText, parse?_eq_none_of_not_isToken hs]
  cases h with
  | escape htoken =>
    rw [escaped?_eq_some_iff.2 ⟨rfl, htoken⟩]
    by_cases hwild : isWildcard t = true
    · -- The escape of a wildcard is left for the comparison.
      refine ⟨"\\" ++ t, ?_, escape_ne_label t, .escape htoken⟩
      simp only [hwild, and_self, if_true]
      rfl
    · have hgen : isGenerator t = true := htoken.resolve_left hwild
      refine ⟨t, ?_, fun w heq => hwild ?_, denotes_self_of_isGenerator hgen⟩
      · simp only [hwild]
        rfl
      · rw [heq]
        exact isWildcard_label w
  | text hplain =>
    rcases escaped?_cases s with ⟨u, -, heq, htoken⟩ | ⟨hnone, -⟩
    · exact absurd heq (hplain u htoken)
    · rw [hnone]
      exact ⟨s, rfl, ne_label_of_not_isToken hs, .text hplain⟩

end Loading

/-! ## What an expected string accepts -/

section Accepting

variable {u t : String} (hu : ∀ w : Wildcard, u ≠ w.label) (h : Denotes u t)

include h in
theorem leafAccepts_text_iff {w : Json} : LeafAccepts (.string u) w ↔ w = .string t := by
  rw [← leafMatches_iff, ← denotes_iff.1 h]
  cases w with
  | string r => rw [leafMatches, beq_iff_eq, Json.string.injEq, eq_comm]
  | _ => simp [leafMatches]

/-- Nothing below a string is reached. -/
theorem reachedTogether_text_iff {w : Json} {q : List Step} :
    ReachedTogether (.string u) w q ↔ q = [] := by
  constructor
  · intro hq
    cases hq with
    | root => rfl
    | child hmem => exact absurd hmem List.not_mem_nil
  · rintro rfl
    exact .root _ _

theorem not_alike_text (u : String) (w : Json) : ¬ Alike (.string u) w := nofun

include hu h in
theorem meets_text_iff {w : Json} : meets (.string u) w = true ↔ w = .string t := by
  rw [meets_leaf fun w heq => hu w (Json.string.inj heq), leafAccepts_text_iff h]

include hu h in
theorem conforms_text_iff {w : Json} : Conforms (.string u) w ↔ w = .string t := by
  rw [conforms_iff_of_not_alike (not_alike_text u w), meets_text_iff hu h]

include hu h in
theorem clash_text_iff {w : Json} : Clash (.string u) w ↔ w ≠ .string t := by
  rw [clash_iff_of_not_alike (not_alike_text u w), ← Bool.not_eq_true, meets_text_iff hu h]

include hu h in
theorem headerMatches_text_iff {r : String} : headerMatches (.string u) r = true ↔ r = t := by
  rw [headerMatches_text hu, denotes_iff.1 h, eq_comm]

end Accepting

/-! ## Values that accept one text -/

/-- An expected tree accepts one text at a place and nothing else: a comparison within its limit reports the
place exactly if something else stands there. -/
def OnlyTextAt (e : Json) (p : List Step) (t : String) : Prop :=
  ∀ (d : Diff) (a w : Json), a.at? p = some w → (∀ q, ReachedTogether e a q → q.length ≤ d.maxDepth) →
    d.compare e a = .ok ((differences e a).map d.violation) ∧
    ((∃ x ∈ differences e a, x.place = p) ↔ w ≠ .string t)

/-- A whole body accepts one text and nothing else: the standard checks find nothing wrong with it exactly if
this text was received. -/
def OnlyTextBody (b : Json) (t : String) : Prop :=
  ∀ (e : Expectation) (a : Reply) (o : CheckOptions), e.body = some b →
    ((validate e a o).hasViolations = false ↔ e.status = a.status ∧ a.body = .string t ∧
      ∀ headers, e.headers = some headers → ∀ h ∈ headers, HeaderMet a o.ignoreHeaderCase h)

/-- A declared header value accepts one text and nothing else. -/
def OnlyTextHeader (v : Json) (t : String) : Prop :=
  ∀ (a : Reply) (ignoreCase : Bool) (name : String),
    headerViolation? a ignoreCase ⟨name, v⟩ = none ↔ receivedHeader? a ignoreCase name = some t

section Accepting

variable {u t : String} (hu : ∀ w : Wildcard, u ≠ w.label) (h : Denotes u t)

include hu h in
theorem onlyTextAt {e : Json} {p : List Step} (he : e.DistinctKeys) (hp : e.at? p = some (.string u)) :
    OnlyTextAt e p t := by
  intro d a w hw hdepth
  refine ⟨d.compare_eq_ok_iff.2 ⟨hdepth, rfl⟩, ?_⟩
  rw [← clash_text_iff hu h, ← exists_isMismatch_iff hp hw]
  simp only [mem_differences_iff he]

include hu h in
theorem onlyTextBody : OnlyTextBody (.string u) t := by
  intro e a o hbody
  let afterStatus := Report.empty.append (statusCheck.contribution e a o .empty)
  have hshared : ∀ p, ReachedTogether (.string u) a.body p → p.length ≤ o.maxDepth := by
    intro p hp
    rw [reachedTogether_text_iff.1 hp]
    exact Nat.zero_le _
  have hconforms : (∀ b, e.body = some b →
        Conforms b a.body ∧ ∀ p, ReachedTogether b a.body p → p.length ≤ o.maxDepth) ↔
      a.body = .string t := by
    simp only [hbody, Option.some.injEq, forall_eq', conforms_text_iff hu h, and_iff_left hshared]
  have hkind : a.body = .string t → bodyTypeCheck.contribution e a o afterStatus = [] := by
    intro ha
    refine bodyTypeCheck_contribution_eq_nil_iff.2 fun b hb => ?_
    rw [← Option.some.inj (hbody.symm.trans hb)]
    exact ((conforms_text_iff hu h).2 ha).demandedKind_eq
  have hrun := run_structure_headers_iff (e := e) (a := a) (o := o)
    (r := afterStatus.append (bodyTypeCheck.contribution e a o afterStatus))
  rw [Report.hasViolations_append_eq_false_iff, Report.hasViolations_append_eq_false_iff,
    statusCheck_contribution_eq_nil_iff, hconforms] at hrun
  refine hrun.trans ?_
  constructor
  · rintro ⟨⟨⟨-, hstatus⟩, -⟩, ha, hheaders⟩
    exact ⟨hstatus, ha, hheaders⟩
  · rintro ⟨hstatus, ha, hheaders⟩
    exact ⟨⟨⟨rfl, hstatus⟩, hkind ha⟩, ha, hheaders⟩

include hu h in
theorem onlyTextHeader : OnlyTextHeader (.string u) t := by
  intro a ignoreCase name
  rw [headerViolation?]
  cases receivedHeader? a ignoreCase name with
  | none => simp
  | some r =>
    rw [Option.some.injEq, ← headerMatches_text_iff hu h]
    exact ite_eq_left_iff.trans (by simp)

end Accepting

/-! ## Loading and accepting -/

namespace Contract

/-- A declared string that is no token is loaded for the text that it stands for, wherever it stands in the
value of a body, a header or a parameter. A request has this text in its place. What is loaded for an
expectation accepts this text in its place and nothing else, and so does the whole value if the string is all
of it, be it a body or a header. -/
theorem literal_read_once {s : String} (hs : ¬ IsToken s) {y : Yaml} {v : Json} {p : List Step}
    (hy : y.toJson? = .ok v) (hp : v.at? p = some (.string s)) (contract path : String) (src : Source) :
    ∃ t, Denotes s t ∧
      (∃ w src', valueOf contract path .request y src = .ok (w, src') ∧ w.at? p = some (.string t)) ∧
      ∃ e src', valueOf contract path .response y src = .ok (e, src') ∧ OnlyTextAt e p t ∧
        (p = [] → OnlyTextBody e t ∧ OnlyTextHeader e t) := by
  obtain ⟨t, ht⟩ := exists_denotes s
  refine ⟨t, ht, ⟨_, _, congrFun (valueOf_eq hy contract path .request) src, ?_⟩,
    ⟨_, _, congrFun (valueOf_eq hy contract path .response) src, ?_⟩⟩
  · obtain ⟨src', hat⟩ := at?_materialize .request hp src
    rw [hat, materialize, materializeText_request hs ht]
  · obtain ⟨src', hat⟩ := at?_materialize .response hp src
    obtain ⟨u, hu, hwild, hut⟩ := materializeText_response hs ht src'
    rw [materialize, hu] at hat
    have hdistinct : (materialize .response v src).1.DistinctKeys :=
      distinctKeys_materialize (Yaml.distinctKeys_of_toJson? hy) src
    refine ⟨onlyTextAt hwild hut hdistinct hat, ?_⟩
    rintro rfl
    rw [Option.some.inj hat]
    exact ⟨onlyTextBody hwild hut, onlyTextHeader hwild hut⟩

theorem literal_read_once_anyBool :
    ¬ IsToken "\\<anyBool>" ∧ (Yaml.string "\\<anyBool>").toJson? = .ok (.string "\\<anyBool>") ∧
    ∀ src, ∃ e src', valueOf "upload" "contract.response.body" .response (.string "\\<anyBool>") src =
      .ok (e, src') ∧ OnlyTextBody e "<anyBool>" ∧ OnlyTextHeader e "<anyBool>" := by
  have hs : ¬ IsToken "\\<anyBool>" := by decide +kernel
  refine ⟨hs, rfl, fun src => ?_⟩
  obtain ⟨t, ht, -, e, src', hload, -, hroot⟩ := literal_read_once (p := []) hs
    (y := .string "\\<anyBool>") rfl rfl "upload" "contract.response.body" src
  have htext : "<anyBool>" = t := by
    rw [← denotes_iff.1 ht]
    decide +kernel
  rw [← htext] at hroot
  exact ⟨e, src', hload, hroot rfl⟩

end Contract

end Covenant
