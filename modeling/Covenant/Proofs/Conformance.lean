import Covenant.Proofs.Comparison
import Covenant.Rules

/-!
# Replies that satisfy an expectation

The verdict of the standard checks as one declarative condition on status, body and headers.

* `Conforms`: acceptance of a value by an expected value, as a relation on trees;
* `HeaderAccepts`, `HeaderMet`: acceptance of a header text, and of a declared header by the received ones;
* `compare_eq_ok_nil_iff`: a comparison finds nothing exactly in conforming trees within the depth limit;
* `validate_finds_nothing_iff`: the standard checks find nothing exactly in replies that satisfy all of it.
-/

namespace Covenant

open Covenant.Text

/-! ## Bodies -/

/-- Acceptance of a value by an expected one. An object may have further fields, an array further items. -/
inductive Conforms : Json → Json → Prop
  | wildcard {w : Wildcard} {a : Json} : a.kind = w.kind → Conforms (.string w.label) a
  | object {es as : List (String × Json)} :
      (∀ k e, (k, e) ∈ es → (Json.lookup as k).isSome) →
      (∀ k e a, (k, e) ∈ es → Json.lookup as k = some a → Conforms e a) →
      Conforms (.object es) (.object as)
  | array {es as : List Json} :
      es.length ≤ as.length →
      (∀ (i : Nat) e a, es[i]? = some e → as[i]? = some a → Conforms e a) →
      Conforms (.array es) (.array as)
  | leaf {e a : Json} : (∀ w : Wildcard, e ≠ .string w.label) → LeafAccepts e a → Conforms e a

/-- Of two containers of the same kind, each expected child has to be there and to be accepted. -/
theorem conforms_iff_of_alike {e a : Json} (h : Alike e a) :
    Conforms e a ↔ ∀ c ∈ e.children, ∃ y, a.next? c.1 = some y ∧ Conforms c.2 y := by
  cases h with
  | objects es as =>
    constructor
    · intro hconf c hc
      obtain ⟨⟨k, e⟩, hf, rfl⟩ := List.mem_map.1 hc
      cases hconf with
      | object hpresent haccept =>
        obtain ⟨y, hy⟩ := Option.isSome_iff_exists.1 (hpresent k e hf)
        exact ⟨y, hy, haccept k e y hf hy⟩
      | leaf _ hleaf => cases hleaf
    · intro hchildren
      have hfield : ∀ k e, (k, e) ∈ es → ∃ y, Json.lookup as k = some y ∧ Conforms e y :=
        fun k e hf => hchildren (.field k, e) (List.mem_map.2 ⟨(k, e), hf, rfl⟩)
      refine .object (fun k e hf => ?_) fun k e a hf ha => ?_
      · obtain ⟨y, hy, -⟩ := hfield k e hf
        exact Option.isSome_iff_exists.2 ⟨y, hy⟩
      · obtain ⟨y, hy, hconf⟩ := hfield k e hf
        rwa [Option.some.inj (hy.symm.trans ha)] at hconf
  | arrays es as =>
    constructor
    · intro hconf c hc
      obtain ⟨⟨e, i⟩, hi, rfl⟩ := List.mem_map.1 hc
      have hi := List.mem_zipIdx_iff_getElem?.1 hi
      cases hconf with
      | array hlength haccept =>
        obtain ⟨hlt, -⟩ := List.getElem?_eq_some_iff.1 hi
        have hy : as[i]? = some (as.get ⟨i, by omega⟩) := List.getElem?_eq_getElem (by omega)
        exact ⟨_, hy, haccept i e _ hi hy⟩
      | leaf _ hleaf => cases hleaf
    · intro hchildren
      have hitem : ∀ (i : Nat) e, es[i]? = some e → ∃ y, as[i]? = some y ∧ Conforms e y :=
        fun i e hi => hchildren (.index i, e)
          (List.mem_map.2 ⟨(e, i), List.mem_zipIdx_iff_getElem?.2 hi, rfl⟩)
      refine .array ?_ fun i e a hi ha => ?_
      · by_contra hlt
        obtain ⟨y, hy, -⟩ := hitem as.length _ (List.getElem?_eq_getElem (by omega))
        simp at hy
      · obtain ⟨y, hy, hconf⟩ := hitem i e hi
        rwa [Option.some.inj (hy.symm.trans ha)] at hconf

theorem conforms_iff_of_not_alike {e a : Json} (h : ¬ Alike e a) : Conforms e a ↔ meets e a = true := by
  constructor
  · rintro (hkind | ⟨-, -⟩ | ⟨-, -⟩ | ⟨hno, hleaf⟩)
    · exact (meets_wildcard _ a).2 hkind
    · exact absurd (.objects _ _) h
    · exact absurd (.arrays _ _) h
    · exact (meets_leaf hno).2 hleaf
  · intro hmeets
    by_cases hwild : ∃ w : Wildcard, e = .string w.label
    · obtain ⟨w, rfl⟩ := hwild
      exact .wildcard ((meets_wildcard w a).1 hmeets)
    · have hno : ∀ w : Wildcard, e ≠ .string w.label := fun w hw => hwild ⟨w, hw⟩
      exact .leaf hno ((meets_leaf hno).1 hmeets)

/-- Trees differ nowhere exactly if the actual one conforms. -/
theorem differences_eq_nil_iff {e a : Json} : differences e a = [] ↔ Conforms e a := by
  induction e, a using pair_induction with
  | step e a ih =>
    by_cases halike : Alike e a
    · rw [differences_of_alike halike, List.flatMap_eq_nil_iff, conforms_iff_of_alike halike]
      refine forall₂_congr fun c hc => ?_
      rw [childDifferences]
      cases hy : a.next? c.1 with
      | none => simp
      | some y => simp [ih c.1 c.2 y hc hy]
    · rw [differences_of_not_alike halike, conforms_iff_of_not_alike halike]
      cases meets e a <;> simp

/-- A comparison finds nothing exactly in conforming trees that stay within the limit. -/
theorem compare_eq_ok_nil_iff {d : Diff} {e a : Json} :
    d.compare e a = .ok [] ↔
      Conforms e a ∧ ∀ p, ReachedTogether e a p → p.length ≤ d.maxDepth := by
  rw [Diff.compare_eq_ok_iff, and_comm]
  refine and_congr_left fun _ => ?_
  rw [eq_comm, List.map_eq_nil_iff, differences_eq_nil_iff]

theorem Conforms.demandedKind_eq {e a : Json} (h : Conforms e a) : demandedKind e = a.kind := by
  cases h with
  | wildcard hkind => rw [demandedKind, ofJson?_eq_some_iff.2 rfl, hkind]
  | object => rfl
  | array => rfl
  | leaf hno hleaf =>
    rw [demandedKind, ofJson?_eq_none_iff.2 hno]
    cases hleaf <;> rfl

/-! ## Headers -/

/-- Acceptance of a header text by a declared value. Headers are text, so a wildcard asks what the text
reads as, and a value that is no string stands for its rendered text. -/
inductive HeaderAccepts : Json → String → Prop
  | anyString (r : String) : HeaderAccepts (.string Wildcard.anyString.label) r
  | anyNumber {r : String} : (Decimal.readFloat? (trim r)).isSome →
      HeaderAccepts (.string Wildcard.anyNumber.label) r
  | anyBool {r : String} : trim r = "true" ∨ trim r = "false" →
      HeaderAccepts (.string Wildcard.anyBool.label) r
  | escape {t : String} : IsToken t → HeaderAccepts (.string ("\\" ++ t)) t
  | text {t : String} : (∀ w : Wildcard, t ≠ w.label) → (∀ u, IsToken u → t ≠ "\\" ++ u) →
      HeaderAccepts (.string t) t
  | rendered {v : Json} : (∀ t, v ≠ .string t) → HeaderAccepts v v.render

theorem headerMatches_wildcard {w : Wildcard} {r : String} :
    headerMatches (.string w.label) r = true ↔ HeaderAccepts (.string w.label) r := by
  rw [headerMatches, ofJson?_eq_some_iff.2 rfl]
  constructor
  · intro h
    cases w with
    | anyString => exact .anyString r
    | anyNumber => exact .anyNumber h
    | anyBool => exact .anyBool (by simpa using h)
  · intro h
    generalize hv : Json.string w.label = v at h
    cases h with
    | anyString => rw [Wildcard.label_injective (Json.string.inj hv)]
    | anyNumber h =>
      rw [Wildcard.label_injective (Json.string.inj hv)]
      exact h
    | anyBool h =>
      rw [Wildcard.label_injective (Json.string.inj hv)]
      simpa using h
    | escape => exact absurd (Json.string.inj hv).symm (escape_ne_label _ w)
    | text hno => exact absurd (Json.string.inj hv).symm (hno w)
    | rendered hno => exact absurd hv.symm (hno _)

theorem headerMatches_text {t r : String} (h : ∀ w : Wildcard, t ≠ w.label) :
    headerMatches (.string t) r = true ↔ (escaped? t).getD t = r := by
  rw [headerMatches, ofJson?_eq_none_iff.2 fun w hw => h w (Json.string.inj hw)]
  exact beq_iff_eq

theorem headerMatches_rendered {v : Json} {r : String} (h : ∀ t, v ≠ .string t) :
    headerMatches v r = true ↔ v.render = r := by
  unfold headerMatches
  rw [ofJson?_eq_none_iff.2 fun w => h w.label]
  cases v with
  | string t => exact absurd rfl (h t)
  | _ => exact beq_iff_eq

theorem headerMatches_iff {v : Json} {r : String} : headerMatches v r = true ↔ HeaderAccepts v r := by
  by_cases hwild : ∃ w : Wildcard, v = .string w.label
  · obtain ⟨w, rfl⟩ := hwild
    exact headerMatches_wildcard
  · by_cases hstring : ∃ t, v = .string t
    · obtain ⟨t, rfl⟩ := hstring
      have hno : ∀ w : Wildcard, t ≠ w.label := fun w hw => hwild ⟨w, congrArg Json.string hw⟩
      rw [headerMatches_text hno]
      rcases escaped?_cases t with ⟨u, hu, rfl, htoken⟩ | ⟨hnone, hplain⟩
      · rw [hu, Option.getD_some]
        constructor
        · rintro rfl
          exact .escape htoken
        · generalize hv : Json.string ("\\" ++ u) = v
          intro h
          cases h with
          | anyString | anyNumber | anyBool => exact absurd (Json.string.inj hv) (escape_ne_label u _)
          | escape => exact (String.append_right_inj "\\").1 (Json.string.inj hv)
          | text _ hplain => exact absurd (Json.string.inj hv).symm (hplain u htoken)
          | rendered hother => exact absurd hv.symm (hother _)
      · rw [hnone, Option.getD_none]
        constructor
        · rintro rfl
          exact .text hno hplain
        · generalize hv : Json.string t = v
          intro h
          cases h with
          | anyString | anyNumber | anyBool => exact absurd (Json.string.inj hv) (hno _)
          | escape htoken => exact absurd (Json.string.inj hv) (hplain _ htoken)
          | text => exact Json.string.inj hv
          | rendered hother => exact absurd hv.symm (hother _)
    · have hother : ∀ t, v ≠ .string t := fun t ht => hstring ⟨t, ht⟩
      rw [headerMatches_rendered hother]
      constructor
      · rintro rfl
        exact .rendered hother
      · intro h
        cases h with
        | anyString | anyNumber | anyBool | escape | text => exact absurd rfl (hother _)
        | rendered => rfl

/-- Equality of header names. -/
def SameName (ignoreCase : Bool) (m n : String) : Prop :=
  if ignoreCase then sameIgnoringCase m n = true else m = n

instance (ignoreCase : Bool) (m n : String) : Decidable (SameName ignoreCase m n) :=
  inferInstanceAs (Decidable (if ignoreCase then _ else _))

/-- Some received header has the declared name, and the value of the first of them is accepted. -/
def HeaderMet (a : Reply) (ignoreCase : Bool) (entry : NamedValue) : Prop :=
  ∃ before name value after, a.headers = before ++ (name, value) :: after ∧
    SameName ignoreCase name entry.name ∧ (∀ h ∈ before, ¬ SameName ignoreCase h.1 entry.name) ∧
    HeaderAccepts entry.value value

theorem receivedHeader?_eq (a : Reply) (ignoreCase : Bool) (name : String) :
    receivedHeader? a ignoreCase name =
      (a.headers.find? fun h => decide (SameName ignoreCase h.1 name)).map Prod.snd := by
  cases ignoreCase with
  | false =>
    refine congrArg (fun p => (a.headers.find? p).map Prod.snd) (funext fun h => ?_)
    exact Bool.eq_iff_iff.2 (by simp [SameName])
  | true =>
    refine congrArg (fun p => (a.headers.find? p).map Prod.snd) (funext fun h => ?_)
    exact Bool.eq_iff_iff.2 (by simp [SameName])

theorem receivedHeader?_eq_some_iff {a : Reply} {ignoreCase : Bool} {name value : String} :
    receivedHeader? a ignoreCase name = some value ↔
      ∃ before n after, a.headers = before ++ (n, value) :: after ∧ SameName ignoreCase n name ∧
        ∀ h ∈ before, ¬ SameName ignoreCase h.1 name := by
  rw [receivedHeader?_eq, Option.map_eq_some_iff]
  constructor
  · rintro ⟨⟨n, v⟩, hfind, rfl⟩
    obtain ⟨hsame, before, after, heq, hbefore⟩ := List.find?_eq_some_iff_append.1 hfind
    exact ⟨before, n, after, heq, by simpa using hsame, fun h hh => by simpa using hbefore h hh⟩
  · rintro ⟨before, n, after, heq, hsame, hbefore⟩
    refine ⟨(n, value), List.find?_eq_some_iff_append.2 ⟨by simpa using hsame, before, after, heq, ?_⟩, rfl⟩
    intro h hh
    simpa using hbefore h hh

theorem headerViolation?_eq_none_iff {a : Reply} {ignoreCase : Bool} {entry : NamedValue} :
    headerViolation? a ignoreCase entry = none ↔ HeaderMet a ignoreCase entry := by
  have hmet : HeaderMet a ignoreCase entry ↔
      ∃ value, receivedHeader? a ignoreCase entry.name = some value ∧ HeaderAccepts entry.value value := by
    simp only [receivedHeader?_eq_some_iff, HeaderMet]
    constructor
    · rintro ⟨before, n, value, after, heq, hsame, hbefore, haccept⟩
      exact ⟨value, ⟨before, n, after, heq, hsame, hbefore⟩, haccept⟩
    · rintro ⟨value, ⟨before, n, after, heq, hsame, hbefore⟩, haccept⟩
      exact ⟨before, n, value, after, heq, hsame, hbefore, haccept⟩
  rw [hmet, headerViolation?]
  cases receivedHeader? a ignoreCase entry.name with
  | none => simp
  | some value =>
    have hvalue : (∃ v, some value = some v ∧ HeaderAccepts entry.value v) ↔
        headerMatches entry.value value = true := by
      simp [headerMatches_iff]
    rw [hvalue]
    exact ite_eq_left_iff.trans (by simp)

/-! ## The standard checks -/

theorem statusCheck_contribution_eq_nil_iff {e : Expectation} {a : Reply} {o : CheckOptions} {r : Report} :
    statusCheck.contribution e a o r = [] ↔ e.status = a.status := by
  show (if e.status = a.status then _ else _) = [] ↔ _
  split <;> simp_all

theorem bodyTypeCheck_contribution_eq_nil_iff {e : Expectation} {a : Reply} {o : CheckOptions} {r : Report} :
    bodyTypeCheck.contribution e a o r = [] ↔ ∀ b, e.body = some b → demandedKind b = a.body.kind := by
  obtain ⟨status, headers, body⟩ := e
  cases body with
  | none => exact ⟨fun _ => nofun, fun _ => rfl⟩
  | some b =>
    show (if demandedKind b = a.body.kind then _ else _) = [] ↔ _
    split <;> simp_all

/-- A body is compared only if nothing was found before. -/
theorem bodyStructureCheck_contribution_eq_nil_iff {e : Expectation} {a : Reply} {o : CheckOptions}
    {r : Report} :
    bodyStructureCheck.contribution e a o r = [] ↔
      ∀ b, e.body = some b → r.hasViolations = false →
        Conforms b a.body ∧ ∀ p, ReachedTogether b a.body p → p.length ≤ o.maxDepth := by
  obtain ⟨status, headers, body⟩ := e
  rw [Check.contribution]
  cases body with
  | none => exact ⟨fun _ => nofun, fun _ => rfl⟩
  | some b =>
    show (if (!r.hasViolations) = true then _ else _) = [] ↔ _
    cases hr : r.hasViolations with
    | true => simp
    | false =>
      have hcompare := compare_eq_ok_nil_iff (d := ⟨Diff.bodyLabel, o.maxDepth⟩) (e := b) (a := a.body)
      simp only [Option.some.injEq, forall_eq', forall_const, ← hcompare, bodyStructureCheck]
      cases Diff.compare ⟨Diff.bodyLabel, o.maxDepth⟩ b a.body <;> simp

theorem headerCheck_contribution_eq_nil_iff {e : Expectation} {a : Reply} {o : CheckOptions} {r : Report} :
    headerCheck.contribution e a o r = [] ↔
      ∀ headers, e.headers = some headers → ∀ h ∈ headers, HeaderMet a o.ignoreHeaderCase h := by
  obtain ⟨status, headers, body⟩ := e
  cases headers with
  | none => exact ⟨fun _ => nofun, fun _ => rfl⟩
  | some headers =>
    show headers.filterMap (headerViolation? a o.ignoreHeaderCase) = [] ↔ _
    simp [List.filterMap_eq_nil_iff, headerViolation?_eq_none_iff]

/-- A report that is extended stays empty exactly if it was so and nothing is added. -/
theorem Report.hasViolations_append_eq_false_iff {r : Report} {vs : List Violation} :
    (r.append vs).hasViolations = false ↔ r.hasViolations = false ∧ vs = [] := by
  simp [Report.hasViolations, List.isEmpty_iff]

/-- The last two checks find nothing more exactly if nothing was found before and body and headers are
as declared. -/
theorem run_structure_headers_iff {e : Expectation} {a : Reply} {o : CheckOptions} {r : Report} :
    (Pipeline.runFrom [bodyStructureCheck, headerCheck] e a o r).hasViolations = false ↔
      r.hasViolations = false ∧
      (∀ b, e.body = some b →
        Conforms b a.body ∧ ∀ p, ReachedTogether b a.body p → p.length ≤ o.maxDepth) ∧
      (∀ headers, e.headers = some headers → ∀ h ∈ headers, HeaderMet a o.ignoreHeaderCase h) := by
  rw [Pipeline.runFrom_cons, Pipeline.runFrom_cons, Pipeline.runFrom_nil,
    Report.hasViolations_append_eq_false_iff, Report.hasViolations_append_eq_false_iff,
    bodyStructureCheck_contribution_eq_nil_iff, headerCheck_contribution_eq_nil_iff, and_assoc]
  refine and_congr_right fun hclean => and_congr_left fun _ => ?_
  exact forall₂_congr fun b _ => ⟨fun h => h hclean, fun h _ => h⟩

/-- The standard checks find nothing exactly in replies with the declared status, a conforming body whose
shared places stay within the depth limit, and all declared headers. The check of the body's kind adds
nothing to a body that conforms, and leaving it out changes no verdict. -/
theorem validate_finds_nothing_iff (e : Expectation) (a : Reply) (o : CheckOptions) :
    ((validate e a o).hasViolations = false ↔
      e.status = a.status ∧
      (∀ b, e.body = some b →
        Conforms b a.body ∧ ∀ p, ReachedTogether b a.body p → p.length ≤ o.maxDepth) ∧
      (∀ headers, e.headers = some headers → ∀ h ∈ headers, HeaderMet a o.ignoreHeaderCase h)) ∧
    (∀ b prior, e.body = some b → Conforms b a.body → bodyTypeCheck.contribution e a o prior = []) ∧
    (Pipeline.run [statusCheck, bodyStructureCheck, headerCheck] e a o).hasViolations =
      (validate e a o).hasViolations := by
  have hempty : Report.empty.hasViolations = false := rfl
  have hkind : ∀ b prior, e.body = some b → Conforms b a.body →
      bodyTypeCheck.contribution e a o prior = [] := by
    intro b prior hb hconf
    refine bodyTypeCheck_contribution_eq_nil_iff.2 fun b' hb' => ?_
    rw [Option.some.inj (hb'.symm.trans hb)]
    exact hconf.demandedKind_eq
  let afterStatus := Report.empty.append (statusCheck.contribution e a o .empty)
  have hstatus : afterStatus.hasViolations = false ↔ e.status = a.status := by
    rw [Report.hasViolations_append_eq_false_iff, statusCheck_contribution_eq_nil_iff, and_iff_right hempty]
  have hshort := run_structure_headers_iff (e := e) (a := a) (o := o) (r := afterStatus)
  have hfull := run_structure_headers_iff (e := e) (a := a) (o := o)
    (r := afterStatus.append (bodyTypeCheck.contribution e a o afterStatus))
  rw [hstatus] at hshort
  rw [Report.hasViolations_append_eq_false_iff, hstatus, and_assoc] at hfull
  -- The kind of the body is right wherever the body conforms.
  have hdrop : (validate e a o).hasViolations = false ↔
      (Pipeline.run [statusCheck, bodyStructureCheck, headerCheck] e a o).hasViolations = false := by
    refine hfull.trans (Iff.trans ?_ hshort.symm)
    refine and_congr_right fun _ => and_iff_right_of_imp fun h => ?_
    exact bodyTypeCheck_contribution_eq_nil_iff.2 fun b hb => (h.1 b hb).1.demandedKind_eq
  refine ⟨hdrop.trans hshort, hkind, ?_⟩
  exact Bool.eq_iff_iff.2 (not_iff_not.1 (by simpa using hdrop.symm))

end Covenant
