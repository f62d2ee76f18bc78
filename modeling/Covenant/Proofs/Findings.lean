import Covenant.Proofs.Conformance

/-!
# What the standard checks report

The report of the standard checks has two parts. What they find in status and body comes first and does not
depend on headers; what they find in the headers follows and does not depend on status and body.

* `UnmetHeader`: the violation of a declared header that is not met;
* `headerFindings`, `forall₂_headerFindings`: one violation for each header that is not met;
* `BodyVerdict`: what is reported of status and body, by which of them are wrong;
* `bodyFindings`, `bodyVerdict_bodyFindings`: what is reported of them is that;
* `validate_splits`: the two parts, and what each depends on.
-/

namespace Covenant

/-! ## Headers -/

theorem receivedHeader?_eq_none_iff {a : Reply} {ignoreCase : Bool} {name : String} :
    receivedHeader? a ignoreCase name = none ↔ ∀ h ∈ a.headers, ¬ SameName ignoreCase h.1 name := by
  rw [receivedHeader?_eq, Option.map_eq_none_iff, List.find?_eq_none]
  simp

/-- The violation of a declared header that is not met: no header of this name was received, or the first one
has a value that is not accepted. -/
inductive UnmetHeader (a : Reply) (ignoreCase : Bool) (entry : NamedValue) : Violation → Prop
  | missing : (∀ h ∈ a.headers, ¬ SameName ignoreCase h.1 entry.name) →
      UnmetHeader a ignoreCase entry ⟨"header '" ++ entry.name ++ "'", entry.value, .missing⟩
  | refused {before after : List (String × String)} {name value : String} :
      a.headers = before ++ (name, value) :: after → SameName ignoreCase name entry.name →
      (∀ h ∈ before, ¬ SameName ignoreCase h.1 entry.name) → ¬ HeaderAccepts entry.value value →
      UnmetHeader a ignoreCase entry
        ⟨"header '" ++ entry.name ++ "'", entry.value, .present (.string value)⟩

theorem unmetHeader_of_headerViolation? {a : Reply} {ignoreCase : Bool} {entry : NamedValue}
    {v : Violation} (h : headerViolation? a ignoreCase entry = some v) : UnmetHeader a ignoreCase entry v := by
  rw [headerViolation?] at h
  cases hreceived : receivedHeader? a ignoreCase entry.name with
  | none =>
    rw [hreceived] at h
    cases h
    exact .missing (receivedHeader?_eq_none_iff.1 hreceived)
  | some value =>
    obtain ⟨before, name, after, hheaders, hsame, hbefore⟩ := receivedHeader?_eq_some_iff.1 hreceived
    rw [hreceived] at h
    by_cases hmatches : headerMatches entry.value value = true
    · simp [hmatches] at h
    · simp only [hmatches, Bool.false_eq_true, if_false, Option.some.injEq] at h
      rw [← h]
      exact .refused hheaders hsame hbefore fun haccepts => hmatches (headerMatches_iff.2 haccepts)

instance (a : Reply) (ignoreCase : Bool) (entry : NamedValue) : Decidable (HeaderMet a ignoreCase entry) :=
  decidable_of_iff ((headerViolation? a ignoreCase entry).isNone = true)
    (Option.isNone_iff_eq_none.trans headerViolation?_eq_none_iff)

/-- What the standard checks find in status and body. -/
def bodyFindings (e : Expectation) (a : Reply) (o : CheckOptions) : List Violation :=
  (Pipeline.run [statusCheck, bodyTypeCheck, bodyStructureCheck] e a o).violations

/-- What they find in the headers, after the rest. -/
def headerFindings (e : Expectation) (a : Reply) (o : CheckOptions) : List Violation :=
  headerCheck.contribution e a o ⟨bodyFindings e a o⟩

theorem validate_violations (e : Expectation) (a : Reply) (o : CheckOptions) :
    (validate e a o).violations = bodyFindings e a o ++ headerFindings e a o := rfl

theorem headerFindings_eq (e : Expectation) (a : Reply) (o : CheckOptions) :
    headerFindings e a o = (e.headers.getD []).filterMap (headerViolation? a o.ignoreHeaderCase) := by
  obtain ⟨status, headers, body⟩ := e
  cases headers <;> rfl

/-- Whatever is kept of a list by a partial function, in order, belongs to the items on which it is defined. -/
theorem forall₂_filterMap {α β : Type} {f : α → Option β} {P : α → Prop} [DecidablePred P]
    {R : α → β → Prop} (hnone : ∀ x, f x = none ↔ P x) (hsome : ∀ x y, f x = some y → R x y) (xs : List α) :
    List.Forall₂ R (xs.filter fun x => ¬ P x) (xs.filterMap f) := by
  induction xs with
  | nil => exact .nil
  | cons x xs ih =>
    cases hx : f x with
    | none =>
      rw [List.filterMap_cons_none hx, List.filter_cons_of_neg (by simpa using (hnone x).1 hx)]
      exact ih
    | some y =>
      have hP : ¬ P x := fun h => by
        rw [(hnone x).2 h] at hx
        cases hx
      rw [List.filterMap_cons_some hx, List.filter_cons_of_pos (by simpa using hP)]
      exact .cons (hsome x y hx) ih

/-- One violation for each declared header that is not met, in the order of their declaration. -/
theorem forall₂_headerFindings (e : Expectation) (a : Reply) (o : CheckOptions) :
    List.Forall₂ (UnmetHeader a o.ignoreHeaderCase)
      ((e.headers.getD []).filter fun h => ¬ HeaderMet a o.ignoreHeaderCase h) (headerFindings e a o) := by
  rw [headerFindings_eq]
  exact forall₂_filterMap (fun _ => headerViolation?_eq_none_iff)
    (fun _ _ => unmetHeader_of_headerViolation?) _

theorem headerFindings_congr {e e' : Expectation} {a a' : Reply} {o o' : CheckOptions}
    (he : e'.headers = e.headers) (ha : a'.headers = a.headers)
    (ho : o'.ignoreHeaderCase = o.ignoreHeaderCase) : headerFindings e' a' o' = headerFindings e a o := by
  have hviolation : headerViolation? a' o'.ignoreHeaderCase = headerViolation? a o.ignoreHeaderCase := by
    obtain ⟨status, headers, body⟩ := a
    obtain ⟨status', headers', body'⟩ := a'
    cases ha
    rw [ho]
    rfl
  rw [headerFindings_eq, headerFindings_eq, he, hviolation]

/-! ## Status and body -/

/-- The violation of a status code that is not the declared one. -/
def statusViolation (e : Expectation) (a : Reply) : Violation :=
  ⟨"statusCode", .ofUInt16 e.status, .present (.ofUInt16 a.status)⟩

/-- The violation of a body that has not the demanded kind. -/
def kindViolation (b : Json) (a : Reply) : Violation :=
  ⟨"type of 'body'", .string (demandedKind b).name, .present (.string a.body.kind.name)⟩

/-- The comparison that the standard checks make of bodies. -/
def bodyDiff (o : CheckOptions) : Diff := ⟨Diff.bodyLabel, o.maxDepth⟩

/-- What is reported of status and body. Bodies are compared only if the status code and the kind of the body
are right. -/
inductive BodyVerdict (e : Expectation) (a : Reply) (o : CheckOptions) : List Violation → Prop
  | status : e.status ≠ a.status → (∀ b, e.body = some b → demandedKind b = a.body.kind) →
      BodyVerdict e a o [statusViolation e a]
  | kind {b : Json} : e.status = a.status → e.body = some b → demandedKind b ≠ a.body.kind →
      BodyVerdict e a o [kindViolation b a]
  | statusAndKind {b : Json} : e.status ≠ a.status → e.body = some b → demandedKind b ≠ a.body.kind →
      BodyVerdict e a o [statusViolation e a, kindViolation b a]
  | noBody : e.status = a.status → e.body = none → BodyVerdict e a o []
  | compared {b : Json} {vs : List Violation} : e.status = a.status → e.body = some b →
      demandedKind b = a.body.kind → (bodyDiff o).compare b a.body = .ok vs → BodyVerdict e a o vs
  | tooDeep {b : Json} {p : List Step} : e.status = a.status → e.body = some b →
      demandedKind b = a.body.kind → ReachedTogether b a.body p → o.maxDepth < p.length →
      (bodyDiff o).compare b a.body = .error ((bodyDiff o).depthError p) →
      BodyVerdict e a o [incomplete "body-structure" ((bodyDiff o).depthError p).message]

/-- A comparison fails only at a place beyond the limit. -/
theorem Diff.exists_of_compare_eq_error {d : Diff} {e a : Json} {err : CheckError}
    (h : d.compare e a = .error err) :
    ∃ p, ReachedTogether e a p ∧ d.maxDepth < p.length ∧ err = d.depthError p := by
  rw [compare_eq] at h
  cases hfind : (reached e a).find? d.isTooDeep with
  | none =>
    rw [hfind] at h
    cases h
  | some p =>
    rw [hfind] at h
    cases h
    have hdeep : d.isTooDeep p = true := List.find?_some hfind
    exact ⟨p, mem_reached_iff.1 (List.mem_of_find?_eq_some hfind), of_decide_eq_true hdeep, rfl⟩

section Findings

variable (e : Expectation) (a : Reply) (o : CheckOptions) (r : Report)

variable {e}

theorem bodyTypeCheck_contribution_none (h : e.body = none) : bodyTypeCheck.contribution e a o r = [] := by
  rw [bodyTypeCheck_contribution_eq_nil_iff]
  intro b hb
  rw [h] at hb
  cases hb

theorem bodyTypeCheck_contribution_some {b : Json} (h : e.body = some b) :
    bodyTypeCheck.contribution e a o r =
      if demandedKind b = a.body.kind then [] else [kindViolation b a] := by
  obtain ⟨status, headers, body⟩ := e
  cases h
  rfl

theorem bodyStructureCheck_contribution_none (h : e.body = none) :
    bodyStructureCheck.contribution e a o r = [] := by
  rw [bodyStructureCheck_contribution_eq_nil_iff]
  intro b hb
  rw [h] at hb
  cases hb

/-- After a violation the bodies are not compared. -/
theorem bodyStructureCheck_contribution_found {r : Report} (h : r.hasViolations = true) :
    bodyStructureCheck.contribution e a o r = [] := by
  rw [bodyStructureCheck_contribution_eq_nil_iff]
  intro b hb hclean
  rw [h] at hclean
  cases hclean

section Compared

variable {a o} {b : Json} (hbody : e.body = some b)

include hbody

theorem bodyStructureCheck_contribution_ok {vs : List Violation}
    (hcompare : (bodyDiff o).compare b a.body = .ok vs) :
    bodyStructureCheck.contribution e a o .empty = vs := by
  obtain ⟨status, headers, body⟩ := e
  cases hbody
  have heval : bodyStructureCheck.evaluate ⟨status, headers, some b⟩ a o .empty = .violations vs := by
    rw [bodyDiff] at hcompare
    simp only [bodyStructureCheck, hcompare]
  rw [Check.contribution, heval]
  rfl

theorem bodyStructureCheck_contribution_error {err : CheckError}
    (hcompare : (bodyDiff o).compare b a.body = .error err) :
    bodyStructureCheck.contribution e a o .empty = [incomplete "body-structure" err.message] := by
  obtain ⟨status, headers, body⟩ := e
  cases hbody
  have heval : bodyStructureCheck.evaluate ⟨status, headers, some b⟩ a o .empty = .failed err := by
    rw [bodyDiff] at hcompare
    simp only [bodyStructureCheck, hcompare]
  rw [Check.contribution, heval]
  rfl

end Compared

end Findings

/-- What the checks of status and kind find comes first, and the comparison sees it. -/
theorem bodyFindings_eq {e : Expectation} {a : Reply} {o : CheckOptions} {ss ks : List Violation}
    (hs : statusCheck.contribution e a o .empty = ss) (hk : bodyTypeCheck.contribution e a o ⟨ss⟩ = ks) :
    bodyFindings e a o = ss ++ ks ++ bodyStructureCheck.contribution e a o ⟨ss ++ ks⟩ := by
  rw [← hk, ← hs]
  rfl

theorem bodyFindings_of_found {e : Expectation} {a : Reply} {o : CheckOptions} {ss ks : List Violation}
    (hs : statusCheck.contribution e a o .empty = ss) (hk : bodyTypeCheck.contribution e a o ⟨ss⟩ = ks)
    (hfound : (Report.mk (ss ++ ks)).hasViolations = true) : bodyFindings e a o = ss ++ ks := by
  rw [bodyFindings_eq hs hk, bodyStructureCheck_contribution_found a o hfound, List.append_nil]

theorem bodyVerdict_bodyFindings (e : Expectation) (a : Reply) (o : CheckOptions) :
    BodyVerdict e a o (bodyFindings e a o) := by
  by_cases hstatus : e.status = a.status
  · have hs : statusCheck.contribution e a o .empty = [] := if_pos hstatus
    cases hbody : e.body with
    | none =>
      rw [bodyFindings_eq hs (bodyTypeCheck_contribution_none a o _ hbody),
        bodyStructureCheck_contribution_none a o _ hbody]
      exact .noBody hstatus hbody
    | some b =>
      have hk := bodyTypeCheck_contribution_some a o ⟨[]⟩ hbody
      by_cases hkind : demandedKind b = a.body.kind
      · -- Nothing was found, so the bodies are compared.
        rw [if_pos hkind] at hk
        rw [bodyFindings_eq hs hk]
        show BodyVerdict e a o (bodyStructureCheck.contribution e a o .empty)
        cases hcompare : (bodyDiff o).compare b a.body with
        | ok vs =>
          rw [bodyStructureCheck_contribution_ok hbody hcompare]
          exact .compared hstatus hbody hkind hcompare
        | error err =>
          rw [bodyStructureCheck_contribution_error hbody hcompare]
          obtain ⟨p, hreached, hdeep, rfl⟩ := Diff.exists_of_compare_eq_error hcompare
          exact .tooDeep hstatus hbody hkind hreached hdeep hcompare
      · rw [if_neg hkind] at hk
        rw [bodyFindings_of_found hs hk rfl]
        exact .kind hstatus hbody hkind
  · have hs : statusCheck.contribution e a o .empty = [statusViolation e a] := if_neg hstatus
    cases hbody : e.body with
    | none =>
      rw [bodyFindings_of_found hs (bodyTypeCheck_contribution_none a o _ hbody) rfl]
      refine .status hstatus ?_
      intro b hb
      rw [hbody] at hb
      cases hb
    | some b =>
      have hk := bodyTypeCheck_contribution_some a o ⟨[statusViolation e a]⟩ hbody
      by_cases hkind : demandedKind b = a.body.kind
      · rw [if_pos hkind] at hk
        rw [bodyFindings_of_found hs hk rfl]
        refine .status hstatus ?_
        intro b' hb
        rw [Option.some.inj (hb.symm.trans hbody)]
        exact hkind
      · rw [if_neg hkind] at hk
        rw [bodyFindings_of_found hs hk rfl]
        exact .statusAndKind hstatus hbody hkind

theorem bodyFindings_congr {e e' : Expectation} {a a' : Reply} {o o' : CheckOptions}
    (hes : e'.status = e.status) (heb : e'.body = e.body) (has : a'.status = a.status)
    (hab : a'.body = a.body) (ho : o'.maxDepth = o.maxDepth) : bodyFindings e' a' o' = bodyFindings e a o := by
  obtain ⟨_, _, _⟩ := e
  obtain ⟨_, _, _⟩ := e'
  obtain ⟨_, _, _⟩ := a
  obtain ⟨_, _, _⟩ := a'
  obtain ⟨_, _⟩ := o
  obtain ⟨_, _⟩ := o'
  cases hes
  cases heb
  cases has
  cases hab
  cases ho
  rfl

/-! ## The report -/

/-- The report of the standard checks consists of what they find in status and body and of what they find in
the headers. The second part depends on the declared and the received headers and on how names are matched,
and holds one violation for each declared header that is not met, in the order of their declaration. The first
part depends on status and body and on the depth limit, and holds differences in the body only if the status
code and the kind of the body are right. -/
theorem validate_splits (e : Expectation) (a : Reply) (o : CheckOptions) :
    (validate e a o).violations = bodyFindings e a o ++ headerFindings e a o ∧
    (∀ e' a' o', e'.headers = e.headers → a'.headers = a.headers →
      o'.ignoreHeaderCase = o.ignoreHeaderCase → headerFindings e' a' o' = headerFindings e a o) ∧
    List.Forall₂ (UnmetHeader a o.ignoreHeaderCase)
      ((e.headers.getD []).filter fun h => ¬ HeaderMet a o.ignoreHeaderCase h) (headerFindings e a o) ∧
    (∀ e' a' o', e'.status = e.status → e'.body = e.body → a'.status = a.status → a'.body = a.body →
      o'.maxDepth = o.maxDepth → bodyFindings e' a' o' = bodyFindings e a o) ∧
    BodyVerdict e a o (bodyFindings e a o) := by
  refine ⟨validate_violations e a o, ?_, forall₂_headerFindings e a o, ?_, bodyVerdict_bodyFindings e a o⟩
  · intro e' a' o' he ha ho
    exact headerFindings_congr he ha ho
  · intro e' a' o' hes heb has hab ho
    exact bodyFindings_congr hes heb has hab ho

/-- With a wrong status code the item that differs is not reported, and the header that is missing is. -/
example : ((validate ⟨200, some [⟨"X", .null⟩], some (.array [.null])⟩ ⟨500, [], .array [.bool true]⟩
    .standard).violations.map Violation.key) = ["statusCode", "header 'X'"] := rfl

end Covenant
