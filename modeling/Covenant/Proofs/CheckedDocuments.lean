import Covenant.Proofs.Declarations

/-!
# Documents of contracts

The parts of a document are checked one after the other. It is loaded if all of them are accepted, and otherwise
the first one that is not accepted decides the error.

* `Contract.Sound`, `Contract.BlamesPart`: a part of a document is accepted, and the error if it is not;
* `Contract.judgesAll_ofDocument`: reading a document checks all its parts in their order;
* `Contract.document_loads_iff`: which documents are loaded, and what is blamed for the others.
-/

namespace Covenant

open Loading

namespace Contract

section

variable (name : String) (doc : Yaml)

/-- A part of a document is accepted. -/
def Sound (p : Part) : Prop := Accepts p.form (p.declared? doc)

/-- The error for a part of a document. -/
def BlamesPart (p : Part) (e : ContractError) : Prop := Blames name p.place p.form (p.declared? doc) e

/-- A part is declared behind its last key, in the part that it stands in. -/
theorem Part.declared?_of_keys {v : Yaml} {p q : Part} {key : String} (hkeys : p.keys = q.keys ++ [key])
    (hq : q.declared? doc = some v) : p.declared? doc = optional? v key := by
  rw [declared?, hkeys, List.foldlM_append]
  show (q.declared? doc).bind _ = _
  rw [hq]
  show (optional? v key).bind some = optional? v key
  exact Option.bind_fun_some _

theorem tagless_of_declared? {p : Part} {v : Yaml} (h : doc.Tagless) (hv : p.declared? doc = some v) :
    v.Tagless := by
  have hall : ∀ (keys : List String) (x : Yaml), x.Tagless → keys.foldlM optional? x = some v → v.Tagless := by
    intro keys
    induction keys with
    | nil =>
      intro x hx heq
      cases heq
      exact hx
    | cons key keys ih =>
      intro x hx heq
      obtain ⟨y, hy, hrest⟩ := Option.bind_eq_some_iff.1 heq
      exact ih y (hx.get? (Option.filter_eq_some_iff.1 hy).1) hrest
  exact hall p.keys doc h hv

/-- A part of such a form has to be there. -/
theorem not_sound_of_missing {p : Part} (hform : p.form = .group ∨ p.form = .text ∨ p.form = .status)
    (hmissing : p.declared? doc = none) :
    ¬ Sound doc p ∧ BlamesPart name doc p (.missingField name p.place) := by
  rw [Sound, BlamesPart, hmissing]
  refine ⟨fun h => ?_, .missing hform⟩
  rcases hform with hform | hform | hform <;> rw [hform] at h <;> cases h

section

variable {name doc} {α : Type} {p : Part} {parent : Yaml} {key : String}
  (hdeclared : p.declared? doc = optional? parent key)

include hdeclared

/-- What is in a group is checked after the group. -/
theorem judgesAll_group {ps : List Part} {f : Yaml → Loading α} (hform : p.form = .group)
    (hf : ∀ v, p.declared? doc = some v → JudgesAll (Sound doc) (BlamesPart name doc) ps (f v)) :
    JudgesAll (Sound doc) (BlamesPart name doc) (p :: ps)
      (Loading.ofExcept (required name parent key p.place) >>= f) := by
  rw [required, ← hdeclared]
  cases hv : p.declared? doc with
  | none =>
    obtain ⟨hno, hblames⟩ := not_sound_of_missing name doc (.inl hform) hv
    exact fun s => ⟨fun h => hno (h p List.mem_cons_self), .here hno hblames⟩
  | some v =>
    have hsound : Sound doc p := by
      rw [Sound, hform, hv]
      exact .group v
    refine (hf v hv).imp ?_ fun e _ h => .later hsound h
    rw [List.forall_mem_cons]
    exact (and_iff_right hsound).symm

theorem judges_required {check : Yaml → Except ContractError α} (hform : p.form = .text ∨ p.form = .status)
    (hcheck : ∀ v, p.declared? doc = some v →
      Judges (Accepts p.form (some v)) (Blames name p.place p.form (some v)) (Loading.ofExcept (check v))) :
    Judges (Sound doc p) (BlamesPart name doc p) (Loading.ofExcept (required name parent key p.place >>= check)) := by
  rw [required, ← hdeclared]
  cases hv : p.declared? doc with
  | none =>
    exact fun s => not_sound_of_missing name doc (.inr hform) hv
  | some v =>
    have hjudges := hcheck v hv
    rw [← hv] at hjudges
    exact hjudges

end

theorem judgesAll_requestOf {request : Yaml} (h : doc.Tagless)
    (hrequest : Part.request.declared? doc = some request) :
    JudgesAll (Sound doc) (BlamesPart name doc) [.path, .method, .headers, .params, .body]
      (requestOf name request) := by
  have hdeclared : ∀ (p : Part) (key : String), p.keys = Part.request.keys ++ [key] →
      p.declared? doc = optional? request key := fun p key hkeys => Part.declared?_of_keys doc hkeys hrequest
  rw [requestOf, ← hdeclared .method "method" rfl, ← hdeclared .headers "headers" rfl,
    ← hdeclared .params "params" rfl, ← hdeclared .body "body" rfl]
  refine .cons (judges_required (hdeclared .path "path" rfl) (.inl rfl) ?_) fun path => ?_
  · intro v hv
    exact judges_pathOf (tagless_of_declared? doc h hv)
  refine .cons (judges_methodOf fun v hv => tagless_of_declared? doc h hv) fun method => ?_
  refine .cons (judges_namedValues name (Part.place .headers) .request _) fun headers => ?_
  refine .cons (judges_namedValues name (Part.place .params) .request _) fun params => ?_
  exact .cons (judges_optionalValue name (Part.place .body) .request _) fun body => judgesAll_nil

theorem judgesAll_expectationOf {response : Yaml} (hresponse : Part.response.declared? doc = some response) :
    JudgesAll (Sound doc) (BlamesPart name doc) [.status, .expectedHeaders, .expectedBody]
      (expectationOf name response) := by
  have hdeclared : ∀ (p : Part) (key : String), p.keys = Part.response.keys ++ [key] →
      p.declared? doc = optional? response key := fun p key hkeys => Part.declared?_of_keys doc hkeys hresponse
  rw [expectationOf, ← hdeclared .expectedHeaders "headers" rfl, ← hdeclared .expectedBody "body" rfl]
  refine .cons (judges_required (hdeclared .status "statusCode" rfl) (.inr rfl) ?_) fun status => ?_
  · intro v hv
    exact judges_statusOf v
  refine .cons (judges_namedValues name (Part.place .expectedHeaders) .response _) fun headers => ?_
  exact .cons (judges_optionalValue name (Part.place .expectedBody) .response _) fun body => judgesAll_nil

/-- Reading a document checks its parts one after the other. -/
theorem judgesAll_ofDocument (h : doc.Tagless) :
    JudgesAll (Sound doc) (BlamesPart name doc) Part.all (ofDocument name doc) := by
  have hcontract : Part.contract.declared? doc = optional? doc "contract" := Option.bind_fun_some _
  refine judgesAll_group hcontract rfl fun contract hc => ?_
  refine judgesAll_group (Part.declared?_of_keys doc rfl hc) rfl fun request hrequest => ?_
  refine judgesAll_group (Part.declared?_of_keys doc rfl hc) rfl fun response hresponse => ?_
  refine JudgesAll.append (judgesAll_requestOf name doc h hrequest) fun r => ?_
  exact Judges.map (judgesAll_expectationOf name doc hresponse) (Contract.mk name r)

end

/-- A document without tags is loaded exactly if each of its parts is accepted, whatever is drawn. Otherwise the
error is the one for the first part, in the order of the checks, that is not accepted. The contract of a text is
that of the document it is read as. -/
theorem document_loads_iff (name : String) {doc : Yaml} (h : doc.Tagless) (s : Source) :
    ((∃ c s', ofDocument name doc s = .ok (c, s')) ↔ ∀ p, Sound doc p) ∧
    (∀ before p after, Part.all = before ++ p :: after → (∀ q ∈ before, Sound doc q) → ¬ Sound doc p →
      ∃ e, ofDocument name doc s = .error e ∧ BlamesPart name doc p e) ∧
    ∀ text, Yaml.read? text = some doc → ofText name text = ofDocument name doc := by
  have hall : (∀ p ∈ Part.all, Sound doc p) ↔ ∀ p, Sound doc p :=
    ⟨fun hsound p => hsound p p.mem_all, fun hsound p _ => hsound p⟩
  have hjudged := judgesAll_ofDocument name doc h s
  refine ⟨?_, ?_, ?_⟩
  · cases hload : ofDocument name doc s with
    | ok r =>
      rw [hload] at hjudged
      exact ⟨fun _ => hall.1 hjudged, fun _ => ⟨r.1, r.2, rfl⟩⟩
    | error e =>
      rw [hload] at hjudged
      exact ⟨nofun, fun hsound => absurd (hall.2 hsound) hjudged.1⟩
  · intro before p after hparts hbefore hp
    cases hload : ofDocument name doc s with
    | ok r =>
      rw [hload] at hjudged
      exact absurd (hall.1 hjudged p) hp
    | error e =>
      rw [hload] at hjudged
      have hfirst := hjudged.2
      rw [hparts] at hfirst
      exact ⟨e, rfl, hfirst.blames_of_append hbefore hp⟩
  · intro text htext
    rw [ofText, htext]

/-- A document with a path, a method and a status. -/
def plainDocument (path method status : String) : Yaml :=
  .ofJson (.object [("contract", .object [
    ("request", .object [("path", .string path), ("method", .string method)]),
    ("response", .object [("statusCode", .string status)])])])

theorem declared?_plainDocument (path method status : String) (p : Part) :
    p.declared? (plainDocument path method status) = match p with
      | .contract => some (.ofJson (.object [
          ("request", .object [("path", .string path), ("method", .string method)]),
          ("response", .object [("statusCode", .string status)])]))
      | .request => some (.ofJson (.object [("path", .string path), ("method", .string method)]))
      | .response => some (.ofJson (.object [("statusCode", .string status)]))
      | .path => some (.string path)
      | .method => some (.string method)
      | .status => some (.string status)
      | _ => none := by
  cases p <;> rfl

theorem document_loads_iff_plainDocument :
    (∃ c s', ofDocument "users" (plainDocument "/users" " get " "+200") .least = .ok (c, s')) ∧
    ∃ e, ofDocument "users" (plainDocument "/users" "fetch" "+200") .least = .error e ∧
      BlamesPart "users" (plainDocument "/users" "fetch" "+200") .method e := by
  have htagless : ∀ method, (plainDocument "/users" method "+200").Tagless :=
    fun method => Yaml.tagless_ofJson _
  have hread : Decimal.unsigned? 200 (Text.trim "+200") = some 200 := by decide
  have hstatus := (Decimal.unsigned?_eq_some_iff.1 hread).1
  have hsound : ∀ method p, p ≠ .method → Sound (plainDocument "/users" method "+200") p := by
    intro method p hp
    rw [Sound, declared?_plainDocument]
    cases p with
    | method => exact absurd rfl hp
    | contract | request | response => exact .group _
    | path => exact .text _
    | headers | params | expectedHeaders => exact .noNames
    | body | expectedBody => exact .noValue
    | status => exact .statusText hstatus (by decide) (by decide)
  constructor
  · refine (document_loads_iff "users" (htagless " get ") .least).1.2 fun p => ?_
    by_cases hp : p = .method
    · have hget : Text.upperWord (Text.trim " get ") = Method.get.name := by decide
      subst hp
      rw [Sound, declared?_plainDocument]
      exact .method hget
    · exact hsound _ p hp
  · refine (document_loads_iff "users" (htagless "fetch") .least).2.1
      [.contract, .request, .response, .path] .method _ rfl ?_ ?_
    · intro q hq
      have hne : q ≠ .method := by
        rintro rfl
        revert hq
        decide
      exact hsound _ q hne
    · rw [Sound, declared?_plainDocument]
      intro h
      cases h with
      | method heq =>
        rename_i m
        revert heq
        cases m <;> decide

end Contract

end Covenant
