import Covenant.Proofs.DeclaredParameters
import Covenant.Proofs.ExpectedResponses
import Covenant.Proofs.ReferenceChains
import Mathlib.Logic.Relation

/-!
# References that have to be followed

Random choices decide what the contracts of a document contain, but not whether there are any: that is decided by
the references that have to be followed for them.

* `Loading.SucceedsIff`: a condition decides whether a computation succeeds, one rule for each form of computation;
* `OpenApi.Visits`, `OpenApi.Resolved`: the schemas on the way through a schema, and that no reference on this way
  fails; `OpenApi.succeedsIff_exampleFor`: this decides whether there is an example;
* `OpenApi.Demand`, `OpenApi.Demand.Requires`: what has to be found in a document, and the references that have to
  be followed for it;
* `OpenApi.OperationDue`, `OpenApi.PathsDue`: what has to be found for the contracts of operations and paths;
* `OpenApi.succeedsIff_contracts`: this decides whether a document has contracts.
-/

namespace Covenant

/-! ## Conditions of success -/

namespace Loading

section

variable {α β : Type} {p q : Prop}

/-- Whatever is drawn, a condition decides whether a computation succeeds. -/
def SucceedsIff (p : Prop) (x : Loading α) : Prop := ∀ s, (∃ r, x s = .ok r) ↔ p

theorem succeedsIff_pure (a : α) : SucceedsIff True (pure a) := fun s => iff_of_true ⟨(a, s), rfl⟩ trivial

theorem succeedsIff_fail (e : ContractError) : SucceedsIff False (fail e : Loading α) :=
  fun _ => iff_of_false nofun id

theorem succeedsIff_ofRand (r : Rand α) : SucceedsIff True (ofRand r) := fun s => iff_of_true ⟨r s, rfl⟩ trivial

theorem SucceedsIff.congr {x : Loading α} (h : SucceedsIff p x) (hpq : p ↔ q) : SucceedsIff q x :=
  fun s => (h s).trans hpq

/-- Both computations have to succeed, provided that the value that is passed on decides nothing. -/
theorem SucceedsIff.bind {x : Loading α} {f : α → Loading β} (hx : SucceedsIff p x)
    (hf : ∀ a, SucceedsIff q (f a)) : SucceedsIff (p ∧ q) (x >>= f) := by
  intro s
  rw [← hx s]
  constructor
  · rintro ⟨r, hr⟩
    obtain ⟨a, s', ha, hr⟩ := bind_eq_ok_iff.1 hr
    exact ⟨⟨_, ha⟩, (hf a s').1 ⟨r, hr⟩⟩
  · rintro ⟨⟨⟨a, s'⟩, ha⟩, hq⟩
    obtain ⟨r, hr⟩ := (hf a s').2 hq
    exact ⟨r, bind_eq_ok_iff.2 ⟨a, s', ha, hr⟩⟩

theorem SucceedsIff.map {x : Loading α} (hx : SucceedsIff p x) (f : α → β) :
    SucceedsIff p (x >>= fun a => pure (f a)) :=
  (hx.bind fun a => succeedsIff_pure (f a)).congr (and_iff_left trivial)

/-- What is computed without random choices may decide how to go on. -/
theorem succeedsIff_ofExcept_bind {x : Except ContractError α} {f : α → Loading β} {q : α → Prop}
    (hf : ∀ a, SucceedsIff (q a) (f a)) : SucceedsIff (∃ a, x = .ok a ∧ q a) (ofExcept x >>= f) := by
  cases x with
  | error e => exact (succeedsIff_fail e).congr (iff_of_false id nofun)
  | ok a =>
    refine (hf a).congr ⟨fun h => ⟨a, rfl, h⟩, ?_⟩
    rintro ⟨b, hb, h⟩
    rwa [Except.ok.inj hb]

theorem succeedsIff_foldlM {f : α → β → Loading α} {q : β → Prop} (hf : ∀ a b, SucceedsIff (q b) (f a b))
    (bs : List β) (a : α) : SucceedsIff (∀ b ∈ bs, q b) (bs.foldlM f a) := by
  induction bs generalizing a with
  | nil => exact (succeedsIff_pure a).congr (iff_of_true trivial (List.forall_mem_nil _))
  | cons b bs ih =>
    rw [List.foldlM_cons]
    exact ((hf a b).bind ih).congr List.forall_mem_cons.symm

/-- A computation that does not succeed fails. -/
theorem SucceedsIff.exists_error_iff {x : Loading α} (h : SucceedsIff p x) (s : Source) :
    (∃ e, x s = .error e) ↔ ¬ p := by
  rw [← h s]
  cases x s with
  | ok r => exact iff_of_false nofun fun hno => hno ⟨r, rfl⟩
  | error e => exact iff_of_true ⟨e, rfl⟩ nofun

end

end Loading

open Loading Relation

namespace OpenApi

/-! ## The way through a schema -/

/-- A step on the way through a schema, with the references that are being followed: to a schema inside, or behind
a reference that is not being followed already. -/
inductive Visits (doc : Json) : List String × Json → List String × Json → Prop
  | inside {active : List String} {schema v : Json} : Inside schema v → Visits doc (active, schema) (active, v)
  | behind {active : List String} {schema v : Json} {r : String} : schema.reference? = some r → r ∉ active →
      Resolves doc r v → Visits doc (active, schema) (r :: active, v)

/-- Every reference on the way through a schema that is not being followed already leads to a value. -/
def Resolved (doc : Json) (active : List String) (schema : Json) : Prop :=
  ∀ passed v r, ReflTransGen (Visits doc) (active, schema) (passed, v) → v.reference? = some r → r ∉ passed →
    ∃ w, Resolves doc r w

section

variable {doc schema : Json} {active : List String}

/-- The way starts with a step, unless it is over. -/
theorem resolved_iff :
    Resolved doc active schema ↔
      (∀ r, schema.reference? = some r → r ∉ active → ∃ w, Resolves doc r w) ∧
        ∀ m, Visits doc (active, schema) m → Resolved doc m.1 m.2 := by
  constructor
  · intro h
    refine ⟨fun r => h active schema r .refl, ?_⟩
    intro m hm passed v r hreach
    exact h passed v r (.head hm hreach)
  · intro h passed v r hreach hr hpassed
    rcases hreach.cases_head with heq | ⟨m, hm, hreach⟩
    · cases heq
      exact h.1 r hr hpassed
    · exact h.2 m hm passed v r hreach hr hpassed

theorem resolved_of_reference {r : String} (hr : schema.reference? = some r) :
    Resolved doc active schema ↔ (r ∉ active → ∃ v, Resolves doc r v ∧ Resolved doc (r :: active) v) := by
  have hform := formOf_eq_reference_iff.2 hr
  rw [resolved_iff]
  constructor
  · intro h hnew
    obtain ⟨v, hv⟩ := h.1 r hr hnew
    exact ⟨v, hv, h.2 _ (.behind hr hnew hv)⟩
  · intro h
    refine ⟨?_, ?_⟩
    · intro q hq hnew
      cases hr.symm.trans hq
      obtain ⟨v, hv, -⟩ := h hnew
      exact ⟨v, hv⟩
    · intro m hm
      cases hm with
      | inside hinside =>
        rw [inside_iff, hform] at hinside
        cases hinside
      | behind hq hnew hw =>
        cases hr.symm.trans hq
        obtain ⟨v, hv, hresolved⟩ := h hnew
        rwa [hw.unique hv]

theorem resolved_of_form {form : Form} (hform : formOf schema = form) (hno : ∀ r, form ≠ .reference r) :
    Resolved doc active schema ↔ ∀ v ∈ form.schemas, Resolved doc active v := by
  have hnone : ∀ r, schema.reference? ≠ some r := by
    intro r hr
    exact hno r (hform.symm.trans (formOf_eq_reference_iff.2 hr))
  rw [resolved_iff, ← hform]
  constructor
  · intro h v hv
    exact h.2 _ (.inside (inside_iff.2 hv))
  · intro h
    refine ⟨fun r hr => absurd hr (hnone r), ?_⟩
    intro m hm
    cases hm with
    | inside hinside => exact h _ (inside_iff.1 hinside)
    | behind hr _ _ => exact absurd hr (hnone _)

end

/-! ## Whether there is an example -/

section

variable {doc : Json} {mode : Mode} {unseen : List String} {q : Json → Prop}

theorem succeedsIff_mergeParts {parts : List Json}
    (h : ∀ part ∈ parts, SucceedsIff (q part) (exampleOf doc mode unseen part)) (fields : List (String × Json)) :
    SucceedsIff (∀ part ∈ parts, q part) (mergeParts doc mode unseen fields parts) := by
  induction parts generalizing fields with
  | nil =>
    rw [mergeParts]
    exact (succeedsIff_pure fields).congr (iff_of_true trivial (List.forall_mem_nil _))
  | cons part parts ih =>
    obtain ⟨hpart, hparts⟩ := List.forall_mem_cons.1 h
    rw [mergeParts_cons]
    exact (hpart.bind fun v => ih hparts _).congr List.forall_mem_cons.symm

theorem succeedsIff_exampleFields {properties : List (String × Json)}
    (h : ∀ f ∈ properties, SucceedsIff (q f.2) (exampleOf doc mode unseen f.2)) :
    SucceedsIff (∀ f ∈ properties, q f.2) (exampleFields doc mode unseen properties) := by
  induction properties with
  | nil =>
    rw [exampleFields]
    exact (succeedsIff_pure []).congr (iff_of_true trivial (List.forall_mem_nil _))
  | cons f properties ih =>
    obtain ⟨hf, hproperties⟩ := List.forall_mem_cons.1 h
    rw [exampleFields_cons]
    refine (hf.bind fun v => (ih hproperties).map _).congr ?_
    exact (List.forall_mem_cons (p := fun f : String × Json => q f.2)).symm

/-- There is an example exactly if the references on the way lead to values, where `unseen` has those of them that
are not being followed. -/
theorem succeedsIff_exampleOf (doc : Json) (mode : Mode) (unseen : List String) (schema : Json)
    {active : List String} (hunseen : ∀ r ∈ allReferences doc schema, r ∈ unseen ↔ r ∉ active) :
    SucceedsIff (Resolved doc active schema) (exampleOf doc mode unseen schema) := by
  -- behind a reference, `active` gains what `unseen` loses
  induction unseen, schema using walk_induction doc generalizing active with
  | step unseen schema hbehind hinside =>
    have hschemas : ∀ v ∈ (formOf schema).schemas,
        SucceedsIff (Resolved doc active v) (exampleOf doc mode unseen v) := by
      intro v hv
      have hv := inside_iff.2 hv
      exact hinside v hv fun r hr => hunseen r (mem_allReferences_inside hv hr)
    rw [exampleOf_eq]
    cases hform : formOf schema with
    | reference r =>
      have hreference := formOf_eq_reference_iff.1 hform
      have hr := hunseen r (mem_allReferences_of_reference? hreference)
      rw [exampleOfForm]
      by_cases hactive : r ∈ active
      · rw [if_neg fun hmem => hr.1 hmem hactive]
        refine (succeedsIff_pure none).congr (iff_of_true trivial ?_)
        exact (resolved_of_reference hreference).2 fun hnew => absurd hactive hnew
      · rw [if_pos (hr.2 hactive)]
        cases htarget : target doc r with
        | error e =>
          refine (succeedsIff_fail e).congr (iff_of_false id fun h => ?_)
          obtain ⟨v, hv, -⟩ := (resolved_of_reference hreference).1 h hactive
          rw [target_eq_ok_iff.2 hv] at htarget
          cases htarget
        | ok v =>
          have hv := target_eq_ok_iff.1 htarget
          have hbelow : ∀ q ∈ allReferences doc v, q ∈ without unseen r ↔ q ∉ r :: active := by
            intro q hq
            have hq := hunseen q (mem_allReferences_behind hv hq)
            rw [mem_without, hq, List.mem_cons, not_or, and_comm]
          refine (hbehind r v hform (hr.2 hactive) htarget hbelow).congr ?_
          rw [resolved_of_reference hreference]
          constructor
          · exact fun h _ => ⟨v, hv, h⟩
          · intro h
            obtain ⟨w, hw, hresolved⟩ := h hactive
            rwa [hv.unique hw]
    | merged parts =>
      rw [hform] at hschemas
      exact ((succeedsIff_mergeParts hschemas []).map _).congr (resolved_of_form hform nofun).symm
    | alternative first =>
      rw [hform] at hschemas
      refine (hschemas first (List.mem_singleton_self first)).congr ?_
      exact (List.forall_mem_singleton.symm).trans (resolved_of_form hform nofun).symm
    | object properties =>
      rw [hform] at hschemas
      have hproperties : ∀ f ∈ properties, SucceedsIff (Resolved doc active f.2) (exampleOf doc mode unseen f.2) :=
        fun f hf => hschemas f.2 (List.mem_map_of_mem hf)
      refine ((succeedsIff_exampleFields hproperties).map _).congr ?_
      exact List.forall_mem_map.symm.trans (resolved_of_form hform nofun).symm
    | array items =>
      rw [hform] at hschemas
      cases items with
      | none => exact (succeedsIff_pure _).congr (iff_of_true trivial ((resolved_of_form hform nofun).2 nofun))
      | some items =>
        refine ((hschemas items (List.mem_singleton_self items)).map _).congr ?_
        exact (List.forall_mem_singleton.symm).trans (resolved_of_form hform nofun).symm
    | scalar type =>
      exact (succeedsIff_ofRand _).congr (iff_of_true trivial ((resolved_of_form hform nofun).2 nofun))
    | unknown => exact (succeedsIff_pure _).congr (iff_of_true trivial ((resolved_of_form hform nofun).2 nofun))

theorem succeedsIff_exampleFor (doc : Json) (mode : Mode) (schema : Json) :
    SucceedsIff (Resolved doc [] schema) (exampleFor doc mode schema) :=
  succeedsIff_exampleOf doc mode (allReferences doc schema) schema (by simp)

/-- Where there is a schema, there has to be an example of it. -/
theorem succeedsIff_sample {α : Type} (doc : Json) (mode : Mode) (schema? : Option Json) (a : α)
    (f : Option Json → α) :
    SucceedsIff (∀ schema ∈ schema?, Resolved doc [] schema)
      (match schema? with
      | none => pure a
      | some schema => exampleFor doc mode schema >>= fun v => pure (f v)) := by
  cases schema? with
  | none => exact (succeedsIff_pure a).congr (iff_of_true trivial (by simp))
  | some schema =>
    refine ((succeedsIff_exampleFor doc mode schema).map f).congr ⟨?_, fun h => h schema rfl⟩
    intro h v hv
    cases hv
    exact h

end

/-! ## What has to be found -/

/-- What has to be found in a document: what stands behind a value, or the example of a schema. -/
inductive Demand where
  | value (v : Json)
  | sample (schema : Json)

namespace Demand

variable {doc : Json}

/-- A reference that has to be followed to find something, behind those that have been or are being followed. -/
inductive Requires (doc : Json) : Demand → List String → String → Prop
  | chain {v w : Json} {rs : List String} {r : String} : Chain doc v rs w → rs.Nodup → w.reference? = some r →
      Requires doc (.value v) rs r
  | walk {schema v : Json} {active : List String} {r : String} :
      ReflTransGen (Visits doc) ([], schema) (active, v) → v.reference? = some r → r ∉ active →
      Requires doc (.sample schema) active r

/-- No reference that has to be followed fails: none comes back to one before it, and each leads to a value. -/
def Met (doc : Json) (d : Demand) : Prop :=
  ∀ passed r, d.Requires doc passed r → r ∉ passed ∧ ∃ v, Resolves doc r v

theorem met_value_iff {v : Json} : (value v).Met doc ↔ ∃ w, deref doc v = .ok w := by
  constructor
  · intro h
    have hfinish : Finish doc v (deref doc v) := deref_eq_iff.1 rfl
    generalize deref doc v = result at hfinish
    cases hfinish with
    | value => exact ⟨_, rfl⟩
    | circle hchain hnodup hr hpassed => exact absurd hpassed (h _ _ (.chain hchain hnodup hr)).1
    | lost hchain hr he =>
      have hend := isEnd_of_error hr he
      obtain ⟨-, u, hu⟩ := h _ _ (.chain hchain (hchain.nodup_of_isEnd hend) hr)
      exact absurd hu (hend _ u hr)
  · rintro ⟨w, hw⟩ passed r hrequires
    cases hrequires with
    | chain hchain hnodup hr =>
      constructor
      · intro hpassed
        rw [deref_eq_iff.2 (.circle hchain hnodup hr hpassed)] at hw
        cases hw
      · cases htarget : target doc r with
        | ok u => exact ⟨u, target_eq_ok_iff.1 htarget⟩
        | error e =>
          rw [deref_eq_iff.2 (.lost hchain hr htarget)] at hw
          cases hw

theorem met_sample_iff {schema : Json} : (sample schema).Met doc ↔ Resolved doc [] schema := by
  constructor
  · intro h passed v r hreach hr hnew
    exact (h passed r (.walk hreach hr hnew)).2
  · intro h passed r hrequires
    cases hrequires with
    | walk hreach hr hnew => exact ⟨hnew, h passed _ r hreach hr hnew⟩

theorem not_met_iff {d : Demand} :
    ¬ d.Met doc ↔ ∃ passed r, d.Requires doc passed r ∧ (r ∈ passed ∨ ∀ v, ¬ Resolves doc r v) := by
  constructor
  · intro h
    by_contra hno
    refine h fun passed r hrequires => ?_
    have hr : ¬ (r ∈ passed ∨ ∀ v, ¬ Resolves doc r v) := fun hr => hno ⟨passed, r, hrequires, hr⟩
    rw [not_or, not_forall_not] at hr
    exact hr
  · rintro ⟨passed, r, hrequires, hr⟩ h
    obtain ⟨hnew, v, hv⟩ := h passed r hrequires
    rcases hr with hr | hr
    · exact hnew hr
    · exact hr v hv

end Demand

section

variable {doc : Json}

/-- What has to be found to read a schema from behind a value: what stands there, and the example of its schema. -/
inductive ToRead (doc : Json) (schema? : Json → Option Json) (v : Json) : Demand → Prop
  | value : ToRead doc schema? v (.value v)
  | sample {w schema : Json} : deref doc v = .ok w → schema? w = some schema →
      ToRead doc schema? v (.sample schema)

theorem met_toRead_iff {schema? : Json → Option Json} {v : Json} :
    (∀ d, ToRead doc schema? v d → d.Met doc) ↔
      ∃ w, deref doc v = .ok w ∧ ∀ schema ∈ schema? w, Resolved doc [] schema := by
  constructor
  · intro h
    obtain ⟨w, hw⟩ := Demand.met_value_iff.1 (h _ .value)
    exact ⟨w, hw, fun schema hschema => Demand.met_sample_iff.1 (h _ (.sample hw hschema))⟩
  · rintro ⟨w, hw, hresolved⟩ d hd
    cases hd with
    | value => exact Demand.met_value_iff.2 ⟨w, hw⟩
    | sample hw' hschema =>
      cases hw.symm.trans hw'
      exact Demand.met_sample_iff.2 (hresolved _ hschema)

/-! ## Operations -/

/-- The schema of a parameter that counts. -/
def usedSchema? (param : Json) : Option Json :=
  ((declaration? param).filter fun d => d.IsUsed).map Declaration.schema

/-- The responses that an operation declares. -/
def responsesOf (declaration : Json) : List (String × Json) :=
  ((declaration.get? "responses").bind Json.toFields?).getD []

/-- What has to be found for the contract of an operation: its parameters and those of its path item, its body, and
the response that is expected. -/
inductive OperationDue (doc item : Json) (o : Operation) : Demand → Prop
  | parameter {param : Json} {d : Demand} : param ∈ parameters item ++ parameters o.declaration →
      ToRead doc usedSchema? param d → OperationDue doc item o d
  | body {body : Json} {d : Demand} : o.declaration.get? "requestBody" = some body →
      ToRead doc jsonSchema? body d → OperationDue doc item o d
  | response {n : UInt16} {response : Json} {d : Demand} : Expects (responsesOf o.declaration) n (some response) →
      ToRead doc responseSchema? response d → OperationDue doc item o d

theorem forall_usedSchema?_iff {param : Json} {d : Declaration} (h : declaration? param = some d) (p : Json → Prop) :
    (∀ schema ∈ usedSchema? param, p schema) ↔ (d.IsUsed → p d.schema) := by
  simp [usedSchema?, h]

theorem succeedsIff_addParameter (r : Request) (param : Json) :
    SucceedsIff (∀ d, ToRead doc usedSchema? param d → d.Met doc) (addParameter doc r param) := by
  refine SucceedsIff.congr (succeedsIff_ofExcept_bind fun v => ?_) met_toRead_iff.symm
  cases hname : (v.get? "name").bind Json.toText? with
  | none =>
    have hnone : usedSchema? v = none := by rw [usedSchema?, declaration?, hname]; rfl
    rw [hnone]
    exact (succeedsIff_pure r).congr (iff_of_true trivial (by simp))
  | some name =>
    rw [forall_usedSchema?_iff (congrArg (Option.map _) hname)]
    dsimp only
    -- which of these fields a declaration has does not matter from here on
    generalize ((v.get? "in").bind Json.toText?).getD "" = location
    generalize ((v.get? "required").bind Json.toBool?).getD false = isRequired
    generalize (v.get? "schema").getD v = schema
    have hsample := succeedsIff_exampleFor doc .generated schema
    have hused (h : Declaration.IsUsed ⟨name, location, isRequired, schema⟩) : Resolved doc [] schema ↔
        (Declaration.IsUsed ⟨name, location, isRequired, schema⟩ → Resolved doc [] schema) :=
      ⟨fun hresolved _ => hresolved, fun hresolved => hresolved h⟩
    split
    · rename_i hbody
      exact (hsample.map _).congr (hused (.inl hbody))
    · rename_i hbody
      split
      · rename_i hpath
        refine (hsample.bind fun value => ?_).congr ((and_iff_left trivial).trans (hused (.inr (.inl hpath))))
        cases value with
        | some w => exact succeedsIff_pure _
        | none => exact (succeedsIff_ofRand _).map _
      · rename_i hpath
        split
        · rename_i hquery
          exact (hsample.map _).congr (hused (.inr (.inr (.inl hquery))))
        · rename_i hquery
          split
          · rename_i hheader
            exact (hsample.map _).congr (hused (.inr (.inr (.inr hheader))))
          · rename_i hheader
            refine (succeedsIff_pure r).congr (iff_of_true trivial fun hused => ?_)
            exact absurd hused (not_or.2 ⟨hbody, not_or.2 ⟨hpath, not_or.2 ⟨hquery, hheader⟩⟩⟩)

theorem succeedsIff_addParameters (r : Request) (params : List Json) :
    SucceedsIff (∀ param ∈ params, ∀ d, ToRead doc usedSchema? param d → d.Met doc) (addParameters doc r params) :=
  succeedsIff_foldlM (fun r param => succeedsIff_addParameter r param) params r

theorem succeedsIff_requestFor (path : String) (item : Json) (o : Operation) :
    SucceedsIff ((∀ param ∈ parameters item ++ parameters o.declaration, ∀ d, ToRead doc usedSchema? param d →
        d.Met doc) ∧
      ∀ body ∈ o.declaration.get? "requestBody", ∀ d, ToRead doc jsonSchema? body d → d.Met doc)
      (requestFor doc path item o) := by
  refine (succeedsIff_addParameters _ _).bind fun r => ?_
  cases o.declaration.get? "requestBody" with
  | none => exact (succeedsIff_pure r).congr (iff_of_true trivial (by simp))
  | some body =>
    have hbody : SucceedsIff (∀ d, ToRead doc jsonSchema? body d → d.Met doc) _ :=
      SucceedsIff.congr
        (succeedsIff_ofExcept_bind fun v => succeedsIff_sample doc .generated (jsonSchema? v) r fun b =>
          { r with body := b })
        met_toRead_iff.symm
    refine hbody.congr ⟨?_, fun h => h body rfl⟩
    intro h v hv
    cases hv
    exact h

theorem succeedsIff_expectationFor (o : Operation) :
    SucceedsIff (∀ n response, Expects (responsesOf o.declaration) n (some response) →
        ∀ d, ToRead doc responseSchema? response d → d.Met doc)
      (expectationFor doc o) := by
  simp only [expects_iff]
  rw [expectationFor, ← responsesOf]
  dsimp only
  cases pickResponse? (responsesOf o.declaration) with
  | none => exact (succeedsIff_pure _).congr (iff_of_true trivial (by simp [expectedOf]))
  | some c =>
    obtain ⟨status, response⟩ := c
    have hresponse : SucceedsIff (∀ d, ToRead doc responseSchema? response d → d.Met doc) _ :=
      SucceedsIff.congr
        (succeedsIff_ofExcept_bind fun v => succeedsIff_sample doc .wildcard (responseSchema? v)
          (Expectation.ofStatus status) fun b => { Expectation.ofStatus status with body := b })
        met_toRead_iff.symm
    refine hresponse.congr ⟨?_, fun h => h status response rfl⟩
    intro h n v hv
    cases hv
    exact h

theorem operationDue_iff {item : Json} {o : Operation} :
    (∀ d, OperationDue doc item o d → d.Met doc) ↔
      ((∀ param ∈ parameters item ++ parameters o.declaration, ∀ d, ToRead doc usedSchema? param d → d.Met doc) ∧
        ∀ body ∈ o.declaration.get? "requestBody", ∀ d, ToRead doc jsonSchema? body d → d.Met doc) ∧
      ∀ n response, Expects (responsesOf o.declaration) n (some response) →
        ∀ d, ToRead doc responseSchema? response d → d.Met doc := by
  constructor
  · intro h
    refine ⟨⟨?_, ?_⟩, ?_⟩
    · exact fun param hparam d hd => h d (.parameter hparam hd)
    · exact fun body hbody d hd => h d (.body hbody hd)
    · exact fun n response hresponse d hd => h d (.response hresponse hd)
  · rintro ⟨⟨hparams, hbody⟩, hresponse⟩ d hd
    cases hd with
    | parameter hparam hd => exact hparams _ hparam d hd
    | body h hd => exact hbody _ h d hd
    | response h hd => exact hresponse _ _ h d hd

theorem succeedsIff_operationContracts (path : String) (item : Json) (ops : List Operation)
    (done : List Contract) :
    SucceedsIff (∀ o ∈ ops, ∀ d, OperationDue doc item o d → d.Met doc)
      (operationContracts doc path item done ops) := by
  induction ops generalizing done with
  | nil => exact (succeedsIff_pure done).congr (iff_of_true trivial (List.forall_mem_nil _))
  | cons o ops ih =>
    refine ((succeedsIff_requestFor path item o).bind fun request =>
      (succeedsIff_expectationFor o).bind fun expected => ih _).congr ?_
    rw [List.forall_mem_cons, operationDue_iff, and_assoc, and_assoc, and_assoc]

/-! ## Documents -/

/-- What has to be found for the contracts of paths: what stands behind the path items, and what is due for their
operations. -/
inductive PathsDue (doc : Json) (paths : List (String × Json)) : Demand → Prop
  | item {path : String} {item : Json} : (path, item) ∈ paths → PathsDue doc paths (.value item)
  | operation {path : String} {item v : Json} {o : Operation} {d : Demand} : (path, item) ∈ paths →
      deref doc item = .ok v → o ∈ operations v → OperationDue doc v o d → PathsDue doc paths d

theorem pathsDue_iff {paths : List (String × Json)} :
    (∀ d, PathsDue doc paths d → d.Met doc) ↔
      ∀ p ∈ paths, ∃ v, deref doc p.2 = .ok v ∧ ∀ o ∈ operations v, ∀ d, OperationDue doc v o d → d.Met doc := by
  constructor
  · rintro h ⟨path, item⟩ hp
    obtain ⟨v, hv⟩ := Demand.met_value_iff.1 (h _ (.item hp))
    exact ⟨v, hv, fun o ho d hd => h d (.operation hp hv ho hd)⟩
  · intro h d hd
    cases hd with
    | item hp =>
      obtain ⟨v, hv, -⟩ := h _ hp
      exact Demand.met_value_iff.2 ⟨v, hv⟩
    | operation hp hv ho hd =>
      obtain ⟨w, hw, hall⟩ := h _ hp
      cases hv.symm.trans hw
      exact hall _ ho d hd

theorem succeedsIff_pathContracts (paths : List (String × Json)) (done : List Contract) :
    SucceedsIff (∀ d, PathsDue doc paths d → d.Met doc) (pathContracts doc done paths) := by
  rw [pathsDue_iff]
  induction paths generalizing done with
  | nil => exact (succeedsIff_pure done).congr (iff_of_true trivial (List.forall_mem_nil _))
  | cons p paths ih =>
    obtain ⟨path, item⟩ := p
    rw [List.forall_mem_cons]
    refine (succeedsIff_ofExcept_bind fun v =>
      (succeedsIff_operationContracts path v (operations v) done).bind ih).congr ?_
    constructor
    · rintro ⟨v, hv, hops, hpaths⟩
      exact ⟨⟨v, hv, hops⟩, hpaths⟩
    · rintro ⟨⟨v, hv, hops⟩, hpaths⟩
      exact ⟨v, hv, hops, hpaths⟩

/-- There are contracts exactly if the document has paths and everything is found that has to be. -/
theorem succeedsIff_contracts (doc : Json) :
    SucceedsIff (∃ paths, doc.get? "paths" = some (.object paths) ∧ ∀ d, PathsDue doc paths d → d.Met doc)
      (contracts doc) := by
  rw [contracts]
  cases hpaths : (doc.get? "paths").bind Json.toFields? with
  | none =>
    refine (succeedsIff_fail _).congr (iff_of_false id ?_)
    rintro ⟨paths, h, -⟩
    rw [bind_toFields?_eq_some_iff.2 h] at hpaths
    cases hpaths
  | some paths =>
    have hget := bind_toFields?_eq_some_iff.1 hpaths
    refine (succeedsIff_pathContracts paths []).congr ⟨fun h => ⟨paths, hget, h⟩, ?_⟩
    rintro ⟨paths', h, hall⟩
    cases hget.symm.trans h
    exact hall

end

end OpenApi

end Covenant
