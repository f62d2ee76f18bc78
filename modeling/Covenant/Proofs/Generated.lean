import Covenant.Proofs.ExpectedResponses
import Covenant.Proofs.FreshNames
import Covenant.Proofs.Samples

/-!
# Contracts made for a document

* `OpenApi.distinctKeys_requestFor`: no value of a generated request repeats a name;
* `Expectation.Sampled`: what generated expectations are; `Expectation.Sampled.reloadable_iff`: such an
  expectation is read back as it is exactly if contracts may declare its status code;
* `OpenApi.fresh_contracts`: the contracts of a document are such, and no two have one name.
-/

namespace Covenant

open Loading

/-! ## Requests -/

/-- No value of a request repeats a name. -/
def Request.DistinctKeys (r : Request) : Prop := ∀ v ∈ r.values, v.DistinctKeys

namespace Request

theorem mem_values_setBody {r : Request} {body : Option Json} {v : Json}
    (h : v ∈ values { r with body := body }) : v ∈ r.values ∨ v ∈ body := by
  rcases List.mem_append.1 h with h | h
  · exact .inl (List.mem_append_left _ h)
  · exact .inr (Option.mem_toList.1 h)

theorem mem_entryValues_addEntry {entries : Option (List NamedValue)} {name : String} {value : Option Json}
    {v : Json} (h : v ∈ entryValues (OpenApi.addEntry entries name value)) :
    v ∈ entryValues entries ∨ v ∈ value := by
  cases value with
  | none => exact .inl h
  | some w =>
    rw [OpenApi.addEntry, entryValues, Option.getD_some, List.map_append] at h
    rcases List.mem_append.1 h with h | h
    · exact .inl h
    · exact .inr (congrArg some (List.mem_singleton.1 h).symm)

theorem mem_values_addHeader {r : Request} {name : String} {value : Option Json} {v : Json}
    (h : v ∈ values { r with headers := OpenApi.addEntry r.headers name value }) :
    v ∈ r.values ∨ v ∈ value := by
  simp only [values, List.mem_append] at h ⊢
  rcases h with (h | h) | h
  · exact (mem_entryValues_addEntry h).imp_left fun h => .inl (.inl h)
  · exact .inl (.inl (.inr h))
  · exact .inl (.inr h)

theorem mem_values_addParam {r : Request} {name : String} {value : Option Json} {v : Json}
    (h : v ∈ values { r with params := OpenApi.addEntry r.params name value }) :
    v ∈ r.values ∨ v ∈ value := by
  simp only [values, List.mem_append] at h ⊢
  rcases h with (h | h) | h
  · exact .inl (.inl (.inl h))
  · exact (mem_entryValues_addEntry h).imp_left fun h => .inl (.inr h)
  · exact .inl (.inr h)

/-- A request whose only new value is a sample. -/
theorem DistinctKeys.extend {r r' : Request} {value : Option Json} (h : r.DistinctKeys)
    (hvalue : ∀ v ∈ value, OpenApi.Sample .generated v) (hnew : ∀ v ∈ r'.values, v ∈ r.values ∨ v ∈ value) :
    r'.DistinctKeys := by
  intro v hv
  rcases hnew v hv with hv | hv
  · exact h v hv
  · exact (hvalue v hv).distinctKeys

end Request

namespace OpenApi

theorem distinctKeys_jsonSchema {v schema : Json} (h : v.DistinctKeys)
    (hschema : jsonSchema? v = some schema) : schema.DistinctKeys := by
  obtain ⟨media, hmedia, hentry⟩ := Option.bind_eq_some_iff.1 hschema
  obtain ⟨content, hcontent, hfields⟩ := Option.bind_eq_some_iff.1 hmedia
  have hkeys := h.get? hcontent
  cases content with
  | object fields =>
    cases hfields
    obtain ⟨entry, hentry, hget⟩ := Option.bind_eq_some_iff.1 hentry
    have hobject : entry.DistinctKeys := by
      split at hentry
      · rename_i m hm
        cases hentry
        have hget : (Json.object media).get? "application/json" = some entry := hm
        exact hkeys.get? hget
      · obtain ⟨m, hm, rfl⟩ := Option.map_eq_some_iff.1 hentry
        exact hkeys.field (List.mem_of_find?_eq_some hm)
    exact hobject.get? hget
  | _ => cases hfields

theorem distinctKeys_parameters {v param : Json} (h : v.DistinctKeys) (hparam : param ∈ parameters v) :
    param.DistinctKeys := by
  rw [parameters] at hparam
  cases hget : v.get? "parameters" with
  | none =>
    rw [hget] at hparam
    cases hparam
  | some w =>
    have hkeys := h.get? hget
    rw [hget] at hparam
    cases w with
    | array items => exact hkeys.item hparam
    | _ => cases hparam

section

variable {doc : Json} (hdoc : doc.DistinctKeys)
include hdoc

theorem distinctKeys_addParameter {r : Request} (hr : r.DistinctKeys) {param : Json}
    (hparam : param.DistinctKeys) : Always (addParameter doc r param) Request.DistinctKeys := by
  refine (always_ofExcept fun v => distinctKeys_deref hdoc hparam).bind fun param hparam => ?_
  have hschema : ((param.get? "schema").getD param).DistinctKeys := by
    cases hget : param.get? "schema" with
    | none => exact hparam
    | some schema => exact hparam.get? hget
  have hsample := sample_exampleFor hdoc hschema .generated
  split
  · exact always_pure hr
  · dsimp only
    split
    · exact hsample.bind fun body hbody =>
        always_pure (hr.extend hbody fun v => Request.mem_values_setBody)
    · split
      -- a parameter of the path leaves the values as they are
      · refine hsample.bind fun value _ => ?_
        cases value with
        | some v => exact always_pure hr
        | none => exact (always_ofRand (P := fun _ => True) fun _ => trivial).bind fun _ _ => always_pure hr
      · split
        · exact hsample.bind fun value hvalue =>
            always_pure (hr.extend hvalue fun v => Request.mem_values_addParam)
        · split
          · exact hsample.bind fun value hvalue =>
              always_pure (hr.extend hvalue fun v => Request.mem_values_addHeader)
          · exact always_pure hr

/-- No value of a generated request repeats a name. -/
theorem distinctKeys_requestFor (path : String) {item : Json} (hitem : item.DistinctKeys) {o : Operation}
    (ho : o.declaration.DistinctKeys) : Always (requestFor doc path item o) Request.DistinctKeys := by
  have hparams : ∀ p ∈ parameters item ++ parameters o.declaration, p.DistinctKeys := by
    intro p hp
    rcases List.mem_append.1 hp with hp | hp
    · exact distinctKeys_parameters hitem hp
    · exact distinctKeys_parameters ho hp
  have hplain : (Request.plain path o.method).DistinctKeys := nofun
  refine (always_foldlM (fun r hr p hp => distinctKeys_addParameter hdoc hr (hparams p hp)) hplain).bind
    fun r hr => ?_
  split
  · exact always_pure hr
  · rename_i body hbody
    refine (always_ofExcept fun v => distinctKeys_deref hdoc (ho.get? hbody)).bind fun body hbody => ?_
    split
    · exact always_pure hr
    · rename_i schema hschema
      exact (sample_exampleFor hdoc (distinctKeys_jsonSchema hbody hschema) .generated).bind
        fun value hvalue => always_pure (hr.extend hvalue fun v => Request.mem_values_setBody)

end

end OpenApi

/-! ## Expectations -/

/-- What is expected of an answer by generated contracts: nothing of its headers, and of its body, if
anything, a sample. -/
structure Expectation.Sampled (e : Expectation) : Prop where
  headers : e.headers = none
  body : ∀ v ∈ e.body, OpenApi.Sample .wildcard v

namespace Expectation.Sampled

theorem sample {e : Expectation} (h : e.Sampled) : ∀ v ∈ e.values, OpenApi.Sample .wildcard v := by
  intro v hv
  rw [values, h.headers] at hv
  exact h.body v (Option.mem_toList.1 hv)

theorem reloadable_iff {e : Expectation} (h : e.Sampled) : e.Reloadable ↔ InRange e.status :=
  ⟨Reloadable.status, fun hstatus =>
    ⟨hstatus, fun hnull => (h.body .null hnull).ne_null rfl rfl, fun v hv => (h.sample v hv).settled rfl⟩⟩

end Expectation.Sampled

theorem Expectation.sampled_ofStatus (status : UInt16) : (Expectation.ofStatus status).Sampled := ⟨rfl, nofun⟩

namespace OpenApi

/-- The response that is expected is one of those declared. -/
theorem mem_of_pickResponse? {responses : List (String × Json)} {status : UInt16} {response : Json}
    (h : pickResponse? responses = some (status, response)) : ∃ f ∈ responses, f.2 = response := by
  have hexpects : Expects responses status (some response) := expects_iff.2 (by rw [h]; rfl)
  cases hexpects with
  | success hleast => exact hleast.exists_mem
  | default _ hdefault =>
    obtain ⟨f, hf, rfl⟩ := Option.map_eq_some_iff.1 hdefault
    exact ⟨f, List.mem_of_find?_eq_some hf, rfl⟩
  | other _ _ hleast => exact hleast.exists_mem

theorem distinctKeys_responseSchema {v schema : Json} (h : v.DistinctKeys)
    (hschema : responseSchema? v = some schema) : schema.DistinctKeys := by
  rw [responseSchema?] at hschema
  split at hschema
  · rename_i s hs
    cases hschema
    exact distinctKeys_jsonSchema h hs
  · exact h.get? hschema

theorem sampled_expectationFor {doc : Json} (hdoc : doc.DistinctKeys) {o : Operation}
    (ho : o.declaration.DistinctKeys) : Always (expectationFor doc o) Expectation.Sampled := by
  rw [expectationFor]
  dsimp only
  split
  · exact always_pure (Expectation.sampled_ofStatus 200)
  · rename_i status response hpick
    have hresponse : response.DistinctKeys := by
      obtain ⟨f, hf, rfl⟩ := mem_of_pickResponse? hpick
      cases hget : o.declaration.get? "responses" with
      | none =>
        rw [hget] at hf
        cases hf
      | some w =>
        have hkeys := ho.get? hget
        rw [hget] at hf
        cases w with
        | object fields => exact hkeys.field hf
        | _ => cases hf
    refine (always_ofExcept fun v => distinctKeys_deref hdoc hresponse).bind fun response hresponse => ?_
    split
    · exact always_pure (Expectation.sampled_ofStatus status)
    · rename_i schema hschema
      exact (sample_exampleFor hdoc (distinctKeys_responseSchema hresponse hschema) .wildcard).bind
        fun body hbody => always_pure ⟨rfl, hbody⟩

end OpenApi

/-! ## Documents -/

/-- Contracts of which no two have one name, of requests and expectations as they are generated. -/
structure Fresh (cs : List Contract) : Prop where
  nodup : (cs.map Contract.name).Nodup
  request : ∀ c ∈ cs, c.request.DistinctKeys
  expected : ∀ c ∈ cs, c.expected.Sampled

theorem Fresh.distinctKeys {cs : List Contract} (h : Fresh cs) : ∀ c ∈ cs, c.DistinctKeys :=
  fun c hc => ⟨h.request c hc, fun v hv => ((h.expected c hc).sample v hv).distinctKeys⟩

theorem Fresh.concat {cs : List Contract} {c : Contract} (h : Fresh cs) (hname : c.name ∉ cs.map Contract.name)
    (hrequest : c.request.DistinctKeys) (hexpected : c.expected.Sampled) : Fresh (cs ++ [c]) where
  nodup := by
    rw [List.map_append, List.map_singleton, ← List.concat_eq_append]
    exact h.nodup.concat hname
  request := by
    intro d hd
    rcases List.mem_append.1 hd with hd | hd
    · exact h.request d hd
    · rwa [List.mem_singleton.1 hd]
  expected := by
    intro d hd
    rcases List.mem_append.1 hd with hd | hd
    · exact h.expected d hd
    · rwa [List.mem_singleton.1 hd]

namespace OpenApi

theorem distinctKeys_operations {item : Json} (h : item.DistinctKeys) :
    ∀ o ∈ operations item, o.declaration.DistinctKeys := by
  intro o ho
  cases item with
  | object fields =>
    obtain ⟨f, hf, ho⟩ := List.mem_filterMap.1 ho
    obtain ⟨m, -, rfl⟩ := Option.map_eq_some_iff.1 ho
    exact h.field hf
  | _ => cases ho

section

variable {doc : Json} (hdoc : doc.DistinctKeys)
include hdoc

/-- The contract of one more operation gets a name that is not taken. -/
theorem fresh_operationContracts (path : String) {item : Json} (hitem : item.DistinctKeys)
    {ops : List Operation} (hops : ∀ o ∈ ops, o.declaration.DistinctKeys) {done : List Contract}
    (hdone : Fresh done) : Always (operationContracts doc path item done ops) Fresh := by
  induction ops generalizing done with
  | nil => exact always_pure hdone
  | cons o ops ih =>
    obtain ⟨ho, hops⟩ := List.forall_mem_cons.1 hops
    refine (distinctKeys_requestFor hdoc path hitem ho).bind fun request hrequest => ?_
    refine (sampled_expectationFor hdoc ho).bind fun expected hexpected => ?_
    have hname : id (freshName id (done.map Contract.name) (o.name path)) ∉ done.map Contract.name :=
      (isFresh_freshName (o.name path) (fun _ _ => numberedName_injective) (done.map Contract.name)).not_mem
    exact ih hops (hdone.concat hname hrequest hexpected)

theorem fresh_pathContracts {paths : List (String × Json)} (hpaths : ∀ p ∈ paths, p.2.DistinctKeys)
    {done : List Contract} (hdone : Fresh done) : Always (pathContracts doc done paths) Fresh := by
  induction paths generalizing done with
  | nil => exact always_pure hdone
  | cons p paths ih =>
    obtain ⟨path, item⟩ := p
    obtain ⟨hitem, hpaths⟩ := List.forall_mem_cons.1 hpaths
    refine (always_ofExcept fun v => distinctKeys_deref hdoc hitem).bind fun item hitem => ?_
    exact (fresh_operationContracts hdoc path hitem (distinctKeys_operations hitem) hdone).bind
      fun done hdone => ih hpaths hdone

theorem fresh_contracts : Always (contracts doc) Fresh := by
  have hnil : Fresh [] := ⟨List.nodup_nil, nofun, nofun⟩
  rw [contracts]
  split
  · rename_i paths hpaths
    obtain ⟨w, hw, hfields⟩ := Option.bind_eq_some_iff.1 hpaths
    have hkeys := hdoc.get? hw
    cases w with
    | object fields =>
      cases hfields
      exact fresh_pathContracts hdoc (fun p hp => hkeys.field hp) hnil
    | _ => cases hfields
  · exact always_fail _

end

end OpenApi

/-- The contracts of the API document in a file. -/
theorem fresh_generatedContracts {d : Disk} {path : String} {source : Source} {cs : List Contract}
    (h : d.generatedContracts path source = .ok cs) : Fresh cs := by
  rw [Disk.generatedContracts] at h
  split at h
  · cases h
  · split at h
    · cases h
    · rename_i doc hdoc
      split at h
      · rename_i contracts s hcontracts
        cases h
        exact OpenApi.fresh_contracts (distinctKeys_readDocument hdoc) source _ _ hcontracts
      · cases h

end Covenant
