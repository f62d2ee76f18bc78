import Covenant.Contract.Reader
import Covenant.Proofs.YamlValues

/-!
# Reading back what a contract was written as

* `Contract.resolved`: what a contract becomes when the tree written for it is read: tokens are resolved,
  and a null body is none;
* `Contract.ofDocument_toDocument`: reading the tree of a contract, under any name;
* `Contract.Reloadable`: the contracts that this leaves as they are.
-/

namespace Covenant

/-! ## Loading in steps -/

namespace Loading

theorem bind_eq_ok_iff {α β : Type} {x : Loading α} {f : α → Loading β} {s : Source} {r : β × Source} :
    (x >>= f) s = .ok r ↔ ∃ a s', x s = .ok (a, s') ∧ f a s' = .ok r := by
  show (x s >>= fun p => f p.1 p.2) = .ok r ↔ _
  rw [Covenant.bind_eq_ok_iff]
  exact ⟨fun ⟨⟨a, s'⟩, hx, hf⟩ => ⟨a, s', hx, hf⟩, fun ⟨a, s', hx, hf⟩ => ⟨(a, s'), hx, hf⟩⟩

theorem ofExcept_ok_bind {α β : Type} (a : α) (f : α → Loading β) : ofExcept (.ok a) >>= f = f a := rfl

theorem ofExcept_eq_ok_iff {α : Type} {r : Except ContractError α} {s : Source} {p : α × Source} :
    ofExcept r s = .ok p ↔ r = .ok p.1 ∧ p.2 = s := by
  obtain ⟨a, s'⟩ := p
  cases r with
  | error e => exact ⟨nofun, fun h => nomatch h.1⟩
  | ok b =>
    constructor
    · intro h
      cases h
      exact ⟨rfl, rfl⟩
    · rintro ⟨h, rfl⟩
      cases h
      rfl

end Loading

/-! ## Resolved contracts -/

/-- Headers or parameters with their tokens resolved. -/
def resolvedList (role : Role) : List NamedValue → Rand (List NamedValue)
  | [] => pure []
  | v :: vs => do
    let value ← materialize role v.value
    let vs ← resolvedList role vs
    return ⟨v.name, value⟩ :: vs

/-- Headers or parameters with their tokens resolved, where there are any. -/
def resolvedEntries (role : Role) : Option (List NamedValue) → Rand (Option (List NamedValue))
  | none => pure none
  | some vs => do
    return some (← resolvedList role vs)

/-- A body with its tokens resolved. A null body is none. -/
def resolvedBody (role : Role) : Option Json → Rand (Option Json)
  | none => pure none
  | some v =>
    if v.kind = .null then pure none
    else do
      return some (← materialize role v)

def Request.resolved (r : Request) : Rand Request := do
  let headers ← resolvedEntries .request r.headers
  let params ← resolvedEntries .request r.params
  let body ← resolvedBody .request r.body
  return ⟨r.path, r.method, headers, params, body⟩

def Expectation.resolved (e : Expectation) : Rand Expectation := do
  let headers ← resolvedEntries .response e.headers
  let body ← resolvedBody .response e.body
  return ⟨e.status, headers, body⟩

def Contract.resolved (c : Contract) : Rand Contract := do
  let request ← c.request.resolved
  let expected ← c.expected.resolved
  return ⟨c.name, request, expected⟩

/-! ## The values of a contract -/

/-- The values of headers or parameters. -/
def entryValues (entries : Option (List NamedValue)) : List Json := (entries.getD []).map (·.value)

/-- The values that a request declares. -/
def Request.values (r : Request) : List Json :=
  entryValues r.headers ++ entryValues r.params ++ r.body.toList

/-- The values that an expectation declares. -/
def Expectation.values (e : Expectation) : List Json :=
  entryValues e.headers ++ e.body.toList

/-- No value of the contract repeats a name. -/
def Contract.DistinctKeys (c : Contract) : Prop :=
  (∀ v ∈ c.request.values, v.DistinctKeys) ∧ ∀ v ∈ c.expected.values, v.DistinctKeys

/-- Whether a status code is one that contracts may declare. -/
def InRange (status : UInt16) : Prop := 100 ≤ status.toNat ∧ status.toNat ≤ 599

instance (status : UInt16) : Decidable (InRange status) := inferInstanceAs (Decidable (_ ∧ _))

namespace Contract

/-! ## Reading the tree of a contract -/

section Written

variable (contract : String)

theorem valueOf_ofJson (path : String) (role : Role) {v : Json} (h : v.DistinctKeys) :
    valueOf contract path role (Yaml.ofJson v) = .ofRand (materialize role v) :=
  valueOf_eq (Yaml.toJson?_ofJson v h) contract path role

theorem namedItems_namedList (path : String) (role : Role) (i : Nat) {entries : List NamedValue}
    (h : ∀ e ∈ entries, e.value.DistinctKeys) :
    namedItems contract path role i (Yaml.ofItems (entries.map fun e => .object [(e.name, e.value)])) =
      .ofRand (resolvedList role entries) := by
  induction entries generalizing i with
  | nil => rfl
  | cons e es ih =>
    have hvalue := valueOf_ofJson contract (path ++ "[" ++ Decimal.ofNat i ++ "]") role
      (h e List.mem_cons_self)
    have hrest := ih (i + 1) fun e' he' => h e' (List.mem_cons_of_mem e he')
    show ((do return (⟨e.name, ← valueOf contract _ role (Yaml.ofJson e.value)⟩ : NamedValue)) >>= fun v =>
      namedItems contract path role (i + 1) (Yaml.ofItems (es.map fun e => .object [(e.name, e.value)])) >>=
        fun vs => pure (v :: vs)) = _
    rw [hvalue, hrest]
    rfl

theorem namedValues_namedList (path : String) (role : Role) {entries : Option (List NamedValue)}
    (h : ∀ v ∈ entryValues entries, v.DistinctKeys) :
    namedValues contract path role ((entries.map namedList).map Yaml.ofJson) =
      .ofRand (resolvedEntries role entries) := by
  cases entries with
  | none => rfl
  | some es =>
    have hvalues : ∀ e ∈ es, e.value.DistinctKeys := fun e he => h e.value (List.mem_map.2 ⟨e, he, rfl⟩)
    have hitems := namedItems_namedList contract path role 0 hvalues
    show (do return some (← namedItems contract path role 0 _) : Loading _) = _
    rw [hitems]
    rfl

theorem optionalValue_body (path : String) (role : Role) {body : Option Json}
    (h : ∀ v ∈ body.toList, v.DistinctKeys) :
    optionalValue contract path role ((body.map Yaml.ofJson).filter fun v => !v.isNull) =
      .ofRand (resolvedBody role body) := by
  cases body with
  | none => rfl
  | some v =>
    rw [Option.map_some, Option.filter_some, Yaml.isNull_ofJson, resolvedBody]
    by_cases hnull : v.kind = .null
    · rw [if_pos hnull]
      simp only [hnull, decide_true, Bool.not_true, Bool.false_eq_true, if_false]
      rfl
    · rw [if_neg hnull]
      simp only [hnull, decide_false, Bool.not_false, if_true]
      rw [optionalValue, valueOf_ofJson contract path role (h v (List.mem_singleton.2 rfl))]
      rfl

theorem optional?_ofJson (fields : List (String × Json)) (key : String) :
    optional? (Yaml.ofJson (.object fields)) key =
      ((Json.lookup fields key).map Yaml.ofJson).filter fun v => !v.isNull := by
  rw [optional?, Yaml.get?_ofJson]

theorem methodOf_name (m : Method) : methodOf contract (some (.string m.name)) = .ok m := by
  rw [methodOf, Yaml.toText?, Yaml.untagged]
  · dsimp only
    rw [Method.parse?_name]
  · intro _ _ h
    cases h

/-- Reading the tree of a request resolves its tokens. -/
theorem requestOf_toDocument {r : Request} (h : ∀ v ∈ r.values, v.DistinctKeys) :
    requestOf contract (Yaml.ofJson r.toDocument) = .ofRand r.resolved := by
  obtain ⟨path, method, headers, params, body⟩ := r
  generalize hdoc : Yaml.ofJson (Request.toDocument ⟨path, method, headers, params, body⟩) = doc
  have hpath : optional? doc "path" = some (.string path) := by
    rw [← hdoc, Request.toDocument, optional?_ofJson]
    rfl
  have hmethod : optional? doc "method" = some (.string method.name) := by
    rw [← hdoc, Request.toDocument, optional?_ofJson]
    rfl
  have hheaders : optional? doc "headers" = (headers.map namedList).map Yaml.ofJson := by
    rw [← hdoc, Request.toDocument, optional?_ofJson]
    cases headers <;> cases params <;> cases body <;> rfl
  have hparams : optional? doc "params" = (params.map namedList).map Yaml.ofJson := by
    rw [← hdoc, Request.toDocument, optional?_ofJson]
    cases headers <;> cases params <;> cases body <;> rfl
  have hbody : optional? doc "body" = (body.map Yaml.ofJson).filter fun v => !v.isNull := by
    rw [← hdoc, Request.toDocument, optional?_ofJson]
    cases headers <;> cases params <;> cases body <;> rfl
  have hvalues : (∀ v ∈ entryValues headers, v.DistinctKeys) ∧ (∀ v ∈ entryValues params, v.DistinctKeys) ∧
      ∀ v ∈ body.toList, v.DistinctKeys := by
    refine ⟨fun v hv => h v ?_, fun v hv => h v ?_, fun v hv => h v ?_⟩ <;> simp [Request.values, hv]
  unfold requestOf
  rw [required, hpath, hmethod, hheaders, hparams, hbody, methodOf_name,
    namedValues_namedList contract _ .request hvalues.1, namedValues_namedList contract _ .request hvalues.2.1,
    optionalValue_body contract _ .request hvalues.2.2]
  rfl

theorem statusCode?_ofUInt16 (status : UInt16) :
    statusCode? (Yaml.ofJson (.ofUInt16 status)) = if InRange status then some status else none := by
  show ((if (0 : Int) ≤ (status.toNat : Int) then some (status.toNat : Int).toNat else none).filter
    fun n => decide (100 ≤ n ∧ n ≤ 599)).map Nat.toUInt16 = _
  rw [if_pos (Int.natCast_nonneg _), Int.toNat_natCast, Option.filter_some]
  show Option.map Nat.toUInt16 (if decide (InRange status) = true then _ else _) = _
  by_cases h : InRange status
  · rw [if_pos h, if_pos (decide_eq_true h), Option.map_some]
    exact congrArg some (UInt16.ofNat_toNat)
  · rw [if_neg h, if_neg (by simpa using h)]
    rfl

/-- Reading the tree of an expectation checks the status code and resolves its tokens. -/
theorem expectationOf_toDocument {e : Expectation} (h : ∀ v ∈ e.values, v.DistinctKeys) :
    expectationOf contract (Yaml.ofJson e.toDocument) =
      if InRange e.status then .ofRand e.resolved
      else .fail (.invalidField contract "contract.response.statusCode" .statusOutOfRange) := by
  obtain ⟨status, headers, body⟩ := e
  generalize hdoc : Yaml.ofJson (Expectation.toDocument ⟨status, headers, body⟩) = doc
  have hstatus : optional? doc "statusCode" = some (Yaml.ofJson (.ofUInt16 status)) := by
    rw [← hdoc, Expectation.toDocument, optional?_ofJson]
    rfl
  have hheaders : optional? doc "headers" = (headers.map namedList).map Yaml.ofJson := by
    rw [← hdoc, Expectation.toDocument, optional?_ofJson]
    cases headers <;> cases body <;> rfl
  have hbody : optional? doc "body" = (body.map Yaml.ofJson).filter fun v => !v.isNull := by
    rw [← hdoc, Expectation.toDocument, optional?_ofJson]
    cases headers <;> cases body <;> rfl
  have hvalues : (∀ v ∈ entryValues headers, v.DistinctKeys) ∧ ∀ v ∈ body.toList, v.DistinctKeys := by
    refine ⟨fun v hv => h v ?_, fun v hv => h v ?_⟩ <;> simp [Expectation.values, hv]
  unfold expectationOf
  rw [required, hstatus, hheaders, hbody, namedValues_namedList contract _ .response hvalues.1,
    optionalValue_body contract _ .response hvalues.2]
  show (Loading.ofExcept (statusOf contract (Yaml.ofJson (.ofUInt16 status))) >>= _ : Loading _) = _
  rw [statusOf, statusCode?_ofUInt16]
  by_cases hrange : InRange status
  · rw [if_pos hrange, if_pos hrange]
    rfl
  · rw [if_neg hrange, if_neg hrange]
    rfl

end Written

/-- Reading the tree of a contract under a name resolves the tokens of the contract, if its status code is
one that contracts may declare. -/
theorem ofDocument_toDocument {c : Contract} (h : c.DistinctKeys) (name : String) :
    ofDocument name (Yaml.ofJson c.toDocument) =
      if InRange c.expected.status then .ofRand (resolved { c with name := name })
      else Loading.ofRand c.request.resolved >>= fun _ =>
        .fail (.invalidField name "contract.response.statusCode" .statusOutOfRange) := by
  have hcontract : required name (Yaml.ofJson c.toDocument) "contract" "contract" =
      .ok (Yaml.ofJson (.object [("request", c.request.toDocument), ("response", c.expected.toDocument)])) := by
    rw [required, toDocument, optional?_ofJson]
    rfl
  have hparts : ∀ key path v, Json.lookup [("request", c.request.toDocument),
      ("response", c.expected.toDocument)] key = some v → v.kind ≠ .null →
      required name (Yaml.ofJson (.object [("request", c.request.toDocument),
        ("response", c.expected.toDocument)])) key path = .ok (Yaml.ofJson v) := by
    intro key path v hv hkind
    rw [required, optional?_ofJson, hv, Option.map_some, Option.filter_some, Yaml.isNull_ofJson,
      decide_eq_false hkind]
    rfl
  unfold ofDocument
  rw [hcontract, Loading.ofExcept_ok_bind,
    hparts "request" "contract.request" c.request.toDocument rfl nofun, Loading.ofExcept_ok_bind,
    hparts "response" "contract.response" c.expected.toDocument rfl nofun, Loading.ofExcept_ok_bind,
    requestOf_toDocument name h.1, expectationOf_toDocument name h.2]
  by_cases hrange : InRange c.expected.status
  · rw [if_pos hrange, if_pos hrange]
    rfl
  · rw [if_neg hrange, if_neg hrange]
    rfl

end Contract

/-! ## What resolving leaves as it is -/

theorem resolvedList_eq_self {role : Role} {vs : List NamedValue} (h : ∀ v ∈ vs, Settled role v.value)
    (s : Source) : resolvedList role vs s = (vs, s) := by
  induction vs with
  | nil => rfl
  | cons v vs ih =>
    show ((⟨v.name, (materialize role v.value s).1⟩ : NamedValue) ::
      (resolvedList role vs (materialize role v.value s).2).1,
      (resolvedList role vs (materialize role v.value s).2).2) = _
    rw [materialize_eq_self (h v List.mem_cons_self), ih fun w hw => h w (List.mem_cons_of_mem v hw)]

theorem settled_of_resolvedList {role : Role} {vs : List NamedValue} {s : Source}
    (h : (resolvedList role vs s).1 = vs) : ∀ v ∈ vs, Settled role v.value := by
  induction vs generalizing s with
  | nil => exact nofun
  | cons v vs ih =>
    obtain ⟨hhead, htail⟩ := List.cons.inj h
    refine List.forall_mem_cons.2 ⟨settled_of_materialize (s := s) ?_, ih htail⟩
    exact congrArg NamedValue.value hhead

theorem resolvedEntries_eq_self {role : Role} {entries : Option (List NamedValue)}
    (h : ∀ v ∈ entryValues entries, Settled role v) (s : Source) :
    resolvedEntries role entries s = (entries, s) := by
  cases entries with
  | none => rfl
  | some vs =>
    have hvalues : ∀ v ∈ vs, Settled role v.value := fun v hv => h v.value (List.mem_map.2 ⟨v, hv, rfl⟩)
    have hlist := resolvedList_eq_self hvalues
    show (some (resolvedList role vs s).1, (resolvedList role vs s).2) = _
    rw [hlist]

theorem settled_of_resolvedEntries {role : Role} {entries : Option (List NamedValue)} {s : Source}
    (h : (resolvedEntries role entries s).1 = entries) : ∀ v ∈ entryValues entries, Settled role v := by
  cases entries with
  | none => exact nofun
  | some vs =>
    intro w hw
    obtain ⟨v, hv, rfl⟩ := List.mem_map.1 hw
    exact settled_of_resolvedList (Option.some.inj h) v hv

theorem resolvedBody_eq_self {role : Role} {body : Option Json} (hnull : body ≠ some .null)
    (h : ∀ v ∈ body.toList, Settled role v) (s : Source) : resolvedBody role body s = (body, s) := by
  cases body with
  | none => rfl
  | some v =>
    have hkind : v.kind ≠ .null := by
      cases v with
      | null => exact absurd rfl hnull
      | _ => exact nofun
    rw [resolvedBody, if_neg hkind]
    show (some (materialize role v s).1, (materialize role v s).2) = _
    rw [materialize_eq_self (h v (List.mem_singleton.2 rfl))]

theorem of_resolvedBody {role : Role} {body : Option Json} {s : Source}
    (h : (resolvedBody role body s).1 = body) : body ≠ some .null ∧ ∀ v ∈ body.toList, Settled role v := by
  cases body with
  | none => exact ⟨nofun, nofun⟩
  | some v =>
    rw [resolvedBody] at h
    split at h
    · cases h
    · rename_i hkind
      refine ⟨fun hv => hkind (congrArg Json.kind (Option.some.inj hv)), fun w hw => ?_⟩
      rw [List.mem_singleton.1 hw]
      exact settled_of_materialize (s := s) (Option.some.inj h)

/-- A request that reads back as itself from the tree written for it. -/
structure Request.Reloadable (r : Request) : Prop where
  body : r.body ≠ some .null
  settled : ∀ v ∈ r.values, Settled .request v

/-- An expectation that reads back as itself from the tree written for it. -/
structure Expectation.Reloadable (e : Expectation) : Prop where
  status : InRange e.status
  body : e.body ≠ some .null
  settled : ∀ v ∈ e.values, Settled .response v

/-- A contract that reads back as itself from the tree written for it: its status code is one that
contracts may declare, no body is null, and no string is a token or an escape that reading resolves. -/
structure Contract.Reloadable (c : Contract) : Prop where
  request : c.request.Reloadable
  expected : c.expected.Reloadable

theorem Request.Reloadable.resolved_eq_self {r : Request} (h : r.Reloadable) (s : Source) :
    r.resolved s = (r, s) := by
  obtain ⟨path, method, headers, params, body⟩ := r
  obtain ⟨hbody, hsettled⟩ := h
  have hheaders (s) : resolvedEntries .request headers s = (headers, s) :=
    resolvedEntries_eq_self (fun v hv => hsettled v (by simp [Request.values, hv])) s
  have hparams (s) : resolvedEntries .request params s = (params, s) :=
    resolvedEntries_eq_self (fun v hv => hsettled v (by simp [Request.values, hv])) s
  have hvalue (s) : resolvedBody .request body s = (body, s) :=
    resolvedBody_eq_self hbody (fun v hv => hsettled v (by simp [Request.values, hv])) s
  show (let h := resolvedEntries .request headers s
    let p := resolvedEntries .request params h.2
    let b := resolvedBody .request body p.2
    ((⟨path, method, h.1, p.1, b.1⟩ : Request), b.2)) = _
  simp only [hheaders, hparams, hvalue]

theorem Request.reloadable_of_resolved {r : Request} {s : Source} (h : (r.resolved s).1 = r) :
    r.Reloadable := by
  obtain ⟨hbody, hvalue⟩ := of_resolvedBody (congrArg Request.body h)
  refine ⟨hbody, fun v hv => ?_⟩
  rcases List.mem_append.1 hv with hv | hv
  · rcases List.mem_append.1 hv with hv | hv
    · exact settled_of_resolvedEntries (congrArg Request.headers h) v hv
    · exact settled_of_resolvedEntries (congrArg Request.params h) v hv
  · exact hvalue v hv

theorem Expectation.Reloadable.resolved_eq_self {e : Expectation} (h : e.Reloadable) (s : Source) :
    e.resolved s = (e, s) := by
  obtain ⟨status, headers, body⟩ := e
  obtain ⟨-, hbody, hsettled⟩ := h
  have hheaders (s) : resolvedEntries .response headers s = (headers, s) :=
    resolvedEntries_eq_self (fun v hv => hsettled v (by simp [Expectation.values, hv])) s
  have hvalue (s) : resolvedBody .response body s = (body, s) :=
    resolvedBody_eq_self hbody (fun v hv => hsettled v (by simp [Expectation.values, hv])) s
  show (let h := resolvedEntries .response headers s
    let b := resolvedBody .response body h.2
    ((⟨status, h.1, b.1⟩ : Expectation), b.2)) = _
  simp only [hheaders, hvalue]

theorem Expectation.reloadable_of_resolved {e : Expectation} {s : Source} (hstatus : InRange e.status)
    (h : (e.resolved s).1 = e) : e.Reloadable := by
  obtain ⟨hbody, hvalue⟩ := of_resolvedBody (congrArg Expectation.body h)
  refine ⟨hstatus, hbody, fun v hv => ?_⟩
  rcases List.mem_append.1 hv with hv | hv
  · exact settled_of_resolvedEntries (congrArg Expectation.headers h) v hv
  · exact hvalue v hv

namespace Contract

theorem Reloadable.resolved_eq_self {c : Contract} (h : c.Reloadable) (s : Source) :
    c.resolved s = (c, s) := by
  show (let r := c.request.resolved s
    let e := c.expected.resolved r.2
    ((⟨c.name, r.1, e.1⟩ : Contract), e.2)) = _
  simp only [h.request.resolved_eq_self, h.expected.resolved_eq_self]

/-- The tree of a contract reads back as a request and an expectation, under any name, exactly if these are
the ones it was written from and the contract is reloadable. -/
theorem ofDocument_toDocument_eq_ok_iff {c : Contract} (h : c.DistinctKeys) (name : String) (s : Source) :
    (∃ s', ofDocument name (Yaml.ofJson c.toDocument) s = .ok (⟨name, c.request, c.expected⟩, s')) ↔
      c.Reloadable := by
  rw [ofDocument_toDocument h]
  constructor
  · rintro ⟨s', hload⟩
    by_cases hrange : InRange c.expected.status
    · rw [if_pos hrange] at hload
      have hload : (resolved { c with name := name } s).1 = ⟨name, c.request, c.expected⟩ :=
        congrArg Prod.fst (Except.ok.inj hload)
      exact ⟨Request.reloadable_of_resolved (congrArg Contract.request hload),
        Expectation.reloadable_of_resolved hrange (congrArg Contract.expected hload)⟩
    · rw [if_neg hrange] at hload
      cases hload
  · intro hc
    have hnamed : Reloadable { c with name := name } := ⟨hc.request, hc.expected⟩
    refine ⟨s, ?_⟩
    rw [if_pos hc.expected.status]
    exact congrArg Except.ok (hnamed.resolved_eq_self s)

end Contract

end Covenant
