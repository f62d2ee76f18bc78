import Covenant.Command.Generate
import Covenant.Proofs.Reloading

/-!
# Contracts that were read

A contract that was read from a file is written and read back as it is, with two exceptions: an escaped
generator token has become the token, and a body that is not a finite number has become null.

* `ReadFrom`: the values that reading makes of a tree;
* `Contract.OrdinaryBodies`: trees without such a body;
* `Contract.reloadable_of_ofDocument`: what is read from other trees is reloadable;
* `Contract.reread`: when the tree of a contract reads back as the contract.
-/

namespace Covenant

/-! ## Values that are read -/

/-- A value that reading makes of a part of a tree. -/
def ReadFrom (role : Role) (doc : Yaml) (j : Json) : Prop :=
  ∃ (v : Yaml) (j₀ : Json) (s : Source),
    (∀ t, v.HasText t → doc.HasText t) ∧ v.toJson? = .ok j₀ ∧ (materialize role j₀ s).1 = j

namespace ReadFrom

variable {role : Role} {doc v : Yaml} {j : Json}

theorem mono (h : ReadFrom role v j) (hsub : ∀ t, v.HasText t → doc.HasText t) : ReadFrom role doc j := by
  obtain ⟨w, j₀, s, hw, hj⟩ := h
  exact ⟨w, j₀, s, fun t ht => hsub t (hw t ht), hj⟩

theorem settled (h : ReadFrom role doc j) (hdoc : ∀ t, doc.HasText t → ¬ IsEscapedGenerator t) :
    Settled role j := by
  obtain ⟨v, j₀, s, hsub, hj₀, rfl⟩ := h
  exact settled_materialize (fun t ht => hdoc t (hsub t (Yaml.hasText_of_toJson? hj₀ ht))) s

end ReadFrom

/-- A number that JSON has no form of. -/
inductive Yaml.NotFinite : Yaml → Prop
  | infinite (negative : Bool) : NotFinite (.number (.infinite negative))
  | nan : NotFinite (.number .nan)

/-- A tree other than null is read as null only if it is no finite number. -/
theorem Yaml.notFinite_of_toJson? {v : Yaml} (h : v.toJson? = .ok .null) (hnull : v.isNull = false) :
    v.NotFinite := by
  cases v with
  | null => cases hnull
  | bool => cases h
  | number n =>
    cases n with
    | integer => cases h
    | double => cases h
    | infinite negative => exact .infinite negative
    | nan => exact .nan
  | string => cases h
  | sequence items =>
    rw [toJson?] at h
    obtain ⟨_, -, h⟩ := bind_eq_ok_iff.1 h
    cases h
  | mapping entries =>
    rw [toJson?] at h
    obtain ⟨_, -, h⟩ := bind_eq_ok_iff.1 h
    cases h
  | tagged tag v =>
    rw [toJson?] at h
    obtain ⟨_, -, h⟩ := bind_eq_ok_iff.1 h
    cases h

namespace Contract

section Parts

variable {contract path : String} {role : Role} {s s' : Source}

theorem exists_of_valueOf {v : Yaml} {j : Json} (h : valueOf contract path role v s = .ok (j, s')) :
    ∃ j₀, v.toJson? = .ok j₀ ∧ (materialize role j₀ s).1 = j := by
  rw [valueOf, jsonOf] at h
  cases hv : v.toJson? with
  | error e =>
    rw [hv] at h
    cases h
  | ok j₀ =>
    rw [hv] at h
    exact ⟨j₀, rfl, congrArg Prod.fst (Except.ok.inj h)⟩

theorem readFrom_of_valueOf {v : Yaml} {j : Json} (h : valueOf contract path role v s = .ok (j, s')) :
    ReadFrom role v j := by
  obtain ⟨j₀, hj₀, hj⟩ := exists_of_valueOf h
  exact ⟨v, j₀, s, fun _ ht => ht, hj₀, hj⟩

theorem readFrom_of_namedValue {entry : Yaml × Yaml} {nv : NamedValue}
    (h : namedValue contract path role entry s = .ok (nv, s')) : ReadFrom role entry.2 nv.value := by
  rw [namedValue] at h
  cases hname : nameText? entry.1 with
  | none =>
    rw [hname] at h
    cases h
  | some name =>
    rw [hname] at h
    obtain ⟨j, s'', hj, h⟩ := Loading.bind_eq_ok_iff.1 h
    cases h
    exact readFrom_of_valueOf hj

theorem readFrom_of_namedEntries {entries : List (Yaml × Yaml)} {vs : List NamedValue}
    (h : namedEntries contract path role entries s = .ok (vs, s')) :
    ∀ v ∈ vs, ReadFrom role (.mapping entries) v.value := by
  induction entries generalizing vs s with
  | nil =>
    cases h
    exact nofun
  | cons e es ih =>
    obtain ⟨v, s₁, hv, h⟩ := Loading.bind_eq_ok_iff.1 h
    obtain ⟨ws, s₂, hws, h⟩ := Loading.bind_eq_ok_iff.1 h
    cases h
    refine List.forall_mem_cons.2 ⟨?_, fun w hw => ?_⟩
    · exact (readFrom_of_namedValue hv).mono fun t ht => .value List.mem_cons_self ht
    · refine (ih hws w hw).mono fun t ht => ?_
      cases ht with
      | value he ht => exact .value (List.mem_cons_of_mem e he) ht

theorem readFrom_of_namedItems {i : Nat} {items : List Yaml} {vs : List NamedValue}
    (h : namedItems contract path role i items s = .ok (vs, s')) :
    ∀ v ∈ vs, ReadFrom role (.sequence items) v.value := by
  induction items generalizing vs s i with
  | nil =>
    cases h
    exact nofun
  | cons item items ih =>
    unfold namedItems at h
    dsimp only at h
    split at h
    · obtain ⟨v, s₁, hv, h⟩ := Loading.bind_eq_ok_iff.1 h
      obtain ⟨ws, s₂, hws, h⟩ := Loading.bind_eq_ok_iff.1 h
      cases h
      refine List.forall_mem_cons.2 ⟨?_, fun w hw => ?_⟩
      · refine (readFrom_of_namedValue hv).mono fun t ht => ?_
        exact .item List.mem_cons_self (.value (List.mem_singleton.2 rfl) ht)
      · refine (ih hws w hw).mono fun t ht => ?_
        cases ht with
        | item he ht => exact .item (List.mem_cons_of_mem _ he) ht
    · obtain ⟨v, s₁, hv, h⟩ := Loading.bind_eq_ok_iff.1 h
      cases hv

theorem readFrom_of_namedValues {v : Option Yaml} {entries : Option (List NamedValue)}
    (h : namedValues contract path role v s = .ok (entries, s')) :
    ∀ j ∈ entryValues entries, ∃ y, v = some y ∧ ReadFrom role y j := by
  intro j hj
  unfold namedValues at h
  split at h
  · cases h
    cases hj
  · obtain ⟨vs, s₁, hvs, h⟩ := Loading.bind_eq_ok_iff.1 h
    cases h
    obtain ⟨nv, hnv, rfl⟩ := List.mem_map.1 hj
    exact ⟨_, rfl, readFrom_of_namedEntries hvs nv hnv⟩
  · obtain ⟨vs, s₁, hvs, h⟩ := Loading.bind_eq_ok_iff.1 h
    cases h
    obtain ⟨nv, hnv, rfl⟩ := List.mem_map.1 hj
    exact ⟨_, rfl, readFrom_of_namedItems hvs nv hnv⟩
  · cases h

/-- The body that is read from a tree. It is null only if the tree is no finite number. -/
theorem readFrom_of_optionalValue {v : Option Yaml} {body : Option Json}
    (h : optionalValue contract path role v s = .ok (body, s')) :
    ∀ j ∈ body.toList, ∃ y, v = some y ∧ ReadFrom role y j ∧
      (j = .null → y.isNull = false → y.NotFinite) := by
  intro j hj
  cases v with
  | none =>
    cases h
    cases hj
  | some y =>
    obtain ⟨j', s₁, hj', h⟩ := Loading.bind_eq_ok_iff.1 h
    cases h
    cases List.mem_singleton.1 hj
    obtain ⟨j₀, hj₀, heq⟩ := exists_of_valueOf hj'
    refine ⟨y, rfl, readFrom_of_valueOf hj', fun hnull hy => ?_⟩
    rw [hnull] at heq
    rw [materialize_eq_null_iff.1 heq] at hj₀
    exact Yaml.notFinite_of_toJson? hj₀ hy

end Parts

/-! ## Requests and expectations that are read -/

theorem optional?_eq_some_iff {parent v : Yaml} {key : String} :
    optional? parent key = some v ↔ parent.get? key = some v ∧ v.isNull = false := by
  rw [optional?, Option.filter_eq_some_iff, Bool.not_eq_true']

theorem optional?_of_required {contract key path : String} {parent v : Yaml}
    (h : required contract parent key path = .ok v) : optional? parent key = some v := by
  rw [required] at h
  split at h
  · rename_i w hw
    cases h
    exact hw
  · cases h

/-- The values of entries or of a body stand in the tree around them. -/
theorem readFrom_parent {parent : Yaml} {key : String} {role : Role} {j : Json}
    (h : ∃ y, optional? parent key = some y ∧ ReadFrom role y j) : ReadFrom role parent j := by
  obtain ⟨y, hy, hread⟩ := h
  exact hread.mono fun t ht => Yaml.hasText_of_get? (optional?_eq_some_iff.1 hy).1 ht

/-- What is known of a part of a contract that was read. -/
structure ReadPart (role : Role) (parent : Yaml) (values : List Json) (body : Option Json) : Prop where
  values : ∀ j ∈ values, ReadFrom role parent j
  body : body = some .null → ∃ y, parent.get? "body" = some y ∧ y.NotFinite

/-- A body that is read from a part of a contract. -/
theorem readPart_body {contract path : String} {role : Role} {parent : Yaml} {s s' : Source}
    {body : Option Json} (h : optionalValue contract path role (optional? parent "body") s = .ok (body, s')) :
    ReadPart role parent body.toList body := by
  have hbody := readFrom_of_optionalValue h
  refine ⟨fun j hj => ?_, ?_⟩
  · obtain ⟨y, hy, hread, -⟩ := hbody j hj
    exact readFrom_parent ⟨y, hy, hread⟩
  · rintro rfl
    obtain ⟨y, hy, -, hnull⟩ := hbody .null (List.mem_singleton.2 rfl)
    obtain ⟨hget, hnot⟩ := optional?_eq_some_iff.1 hy
    exact ⟨y, hget, hnull rfl hnot⟩

theorem readPart_of_requestOf {name : String} {v : Yaml} {s s' : Source} {r : Request}
    (h : requestOf name v s = .ok (r, s')) : ReadPart .request v r.values r.body := by
  rw [requestOf] at h
  obtain ⟨path, s₁, -, h⟩ := Loading.bind_eq_ok_iff.1 h
  obtain ⟨method, s₂, -, h⟩ := Loading.bind_eq_ok_iff.1 h
  obtain ⟨headers, s₃, hheaders, h⟩ := Loading.bind_eq_ok_iff.1 h
  obtain ⟨params, s₄, hparams, h⟩ := Loading.bind_eq_ok_iff.1 h
  obtain ⟨body, s₅, hbody, h⟩ := Loading.bind_eq_ok_iff.1 h
  cases h
  obtain ⟨hvalues, hnull⟩ := readPart_body hbody
  refine ⟨fun j hj => ?_, hnull⟩
  rcases List.mem_append.1 hj with hj | hj
  · rcases List.mem_append.1 hj with hj | hj
    · exact readFrom_parent (readFrom_of_namedValues hheaders j hj)
    · exact readFrom_parent (readFrom_of_namedValues hparams j hj)
  · exact hvalues j hj

theorem inRange_of_statusCode? {v : Yaml} {status : UInt16} (h : statusCode? v = some status) :
    InRange status := by
  obtain ⟨n, hn, rfl⟩ := Option.map_eq_some_iff.1 h
  have hn : 100 ≤ n ∧ n ≤ 599 := of_decide_eq_true (Option.filter_eq_some_iff.1 hn).2
  have htoNat : n.toUInt16.toNat = n := UInt16.toNat_ofNat_of_lt' (Nat.lt_of_le_of_lt hn.2 (by decide))
  rw [InRange, htoNat]
  exact hn

theorem readPart_of_expectationOf {name : String} {v : Yaml} {s s' : Source} {e : Expectation}
    (h : expectationOf name v s = .ok (e, s')) :
    InRange e.status ∧ ReadPart .response v e.values e.body := by
  rw [expectationOf] at h
  obtain ⟨status, s₁, hstatus, h⟩ := Loading.bind_eq_ok_iff.1 h
  obtain ⟨headers, s₂, hheaders, h⟩ := Loading.bind_eq_ok_iff.1 h
  obtain ⟨body, s₃, hbody, h⟩ := Loading.bind_eq_ok_iff.1 h
  cases h
  constructor
  · obtain ⟨y, -, hy⟩ := Covenant.bind_eq_ok_iff.1 (Loading.ofExcept_eq_ok_iff.1 hstatus).1
    rw [statusOf] at hy
    split at hy
    · rename_i code hcode
      cases hy
      exact inRange_of_statusCode? hcode
    · cases hy
  · obtain ⟨hvalues, hnull⟩ := readPart_body hbody
    refine ⟨fun j hj => ?_, hnull⟩
    rcases List.mem_append.1 hj with hj | hj
    · exact readFrom_parent (readFrom_of_namedValues hheaders j hj)
    · exact hvalues j hj

/-! ## Contracts that are read -/

/-- Neither body of a file is a number that JSON has no form of. -/
def OrdinaryBodies (doc : Yaml) : Prop :=
  ∀ contract part body key, key = "request" ∨ key = "response" → doc.get? "contract" = some contract →
    contract.get? key = some part → part.get? "body" = some body → ¬ body.NotFinite

theorem exists_of_ofDocument {name : String} {doc : Yaml} {s s' : Source} {c : Contract}
    (h : ofDocument name doc s = .ok (c, s')) :
    c.name = name ∧ InRange c.expected.status ∧ ∃ contract request response,
      doc.get? "contract" = some contract ∧
      contract.get? "request" = some request ∧ ReadPart .request request c.request.values c.request.body ∧
      contract.get? "response" = some response ∧
        ReadPart .response response c.expected.values c.expected.body := by
  rw [ofDocument] at h
  obtain ⟨contract, s₁, hcontract, h⟩ := Loading.bind_eq_ok_iff.1 h
  obtain ⟨request, s₂, hrequest, h⟩ := Loading.bind_eq_ok_iff.1 h
  obtain ⟨response, s₃, hresponse, h⟩ := Loading.bind_eq_ok_iff.1 h
  obtain ⟨r, s₄, hr, h⟩ := Loading.bind_eq_ok_iff.1 h
  obtain ⟨e, s₅, he, h⟩ := Loading.bind_eq_ok_iff.1 h
  cases h
  have hpart : ∀ {parent : Yaml} {key path : String} {s : Source} {p : Yaml × Source},
      Loading.ofExcept (required name parent key path) s = .ok p → parent.get? key = some p.1 :=
    fun hload => (optional?_eq_some_iff.1 (optional?_of_required (Loading.ofExcept_eq_ok_iff.1 hload).1)).1
  obtain ⟨hstatus, hexpected⟩ := readPart_of_expectationOf he
  exact ⟨rfl, hstatus, contract, request, response, hpart hcontract, hpart hrequest,
    readPart_of_requestOf hr, hpart hresponse, hexpected⟩

/-- A contract that is read is reloadable, unless its file used an escaped generator token or a number that
JSON has no form of as a body. -/
theorem reloadable_of_ofDocument {name : String} {doc : Yaml} {s s' : Source} {c : Contract}
    (h : ofDocument name doc s = .ok (c, s')) (htexts : ∀ t, doc.HasText t → ¬ IsEscapedGenerator t)
    (hbodies : OrdinaryBodies doc) : c.Reloadable := by
  obtain ⟨-, hstatus, contract, request, response, hc, hr, hrequest, he, hresponse⟩ := exists_of_ofDocument h
  refine ⟨⟨fun hnull => ?_, fun v hv => ?_⟩, hstatus, fun hnull => ?_, fun v hv => ?_⟩
  · obtain ⟨y, hy, hnot⟩ := hrequest.body hnull
    exact hbodies contract request y "request" (.inl rfl) hc hr hy hnot
  · refine (hrequest.values v hv).settled fun t ht => htexts t ?_
    exact Yaml.hasText_of_get? hc (Yaml.hasText_of_get? hr ht)
  · obtain ⟨y, hy, hnot⟩ := hresponse.body hnull
    exact hbodies contract response y "response" (.inr rfl) hc he hy hnot
  · refine (hresponse.values v hv).settled fun t ht => htexts t ?_
    exact Yaml.hasText_of_get? hc (Yaml.hasText_of_get? he ht)

/-- A text that reads as the tree of a contract gives the contract back exactly if this is reloadable. So it
does for a contract that was itself read, unless its file used an escaped generator token or a number that
JSON has no form of as a body. -/
theorem reread {c : Contract} (hkeys : c.DistinctKeys) {text : String}
    (hread : Yaml.read? text = some (Yaml.ofJson c.toDocument)) :
    (∀ s, (∃ s', ofText c.name text s = .ok (c, s')) ↔ c.Reloadable) ∧
    ∀ file doc s₀ s₁, Yaml.read? file = some doc → ofText c.name file s₀ = .ok (c, s₁) →
      (∀ t, doc.HasText t → ¬ IsEscapedGenerator t) → OrdinaryBodies doc →
      ∀ s, ∃ s', ofText c.name text s = .ok (c, s') := by
  have hiff : ∀ s, (∃ s', ofText c.name text s = .ok (c, s')) ↔ c.Reloadable := by
    intro s
    rw [ofText, hread]
    exact ofDocument_toDocument_eq_ok_iff hkeys c.name s
  refine ⟨hiff, fun file doc s₀ s₁ hfile hload htexts hbodies s => (hiff s).2 ?_⟩
  rw [ofText, hfile] at hload
  exact reloadable_of_ofDocument hload htexts hbodies

/-- A file with a body that is not a number, and the contract that is read from it. -/
def notANumber : String :=
  "contract:\n  request:\n    path: /\n    body: .nan\n  response:\n    statusCode: 200\n"

def notANumberTree : Yaml :=
  .mapping [(.string "contract", .mapping [
    (.string "request", .mapping [(.string "path", .string "/"), (.string "body", .number .nan)]),
    (.string "response", .mapping [(.string "statusCode", .number (.integer 200 (by decide)))])])]

def notANumberContract : Contract :=
  ⟨"c", ⟨"/", .get, none, none, some .null⟩, .ofStatus 200⟩

/-- A body that is not a number is read as null, and null is read back as no body. -/
theorem not_reread_notANumber :
    Yaml.read? notANumber = some notANumberTree ∧
    (∀ t, notANumberTree.HasText t → ¬ IsEscapedGenerator t) ∧
    (∀ s, ofText "c" notANumber s = .ok (notANumberContract, s)) ∧
    Yaml.read? notANumberContract.fileText = some (Yaml.ofJson notANumberContract.toDocument) ∧
    ∀ s s', ofText "c" notANumberContract.fileText s ≠ .ok (notANumberContract, s') := by
  have hread : Yaml.read? notANumber = some notANumberTree := by decide +kernel
  have hback : Yaml.read? notANumberContract.fileText = some (Yaml.ofJson notANumberContract.toDocument) := by
    decide +kernel
  refine ⟨hread, fun t ht => ?_, fun s => ?_, hback, fun s s' h => ?_⟩
  · have hpath : t = "/" := by simpa [notANumberTree] using ht
    rintro ⟨u, hu, -⟩
    rw [hpath] at hu
    exact absurd (congrArg (List.head? ∘ String.toList) hu) (by simp)
  · rw [ofText, hread]
    rfl
  · rw [ofText, hback] at h
    cases h

/-- A contract with a header declared twice, no parameters in a list, and an escaped wildcard. -/
def search : Contract where
  name := "search"
  request := ⟨"/", .post, some [⟨"a", .string "x: y"⟩, ⟨"a", .number (.ofUInt16 2)⟩], some [],
    some (.object [("q", .array [.null])])⟩
  expected := ⟨200, none, some (.string "\\<anyBool>")⟩

theorem search_distinctKeys : search.DistinctKeys := by
  simp [DistinctKeys, search, Request.values, Expectation.values, entryValues, Json.DistinctKeys,
    Json.DistinctKeysFields, Json.DistinctKeysItems]

theorem search_readsBack : Yaml.read? search.fileText = some (Yaml.ofJson search.toDocument) := by
  decide +kernel

theorem reread_search :
    search.DistinctKeys ∧ Yaml.read? search.fileText = some (Yaml.ofJson search.toDocument) ∧
    (∀ s, (∃ s', ofText search.name search.fileText s = .ok (search, s')) ↔ search.Reloadable) ∧
    ∀ file doc s₀ s₁, Yaml.read? file = some doc → ofText search.name file s₀ = .ok (search, s₁) →
      (∀ t, doc.HasText t → ¬ IsEscapedGenerator t) → OrdinaryBodies doc →
      ∀ s, ∃ s', ofText search.name search.fileText s = .ok (search, s') :=
  ⟨search_distinctKeys, search_readsBack, reread search_distinctKeys search_readsBack⟩

end Contract

end Covenant
