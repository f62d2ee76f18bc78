import Covenant.Proofs.FreshNames
import Covenant.Proofs.OperationNames
import Covenant.Proofs.RequiredReferences

/-!
# The contracts of a document

The contracts of a document stand in the order of its operations, one for each.

* `OpenApi.Site`, `OpenApi.SitesOf`: the operations of a document in their order;
* `OpenApi.ContractOf`: the contract of an operation;
* `OpenApi.exists_of_operationContracts`, `OpenApi.exists_of_pathContracts`: what is added for the operations of one
  path, and for those of all paths;
* `OpenApi.contracts_of_document`: the contracts of a document, their names, and when there are none.
-/

namespace Covenant.OpenApi

open Loading

/-! ## Operations in order -/

/-- A place in a document where an operation is declared: the path, what stands behind its item, and the field of
the operation. -/
structure Site where
  path : String
  item : Json
  key : String
  declaration : Json

/-- The place of a field behind a path item. -/
def Site.ofField (path : String) (item : Json) (f : String × Json) : Site := ⟨path, item, f.1, f.2⟩

/-- The operations of paths, in the order of the paths and of the fields behind each path item. -/
inductive SitesOf (doc : Json) : List (String × Json) → List Site → Prop
  | nil : SitesOf doc [] []
  | cons {path : String} {item v : Json} {paths : List (String × Json)} {sites : List Site} :
      deref doc item = .ok v → SitesOf doc paths sites →
      SitesOf doc ((path, item) :: paths) ((operationFields v).map (Site.ofField path v) ++ sites)

/-- The name that an operation wants. -/
def Site.Wants (site : Site) (name : String) : Prop := WantsName site.key site.declaration site.path name

/-! ## The contract of an operation -/

/-- The body that is expected of a response: nothing where none is picked or it says nothing, and otherwise an
example of its schema. -/
inductive BodyOf (doc : Json) : Option Json → Option Json → Prop
  | none : BodyOf doc none none
  | unspecified {response v : Json} : deref doc response = .ok v → responseSchema? v = none →
      BodyOf doc (some response) none
  | sample {response v schema : Json} {body : Option Json} {s s' : Source} : deref doc response = .ok v →
      responseSchema? v = some schema → exampleFor doc .wildcard schema s = .ok (body, s') →
      BodyOf doc (some response) body

/-- What is expected for an operation: status and body of one and the same response, and nothing of headers. -/
structure ExpectationOf (doc declaration : Json) (e : Expectation) : Prop where
  headers : e.headers = none
  response : ∃ response, Expects (responsesOf declaration) e.status response ∧ BodyOf doc response e.body

/-- The contract of an operation has its method, a request made for it and what is expected for it. -/
structure ContractOf (doc : Json) (site : Site) (c : Contract) : Prop where
  method : Method.parse? site.key = some c.request.method
  request : ∃ s s', requestFor doc site.path site.item ⟨site.key, c.request.method, site.declaration⟩ s =
    .ok (c.request, s')
  expected : ExpectationOf doc site.declaration c.expected

section

variable {doc : Json} {s s' : Source}

theorem method_of_requestFor {path : String} {item : Json} {o : Operation} {r : Request}
    (h : requestFor doc path item o s = .ok (r, s')) : r.method = o.method := by
  obtain ⟨shared, own, -, -, hr, -⟩ := exists_requestOf h
  rw [hr]
  rfl

theorem expectationOf_of_expectationFor {o : Operation} {e : Expectation}
    (h : expectationFor doc o s = .ok (e, s')) : ExpectationOf doc o.declaration e := by
  rw [expectationFor, ← responsesOf] at h
  dsimp only at h
  cases hpick : pickResponse? (responsesOf o.declaration) with
  | none =>
    rw [hpick] at h
    cases h
    exact ⟨rfl, none, expects_iff.2 (by rw [hpick]; rfl), .none⟩
  | some c =>
    obtain ⟨status, response⟩ := c
    have hexpects : Expects (responsesOf o.declaration) status (some response) :=
      expects_iff.2 (by rw [hpick]; rfl)
    rw [hpick] at h
    obtain ⟨v, s₁, hderef, h⟩ := Loading.bind_eq_ok_iff.1 h
    have hderef := (ofExcept_eq_ok_iff.1 hderef).1
    cases hschema : responseSchema? v with
    | none =>
      rw [hschema] at h
      cases h
      exact ⟨rfl, some response, hexpects, .unspecified hderef hschema⟩
    | some schema =>
      rw [hschema] at h
      obtain ⟨body, s₂, hbody, h⟩ := Loading.bind_eq_ok_iff.1 h
      cases h
      exact ⟨rfl, some response, hexpects, .sample hderef hschema hbody⟩

theorem contractOf_of_operationOf {path name : String} {item : Json} {f : String × Json} {o : Operation}
    {request : Request} {expected : Expectation} {s₁ s₂ s₃ : Source} (ho : OperationOf f o)
    (hrequest : requestFor doc path item o s = .ok (request, s₁))
    (hexpected : expectationFor doc o s₂ = .ok (expected, s₃)) :
    ContractOf doc (.ofField path item f) ⟨name, request, expected⟩ := by
  have hmethod := method_of_requestFor hrequest
  obtain ⟨key, method, declaration⟩ := o
  obtain ⟨rfl, rfl, hparse⟩ := ho
  dsimp only at hmethod hparse
  subst hmethod
  exact ⟨hparse, ⟨s, s₁, hrequest⟩, expectationOf_of_expectationFor hexpected⟩

theorem wants_of_operationOf {f : String × Json} {o : Operation} (ho : OperationOf f o) (path : String)
    (item : Json) : (Site.ofField path item f).Wants (o.name path) := by
  obtain ⟨key, method, declaration⟩ := o
  obtain ⟨rfl, rfl, -⟩ := ho
  exact wantsName_name ⟨f.1, method, f.2⟩ path

/-! ## One operation after the other -/

/-- The contracts of the operations of one path are added in their order, under names that are not taken. -/
theorem exists_of_operationContracts {path : String} {item : Json} {fields : List (String × Json)}
    {ops : List Operation} (hops : List.Forall₂ OperationOf fields ops) {done cs : List Contract}
    (h : operationContracts doc path item done ops s = .ok (cs, s')) :
    ∃ new names, cs = done ++ new ∧
      List.Forall₂ (ContractOf doc) (fields.map (Site.ofField path item)) new ∧
      List.Forall₂ Site.Wants (fields.map (Site.ofField path item)) names ∧
      NamesInTurn id (done.map Contract.name) names (new.map Contract.name) := by
  -- of the contracts made before, only the names count: they are the ones that are taken
  induction hops generalizing done s with
  | nil =>
    cases h
    exact ⟨[], [], (List.append_nil _).symm, .nil, .nil, .nil⟩
  | @cons f o fields ops ho hops ih =>
    obtain ⟨request, s₁, hrequest, h⟩ := Loading.bind_eq_ok_iff.1 h
    obtain ⟨expected, s₂, hexpected, h⟩ := Loading.bind_eq_ok_iff.1 h
    obtain ⟨new, names, hcs, hnew, hnames, hturn⟩ := ih h
    have hfresh : IsFresh id (done.map Contract.name) (o.name path)
        (freshName id (done.map Contract.name) (o.name path)) :=
      isFresh_freshName _ (fun _ _ => numberedName_injective) _
    generalize freshName id (done.map Contract.name) (o.name path) = name at hcs hturn hfresh
    refine ⟨⟨name, request, expected⟩ :: new, o.name path :: names, ?_, ?_, ?_, ?_⟩
    · rw [hcs, List.append_assoc, List.singleton_append]
    · exact .cons (contractOf_of_operationOf ho hrequest hexpected) hnew
    · exact .cons (wants_of_operationOf ho path item) hnames
    · refine .cons hfresh (hturn.congr ?_)
      intro k
      simp [or_comm]

/-- The contracts of all paths are added in their order. -/
theorem exists_of_pathContracts {paths : List (String × Json)} {done cs : List Contract}
    (h : pathContracts doc done paths s = .ok (cs, s')) :
    ∃ new sites names, cs = done ++ new ∧ SitesOf doc paths sites ∧ List.Forall₂ (ContractOf doc) sites new ∧
      List.Forall₂ Site.Wants sites names ∧
      NamesInTurn id (done.map Contract.name) names (new.map Contract.name) := by
  induction paths generalizing done s with
  | nil =>
    cases h
    exact ⟨[], [], [], (List.append_nil _).symm, .nil, .nil, .nil, .nil⟩
  | cons p paths ih =>
    obtain ⟨path, item⟩ := p
    obtain ⟨v, s₁, hitem, h⟩ := Loading.bind_eq_ok_iff.1 h
    obtain ⟨more, s₂, hops, h⟩ := Loading.bind_eq_ok_iff.1 h
    obtain ⟨first, firstNames, rfl, hfirst, hfirstNames, hfirstTurn⟩ :=
      exists_of_operationContracts (forall₂_operations v) hops
    obtain ⟨rest, sites, restNames, rfl, hsites, hrest, hrestNames, hrestTurn⟩ := ih h
    refine ⟨first ++ rest, (operationFields v).map (Site.ofField path v) ++ sites, firstNames ++ restNames,
      List.append_assoc .., ?_, ?_, ?_, ?_⟩
    · exact .cons (ofExcept_eq_ok_iff.1 hitem).1 hsites
    · exact List.rel_append hfirst hrest
    · exact List.rel_append hfirstNames hrestNames
    · rw [List.map_append] at hrestTurn ⊢
      refine hfirstTurn.append ?_
      rwa [List.map_id]

end

/-! ## Documents -/

/-- The contracts of a document stand one for one in the order of its operations. Their names are given in this
order, each the one that the operation wants or that with the least number, so that no two are the same. There are
no contracts at all exactly if the document has no paths, or if a reference that has to be followed fails: one that
leads nowhere, or back to a reference that was followed before it. -/
theorem contracts_of_document (doc : Json) (s : Source) :
    (∀ cs s', contracts doc s = .ok (cs, s') →
      ∃ paths sites names, doc.get? "paths" = some (.object paths) ∧ SitesOf doc paths sites ∧
        List.Forall₂ (ContractOf doc) sites cs ∧
        List.Forall₂ Site.Wants sites names ∧ NamesInTurn id [] names (cs.map Contract.name) ∧
        (cs.map Contract.name).Nodup) ∧
    ((∃ e, contracts doc s = .error e) ↔
      ∀ paths, doc.get? "paths" = some (.object paths) →
        ∃ d passed r, PathsDue doc paths d ∧ d.Requires doc passed r ∧ (r ∈ passed ∨ ∀ v, ¬ Resolves doc r v)) := by
  constructor
  · intro cs s' h
    rw [contracts] at h
    cases hpaths : (doc.get? "paths").bind Json.toFields? with
    | none =>
      rw [hpaths] at h
      cases h
    | some paths =>
      rw [hpaths] at h
      obtain ⟨new, sites, names, rfl, hsites, hcs, hnames, hturn⟩ := exists_of_pathContracts h
      have hnodup := hturn.keys.1
      rw [List.map_id] at hnodup
      exact ⟨paths, sites, names, bind_toFields?_eq_some_iff.1 hpaths, hsites, hcs, hnames, hturn, hnodup⟩
  · rw [(succeedsIff_contracts doc).exists_error_iff s]
    constructor
    · intro h paths hpaths
      by_contra hno
      refine h ⟨paths, hpaths, fun d hd => ?_⟩
      by_contra hmet
      obtain ⟨passed, r, hrequires, hr⟩ := Demand.not_met_iff.1 hmet
      exact hno ⟨d, passed, r, hd, hrequires, hr⟩
    · rintro h ⟨paths, hpaths, hall⟩
      obtain ⟨d, passed, r, hd, hrequires, hr⟩ := h paths hpaths
      exact Demand.not_met_iff.2 ⟨passed, r, hrequires, hr⟩ (hall d hd)

/-! ## Names that clash -/

namespace Clash

/-- The item of a path with two operations. The name of the first one is what the second one would be called with a
number. -/
def firstItem : Json :=
  .object [("summary", .string "get"), ("post", .object [("operationId", .string "x_2")]),
    ("get", .object [("operationId", .string "x")])]

def response : Json := .object [("schema", .object [("type", .string "string")])]

def secondOperation : Json :=
  .object [("operationId", .string "x"),
    ("responses", .object [("404", .null), ("default", .null), ("201", response)])]

def secondItem : Json := .object [("delete", secondOperation)]

/-- A document with two paths. The item of the second one stands behind a reference. -/
def document (reference : String) : Json :=
  .object [
    ("paths", .object [("/a", firstItem), ("/b", .object [("$ref", .string reference)])]),
    ("b", secondItem)]

def firstContracts : List Contract :=
  [⟨"x_2", .plain "/a" .post, .ofStatus 200⟩, ⟨"x", .plain "/a" .get, .ofStatus 200⟩]

def secondContract : Contract := ⟨"x_3", .plain "/b" .delete, ⟨201, none, some (.string "<anyString>")⟩⟩

variable (s : Source)

theorem operationContracts_cons {doc item : Json} {path : String} (name : String) {o : Operation} {ops : List Operation}
    {done cs : List Contract} {request : Request} {expected : Expectation}
    (hname : freshName id (done.map Contract.name) (o.name path) = name)
    (hrequest : requestFor doc path item o s = .ok (request, s))
    (hexpected : expectationFor doc o s = .ok (expected, s))
    (hrest : operationContracts doc path item (done ++ [⟨name, request, expected⟩]) ops s = .ok (cs, s)) :
    operationContracts doc path item done (o :: ops) s = .ok (cs, s) := by
  subst hname
  exact Loading.bind_eq_ok_iff.2 ⟨_, s, hrequest, Loading.bind_eq_ok_iff.2 ⟨_, s, hexpected, hrest⟩⟩

theorem operationContracts_first :
    operationContracts (document "#/b") "/a" firstItem [] (operations firstItem) s = .ok (firstContracts, s) := by
  refine operationContracts_cons s "x_2" (by decide +kernel) rfl rfl ?_
  exact operationContracts_cons s "x" (by decide +kernel) rfl rfl rfl

theorem expectationFor_second :
    expectationFor (document "#/b") ⟨"delete", .delete, secondOperation⟩ s = .ok (secondContract.expected, s) := by
  have hpick : pickResponse? (responsesOf secondOperation) = some (201, response) := by decide +kernel
  have hderef : deref (document "#/b") response = .ok response := deref_eq_iff.2 (.value .here rfl)
  have hform : formOf (.object [("type", .string "string")]) = .scalar "string" := rfl
  rw [expectationFor, ← responsesOf]
  dsimp only
  rw [hpick]
  refine Loading.bind_eq_ok_iff.2 ⟨response, s, ofExcept_eq_ok_iff.2 ⟨hderef, rfl⟩, ?_⟩
  refine Loading.bind_eq_ok_iff.2 ⟨some (.string "<anyString>"), s, ?_, rfl⟩
  rw [exampleFor_of_scalar (document "#/b") hform]
  rfl

theorem deref_second : deref (document "#/b") (.object [("$ref", .string "#/b")]) = .ok secondItem :=
  deref_eq_iff.2 (.value (.step rfl ⟨"/b".toList, by decide, rfl⟩ .here) rfl)

theorem operationContracts_second :
    operationContracts (document "#/b") "/b" secondItem firstContracts (operations secondItem) s =
      .ok (firstContracts ++ [secondContract], s) :=
  operationContracts_cons s "x_3" (by decide +kernel) rfl (expectationFor_second s) rfl

theorem contracts_document : contracts (document "#/b") s = .ok (firstContracts ++ [secondContract], s) := by
  have hfirst : deref (document "#/b") firstItem = .ok firstItem := deref_eq_iff.2 (.value .here rfl)
  refine Loading.bind_eq_ok_iff.2 ⟨firstItem, s, ofExcept_eq_ok_iff.2 ⟨hfirst, rfl⟩, ?_⟩
  refine Loading.bind_eq_ok_iff.2 ⟨firstContracts, s, operationContracts_first s, ?_⟩
  refine Loading.bind_eq_ok_iff.2 ⟨secondItem, s, ofExcept_eq_ok_iff.2 ⟨deref_second, rfl⟩, ?_⟩
  exact Loading.bind_eq_ok_iff.2 ⟨_, s, operationContracts_second s, rfl⟩

end Clash

/-- Three operations have three names, in the order of the document. With a reference that leads nowhere there is no
contract, not even for the other path. -/
theorem contracts_of_document_clash :
    contracts (Clash.document "#/b") .least = .ok (Clash.firstContracts ++ [Clash.secondContract], .least) ∧
      (∃ sites names, List.Forall₂ (ContractOf (Clash.document "#/b")) sites
          (Clash.firstContracts ++ [Clash.secondContract]) ∧
        List.Forall₂ Site.Wants sites names ∧ NamesInTurn id [] names ["x_2", "x", "x_3"]) ∧
      ∃ e, contracts (Clash.document "#/c") .least = .error e := by
  refine ⟨Clash.contracts_document .least, ?_, ?_⟩
  · obtain ⟨hsuccess, -⟩ := contracts_of_document (Clash.document "#/b") .least
    obtain ⟨-, sites, names, -, -, hcs, hnames, hturn, -⟩ := hsuccess _ _ (Clash.contracts_document .least)
    exact ⟨sites, names, hcs, hnames, hturn⟩
  · obtain ⟨-, hfails⟩ := contracts_of_document (Clash.document "#/c") .least
    rw [hfails]
    intro paths hpaths
    cases hpaths
    refine ⟨.value (.object [("$ref", .string "#/c")]), [], "#/c", ?_, .chain .here List.nodup_nil rfl, .inr ?_⟩
    · exact .item (List.mem_cons_of_mem _ List.mem_cons_self)
    · rintro v ⟨pointer, hpointer, hv⟩
      have hnone : (Clash.document "#/c").pointer? "/c".toList = none := by decide +kernel
      rw [← (List.cons.inj hpointer).2] at hv
      exact absurd (hnone.symm.trans hv) nofun

end Covenant.OpenApi
