import Covenant.Proofs.PathTemplates
import Covenant.Proofs.Samples
import Covenant.Proofs.SchemaForms

/-!
# Declared parameters

A path item and an operation may declare parameters, and both of them may declare the same name in the same
location. A request is made from all of these declarations, first those of the path item, then those of the
operation.

* `OpenApi.Declaration`, `OpenApi.declarations`: what a request reads of declared parameters;
* `OpenApi.Use`: a declaration that counts, with a value drawn for it;
* `OpenApi.requestOf`: the request that uses make, one after the other;
* `OpenApi.addParameters_requestOf`: what a list of parameters adds to it, parameter by parameter;
* `OpenApi.toList_foldl_fill`: a template is filled with the values of the first declarations of its names;
* `OpenApi.request_of_declarations`: what a request has for each name and location.
-/

namespace Covenant.OpenApi

open Loading Text

/-! ## Declarations -/

/-- What a request reads of a declared parameter. -/
structure Declaration where
  name : String
  location : String
  isRequired : Bool
  schema : Json

/-- The declaration that a value is. One without a name is passed over. -/
def declaration? (param : Json) : Option Declaration :=
  ((param.get? "name").bind Json.toText?).map fun name =>
    ⟨name, ((param.get? "in").bind Json.toText?).getD "",
      ((param.get? "required").bind Json.toBool?).getD false, (param.get? "schema").getD param⟩

/-- The declarations of a list of parameters. -/
def declarations (doc : Json) (params : List Json) : List Declaration :=
  params.filterMap fun param => (deref doc param).toOption.bind declaration?

namespace Declaration

/-- What tells the declarations of a list apart. -/
def key (d : Declaration) : String × String := (d.name, d.location)

/-- A request has a value for bodies and names in paths, and for what is required in queries and headers. -/
def IsUsed (d : Declaration) : Prop :=
  d.location = "body" ∨ d.location = "path" ∨
    d.location = "query" ∧ d.isRequired ∨ d.location = "header" ∧ d.isRequired

instance : DecidablePred IsUsed := fun d =>
  inferInstanceAs (Decidable (d.location = "body" ∨ d.location = "path" ∨
    d.location = "query" ∧ d.isRequired ∨ d.location = "header" ∧ d.isRequired))

/-- What is drawn for a declaration: the example of its schema and, where a path needs one that there is not, a
string. -/
inductive Yields (doc : Json) (d : Declaration) : Option Json → Prop
  | sample {v : Option Json} {s s' : Source} : exampleFor doc .generated d.schema s = .ok (v, s') →
      (d.location = "path" → v.isSome) → Yields doc d v
  | standard {s s' : Source} : d.location = "path" → exampleFor doc .generated d.schema s = .ok (none, s') →
      Yields doc d (some (Generator.generate (.string defaultLength (by decide)) s').1)

end Declaration

/-- A declaration that counts, with what was drawn for it. -/
structure Use (doc : Json) where
  declaration : Declaration
  value : Option Json
  isUsed : declaration.IsUsed
  yields : declaration.Yields doc value

section

variable {doc : Json}

namespace Use

def key (u : Use doc) : String × String := u.declaration.key

/-- The entry for a use, if it is one of a location. -/
def entry? (location : String) (u : Use doc) : Option NamedValue :=
  if u.declaration.location = location then u.value.map fun v => ⟨u.declaration.name, v⟩ else none

/-- A path with the name filled in, if it is one of paths. -/
def fill (path : String) (u : Use doc) : String :=
  if u.declaration.location = "path" then
    u.value.elim path fun v =>
      String.ofList (replaceAll (segment u.declaration.name) v.render.toList path.toList)
  else path

/-- The body behind a use, which is what was drawn if it is one of bodies. -/
def bodyAfter (body : Option Json) (u : Use doc) : Option Json :=
  if u.declaration.location = "body" then u.value else body

end Use

/-- A list of entries that is absent while it is empty. -/
def present (entries : List NamedValue) : Option (List NamedValue) :=
  if entries = [] then none else some entries

/-- The request that uses make, one after the other. -/
def requestOf (path : String) (method : Method) (uses : List (Use doc)) : Request where
  path := uses.foldl Use.fill path
  method := method
  headers := present (uses.filterMap (Use.entry? "header"))
  params := present (uses.filterMap (Use.entry? "query"))
  body := uses.foldl Use.bodyAfter none

theorem getD_present (entries : List NamedValue) : (present entries).getD [] = entries := by
  rw [present]
  split
  · rename_i h
    exact h.symm
  · rfl

theorem addEntry_present (entries : List NamedValue) (name : String) (v : Option Json) :
    addEntry (present entries) name v = present (entries ++ (v.map fun w => ⟨name, w⟩).toList) := by
  cases v with
  | none => rw [addEntry, Option.map_none, Option.toList_none, List.append_nil]
  | some w =>
    rw [addEntry, getD_present, Option.map_some, Option.toList_some, present,
      if_neg (List.append_ne_nil_of_right_ne_nil _ (List.cons_ne_nil _ _))]

/-! ## One parameter, then all of them -/

section

variable {path : String} {method : Method} {uses : List (Use doc)} {u : Use doc}

theorem requestOf_concat_body (h : u.declaration.location = "body") :
    requestOf path method (uses ++ [u]) = { requestOf path method uses with body := u.value } := by
  simp [requestOf, Use.fill, Use.entry?, Use.bodyAfter, h]

theorem requestOf_concat_path {v : Json} (h : u.declaration.location = "path") (hv : u.value = some v) :
    requestOf path method (uses ++ [u]) =
      { requestOf path method uses with
        path := String.ofList (replaceAll (segment u.declaration.name) v.render.toList
          (requestOf path method uses).path.toList) } := by
  simp [requestOf, Use.fill, Use.entry?, Use.bodyAfter, h, hv]

theorem requestOf_concat_query (h : u.declaration.location = "query") :
    requestOf path method (uses ++ [u]) =
      { requestOf path method uses with
        params := addEntry (requestOf path method uses).params u.declaration.name u.value } := by
  cases hv : u.value <;> simp [requestOf, Use.fill, Use.entry?, Use.bodyAfter, h, hv, addEntry_present]

theorem requestOf_concat_header (h : u.declaration.location = "header") :
    requestOf path method (uses ++ [u]) =
      { requestOf path method uses with
        headers := addEntry (requestOf path method uses).headers u.declaration.name u.value } := by
  cases hv : u.value <;> simp [requestOf, Use.fill, Use.entry?, Use.bodyAfter, h, hv, addEntry_present]

theorem exists_of_use {d : Declaration} {r : Request} (u : Use doc) (hu : u.declaration = d)
    (hr : r = requestOf path method (uses ++ [u])) :
    ∃ more : List (Use doc), more.map Use.declaration = [d].filter Declaration.IsUsed ∧
      r = requestOf path method (uses ++ more) := by
  refine ⟨[u], ?_, hr⟩
  rw [← hu, List.filter_cons, if_pos (decide_eq_true u.isUsed)]
  rfl

/-- A parameter adds a use of its declaration, if that counts. -/
theorem addParameter_requestOf {param : Json} {s s' : Source} {r : Request}
    (h : addParameter doc (requestOf path method uses) param s = .ok (r, s')) :
    ∃ v, deref doc param = .ok v ∧ ∃ more : List (Use doc),
      more.map Use.declaration = (declaration? v).toList.filter Declaration.IsUsed ∧
      r = requestOf path method (uses ++ more) := by
  obtain ⟨v, s₁, hderef, h⟩ := Loading.bind_eq_ok_iff.1 h
  refine ⟨v, (ofExcept_eq_ok_iff.1 hderef).1, ?_⟩
  rw [declaration?]
  cases hname : (v.get? "name").bind Json.toText? with
  | none =>
    rw [hname] at h
    cases h
    exact ⟨[], rfl, by rw [List.append_nil]⟩
  | some name =>
    rw [hname] at h
    dsimp only at h
    rw [Option.map_some, Option.toList_some]
    -- which of these fields a declaration has, and where, does not matter from here on
    generalize ((v.get? "in").bind Json.toText?).getD "" = location at h ⊢
    generalize ((v.get? "required").bind Json.toBool?).getD false = isRequired at h ⊢
    generalize (v.get? "schema").getD v = schema at h ⊢
    split at h
    · rename_i hbody
      obtain ⟨value, s₂, hvalue, h⟩ := Loading.bind_eq_ok_iff.1 h
      have hpath : location ≠ "path" := by rw [hbody]; decide
      refine exists_of_use ⟨_, value, .inl hbody, .sample hvalue (absurd · hpath)⟩ rfl ?_
      rw [requestOf_concat_body hbody]
      cases h
      rfl
    · rename_i hbody
      split at h
      · rename_i hpath
        obtain ⟨value, s₂, hvalue, h⟩ := Loading.bind_eq_ok_iff.1 h
        cases value with
        | some w =>
          refine exists_of_use ⟨_, some w, .inr (.inl hpath), .sample hvalue fun _ => rfl⟩ rfl ?_
          rw [requestOf_concat_path hpath rfl]
          cases h
          rfl
        | none =>
          refine exists_of_use ⟨_, _, .inr (.inl hpath), .standard hpath hvalue⟩ rfl ?_
          rw [requestOf_concat_path hpath rfl]
          cases h
          rfl
      · rename_i hpath
        split at h
        · rename_i hquery
          obtain ⟨value, s₂, hvalue, h⟩ := Loading.bind_eq_ok_iff.1 h
          refine exists_of_use ⟨_, value, .inr (.inr (.inl hquery)), .sample hvalue (absurd · hpath)⟩ rfl ?_
          rw [requestOf_concat_query hquery.1]
          cases h
          rfl
        · rename_i hquery
          split at h
          · rename_i hheader
            obtain ⟨value, s₂, hvalue, h⟩ := Loading.bind_eq_ok_iff.1 h
            refine exists_of_use ⟨_, value, .inr (.inr (.inr hheader)), .sample hvalue (absurd · hpath)⟩ rfl ?_
            rw [requestOf_concat_header hheader.1]
            cases h
            rfl
          · rename_i hheader
            have hunused : ¬ Declaration.IsUsed ⟨name, location, isRequired, schema⟩ :=
              not_or.2 ⟨hbody, not_or.2 ⟨hpath, not_or.2 ⟨hquery, hheader⟩⟩⟩
            cases h
            refine ⟨[], ?_, by rw [List.append_nil]⟩
            rw [List.filter_cons, if_neg (by simpa using hunused)]
            rfl

theorem filterMap_cons_toList {α β : Type} (f : α → Option β) (a : α) (as : List α) :
    (a :: as).filterMap f = (f a).toList ++ as.filterMap f := by
  rw [List.filterMap_cons]
  cases f a <;> rfl

theorem declarations_cons {param v : Json} (params : List Json) (h : deref doc param = .ok v) :
    declarations doc (param :: params) = (declaration? v).toList ++ declarations doc params := by
  rw [declarations, filterMap_cons_toList, h]
  rfl

/-- A list of parameters adds uses of the declarations that count, in their order. -/
theorem addParameters_requestOf {params : List Json} {s s' : Source} {r : Request}
    (h : addParameters doc (requestOf path method uses) params s = .ok (r, s')) :
    ∃ more : List (Use doc), more.map Use.declaration = (declarations doc params).filter Declaration.IsUsed ∧
      r = requestOf path method (uses ++ more) := by
  induction params generalizing uses s with
  | nil =>
    cases h
    exact ⟨[], rfl, by rw [List.append_nil]⟩
  | cons param params ih =>
    rw [addParameters, List.foldlM_cons] at h
    obtain ⟨r₁, s₁, hparam, h⟩ := Loading.bind_eq_ok_iff.1 h
    obtain ⟨v, hderef, first, hfirst, rfl⟩ := addParameter_requestOf hparam
    obtain ⟨more, hmore, rfl⟩ := ih h
    refine ⟨first ++ more, ?_, by rw [List.append_assoc]⟩
    rw [List.map_append, hfirst, hmore, declarations_cons params hderef, List.filter_append]

end

/-! ## Names and locations -/

/-- The entries of a name. -/
def named (name : String) (entries : Option (List NamedValue)) : List NamedValue :=
  (entries.getD []).filter fun e => e.name = name

/-- The value of the first use of a name in a location. -/
def valueFor? (uses : List (Use doc)) (name location : String) : Option Json :=
  (uses.find? fun u => u.key = (name, location)).bind Use.value

/-- The entry for that value. -/
def entryFor (uses : List (Use doc)) (name location : String) : List NamedValue :=
  ((valueFor? uses name location).map fun v => ⟨name, v⟩).toList

section

variable {u : Use doc} {uses : List (Use doc)} {name location : String}

theorem valueFor?_cons_of_key (h : u.key = (name, location)) :
    valueFor? (u :: uses) name location = u.value := by
  rw [valueFor?, List.find?_cons_of_pos (by simpa using h), Option.bind_some]

theorem valueFor?_cons_of_key_ne (h : u.key ≠ (name, location)) :
    valueFor? (u :: uses) name location = valueFor? uses name location := by
  rw [valueFor?, List.find?_cons_of_neg (by simpa using h), valueFor?]

theorem valueFor?_eq_none (h : ∀ u ∈ uses, u.key ≠ (name, location)) :
    valueFor? uses name location = none := by
  have hfind : uses.find? (fun u => u.key = (name, location)) = none := by
    rw [List.find?_eq_none]
    intro u hu hkey
    exact h u hu (of_decide_eq_true hkey)
  rw [valueFor?, hfind, Option.bind_none]

theorem Use.filter_entry?_of_key (h : u.key = (name, location)) :
    (u.entry? location).toList.filter (fun e => e.name = name) =
      (u.value.map fun v => (⟨name, v⟩ : NamedValue)).toList := by
  cases h
  rw [Use.entry?, if_pos rfl]
  cases u.value <;> simp

theorem Use.filter_entry?_of_key_ne (h : u.key ≠ (name, location)) :
    (u.entry? location).toList.filter (fun e => e.name = name) = [] := by
  rw [Use.entry?]
  split
  · rename_i hlocation
    have hname : u.declaration.name ≠ name := fun hname => h (Prod.ext hname hlocation)
    cases u.value <;> simp [hname]
  · rfl

/-- Uses that do not repeat a name in a location have at most one entry for it. -/
theorem filter_entries (hnodup : (uses.map Use.key).Nodup) :
    (uses.filterMap (Use.entry? location)).filter (fun e => e.name = name) = entryFor uses name location := by
  induction uses with
  | nil => rfl
  | cons u uses ih =>
    obtain ⟨hu, hnodup⟩ := List.nodup_cons.1 hnodup
    rw [filterMap_cons_toList, List.filter_append, ih hnodup, entryFor, entryFor]
    by_cases hkey : u.key = (name, location)
    · have hrest : ∀ w ∈ uses, w.key ≠ (name, location) := by
        intro w hw hwkey
        refine hu ?_
        rw [hkey, ← hwkey]
        exact List.mem_map_of_mem hw
      rw [Use.filter_entry?_of_key hkey, valueFor?_cons_of_key hkey, valueFor?_eq_none hrest]
      exact List.append_nil _
    · rw [Use.filter_entry?_of_key_ne hkey, valueFor?_cons_of_key_ne hkey, List.nil_append]

end

/-! ## Paths -/

/-- What is filled in for a piece. -/
def Piece.filled (value : String → Option Json) : Piece → List Char
  | .text cs => cs
  | .hole name => (value name).elim (segment name) fun v => v.render.toList

/-- No brace of a use can be taken for one of a template. -/
def Use.IsPlain (u : Use doc) : Prop :=
  u.declaration.location = "path" →
    '\x7d' ∉ u.declaration.name.toList ∧ ∀ v ∈ u.value, '\x7b' ∉ v.render.toList

theorem Use.exists_value {u : Use doc} (h : u.declaration.location = "path") : ∃ v, u.value = some v := by
  obtain ⟨d, value, hused, hyields⟩ := u
  cases hyields with
  | sample _ hvalue => exact Option.isSome_iff_exists.1 (hvalue h)
  | standard => exact ⟨_, rfl⟩

/-- A piece in which one name is filled in already. -/
theorem Piece.filled_fill {u : Use doc} {v : Json} (hlocation : u.declaration.location = "path")
    (hv : u.value = some v) (uses : List (Use doc)) (p : Piece) :
    (p.fill u.declaration.name v.render.toList).filled (valueFor? uses · "path") =
      p.filled (valueFor? (u :: uses) · "path") := by
  cases p with
  | text cs => rfl
  | hole n =>
    rw [Piece.fill]
    split
    · rename_i hname
      have hkey : u.key = (n, "path") := Prod.ext hname.symm hlocation
      rw [Piece.filled, Piece.filled, valueFor?_cons_of_key hkey, hv, Option.elim_some]
    · rename_i hname
      have hkey : u.key ≠ (n, "path") := fun hkey => hname (congrArg Prod.fst hkey).symm
      rw [Piece.filled, Piece.filled, valueFor?_cons_of_key_ne hkey]

/-- Use by use, a template is filled with the values of the first uses of its names. -/
theorem toList_foldl_fill {uses : List (Use doc)} (huses : ∀ u ∈ uses, u.IsPlain) {pieces : List Piece}
    (hpieces : ∀ p ∈ pieces, p.IsPlain) {path : String} (hpath : path.toList = pieces.flatMap Piece.chars) :
    (uses.foldl Use.fill path).toList = pieces.flatMap (Piece.filled (valueFor? uses · "path")) := by
  induction uses generalizing path pieces with
  | nil =>
    rw [List.foldl_nil, hpath]
    rfl
  | cons u uses ih =>
    obtain ⟨hu, huses⟩ := List.forall_mem_cons.1 huses
    rw [List.foldl_cons]
    by_cases hlocation : u.declaration.location = "path"
    · obtain ⟨v, hv⟩ := Use.exists_value hlocation
      obtain ⟨hname, hvalue⟩ := hu hlocation
      have hfill : u.fill path =
          String.ofList (replaceAll (segment u.declaration.name) v.render.toList path.toList) := by
        rw [Use.fill, if_pos hlocation, hv, Option.elim_some]
      have hreplaced : (u.fill path).toList =
          (pieces.map (Piece.fill u.declaration.name v.render.toList)).flatMap Piece.chars := by
        rw [hfill, String.toList_ofList, hpath, replaceAll_pieces hpieces hname]
      have hplain : ∀ p ∈ pieces.map (Piece.fill u.declaration.name v.render.toList), p.IsPlain := by
        intro p hp
        obtain ⟨q, hq, rfl⟩ := List.mem_map.1 hp
        exact Piece.isPlain_fill (hpieces q hq) _ (hvalue v hv)
      rw [ih huses hplain hreplaced, List.flatMap_map]
      congr 1
      funext p
      exact Piece.filled_fill hlocation hv uses p
    · have hfill : u.fill path = path := if_neg hlocation
      rw [hfill, ih huses hpieces hpath]
      congr 1
      funext p
      cases p with
      | text cs => rfl
      | hole n =>
        have hkey : u.key ≠ (n, "path") := fun hkey => hlocation (congrArg Prod.snd hkey)
        rw [Piece.filled, Piece.filled, valueFor?_cons_of_key_ne hkey]

/-- Where the name stands in the path of both lists, the first one counts. -/
theorem valueFor?_append (shared own : List (Use doc)) (name : String) :
    valueFor? (shared ++ own) name "path" = (valueFor? shared name "path").or (valueFor? own name "path") := by
  induction shared with
  | nil => rfl
  | cons u shared ih =>
    rw [List.cons_append]
    by_cases hkey : u.key = (name, "path")
    · obtain ⟨v, hv⟩ := Use.exists_value (congrArg Prod.snd hkey)
      rw [valueFor?_cons_of_key hkey, valueFor?_cons_of_key hkey, hv, Option.some_or]
    · rw [valueFor?_cons_of_key_ne hkey, valueFor?_cons_of_key_ne hkey, ih]

/-! ## Requests -/

/-- The schema of the body that an operation declares apart from its parameters. -/
def bodySchema? (doc : Json) (o : Operation) : Option Json :=
  (o.declaration.get? "requestBody").bind fun body => (deref doc body).toOption.bind jsonSchema?

/-- A request is made of uses of the declarations that count. -/
theorem exists_requestOf {path : String} {item : Json} {o : Operation} {s s' : Source} {r : Request}
    (h : requestFor doc path item o s = .ok (r, s')) :
    ∃ shared own : List (Use doc),
      shared.map Use.declaration = (declarations doc (parameters item)).filter Declaration.IsUsed ∧
      own.map Use.declaration = (declarations doc (parameters o.declaration)).filter Declaration.IsUsed ∧
      r = { requestOf path o.method (shared ++ own) with body := r.body } ∧
      (bodySchema? doc o = none → r.body = (requestOf path o.method (shared ++ own)).body) ∧
      ∀ schema ∈ bodySchema? doc o, ∃ s s', exampleFor doc .generated schema s = .ok (r.body, s') := by
  obtain ⟨r₁, s₁, hparams, h⟩ := Loading.bind_eq_ok_iff.1 h
  rw [addParameters, List.foldlM_append] at hparams
  obtain ⟨r₂, s₂, hshared, hown⟩ := Loading.bind_eq_ok_iff.1 hparams
  have hplain : Request.plain path o.method = requestOf path o.method ([] : List (Use doc)) := rfl
  rw [hplain] at hshared
  obtain ⟨shared, hsharedUses, rfl⟩ := addParameters_requestOf hshared
  obtain ⟨own, hownUses, rfl⟩ := addParameters_requestOf hown
  refine ⟨shared, own, hsharedUses, hownUses, ?_⟩
  rw [List.nil_append] at h
  cases hbody : o.declaration.get? "requestBody" with
  | none =>
    rw [hbody] at h
    cases h
    have hschema : bodySchema? doc o = none := by rw [bodySchema?, hbody, Option.bind_none]
    refine ⟨rfl, fun _ => rfl, fun schema hmem => ?_⟩
    rw [hschema] at hmem
    cases hmem
  | some body =>
    rw [hbody] at h
    obtain ⟨v, s₃, hderef, h⟩ := Loading.bind_eq_ok_iff.1 h
    have hschema : bodySchema? doc o = jsonSchema? v := by
      rw [bodySchema?, hbody, Option.bind_some, (ofExcept_eq_ok_iff.1 hderef).1]
      rfl
    rw [hschema]
    cases hjson : jsonSchema? v with
    | none =>
      rw [hjson] at h
      cases h
      exact ⟨rfl, fun _ => rfl, fun schema hmem => absurd hmem (Option.not_mem_none schema)⟩
    | some schema =>
      rw [hjson] at h
      obtain ⟨value, s₄, hvalue, h⟩ := Loading.bind_eq_ok_iff.1 h
      cases h
      refine ⟨rfl, fun hnone => absurd hnone (Option.some_ne_none schema), fun schema' hmem => ?_⟩
      cases hmem
      exact ⟨s₃, _, hvalue⟩

theorem nodup_keys {uses : List (Use doc)} {ds : List Declaration}
    (huses : uses.map Use.declaration = ds.filter Declaration.IsUsed) (hds : (ds.map Declaration.key).Nodup) :
    (uses.map Use.key).Nodup := by
  have hkeys : uses.map Use.key = (uses.map Use.declaration).map Declaration.key := by
    rw [List.map_map]
    rfl
  rw [hkeys, huses]
  exact hds.sublist (List.filter_sublist.map _)

theorem named_present {shared own : List (Use doc)} (hshared : (shared.map Use.key).Nodup)
    (hown : (own.map Use.key).Nodup) (name location : String) :
    named name (present ((shared ++ own).filterMap (Use.entry? location))) =
      entryFor shared name location ++ entryFor own name location := by
  rw [named, getD_present, List.filterMap_append, List.filter_append, filter_entries hshared,
    filter_entries hown]

/-- What a request has for each name and location, provided that neither the path item nor the operation repeats
one. The declarations that count of both lists are used, each with a value of its own schema. For a query or a
header this gives an entry of the path item, then an entry of the operation, each of them only if it is required
there. In a path whose braces do nothing but enclose names, a name has the value of the path item, and that of the
operation only if the path item does not declare it. A body is the last one that is declared, or the one that the
operation declares apart. -/
theorem request_of_declarations {path : String} {item : Json} {o : Operation} {s s' : Source} {r : Request}
    (h : requestFor doc path item o s = .ok (r, s'))
    (hshared : ((declarations doc (parameters item)).map Declaration.key).Nodup)
    (hown : ((declarations doc (parameters o.declaration)).map Declaration.key).Nodup) :
    ∃ shared own : List (Use doc),
      (shared.map Use.declaration = (declarations doc (parameters item)).filter Declaration.IsUsed ∧
        own.map Use.declaration = (declarations doc (parameters o.declaration)).filter Declaration.IsUsed) ∧
      r = { requestOf path o.method (shared ++ own) with body := r.body } ∧
      (∀ name, named name r.params = entryFor shared name "query" ++ entryFor own name "query") ∧
      (∀ name, named name r.headers = entryFor shared name "header" ++ entryFor own name "header") ∧
      (∀ pieces : List Piece, path.toList = pieces.flatMap Piece.chars → (∀ p ∈ pieces, p.IsPlain) →
        (∀ u ∈ shared ++ own, u.IsPlain) →
        r.path.toList = pieces.flatMap
          (Piece.filled fun name => (valueFor? shared name "path").or (valueFor? own name "path"))) ∧
      (bodySchema? doc o = none → r.body = (requestOf path o.method (shared ++ own)).body) ∧
      ∀ schema ∈ bodySchema? doc o, ∃ s s', exampleFor doc .generated schema s = .ok (r.body, s') := by
  obtain ⟨shared, own, hsharedUses, hownUses, hr, hbody⟩ := exists_requestOf h
  have hsharedKeys := nodup_keys hsharedUses hshared
  have hownKeys := nodup_keys hownUses hown
  refine ⟨shared, own, ⟨hsharedUses, hownUses⟩, hr, fun name => ?_, fun name => ?_, ?_, hbody⟩
  · rw [hr]
    exact named_present hsharedKeys hownKeys name "query"
  · rw [hr]
    exact named_present hsharedKeys hownKeys name "header"
  · intro pieces hpath hpieces huses
    rw [hr]
    show ((shared ++ own).foldl Use.fill path).toList = _
    rw [toList_foldl_fill huses hpieces hpath]
    simp only [valueFor?_append]

end

/-! ## Two levels -/

/-- Strings of which only one is permitted. -/
def onlySchema (t : String) : Json := .object [("type", .string "string"), ("enum", .array [.string t])]

def requiredParameter (name location t : String) : Json :=
  .object [("name", .string name), ("in", .string location), ("required", .bool true),
    ("schema", onlySchema t)]

/-- A path item or an operation that declares a name in the path and one in the query. -/
def level (t : String) (more : List (String × Json)) : Json :=
  .object (("parameters", .array [requiredParameter "id" "path" t, requiredParameter "q" "query" t]) :: more)

/-- An operation that declares the parameters of its path item again. -/
def ownLevel : Operation := ⟨"get", .get, level "operation" []⟩

def sharedLevel : Json := level "item" [("get", ownLevel.declaration)]

def twoLevelDocument : Json := .object [("paths", .object [("/\x7bid\x7d", sharedLevel)])]

theorem exampleFor_onlySchema (doc : Json) (t : String) :
    exampleFor doc .generated (onlySchema t) = pure (some (.string t)) := by
  have hform : formOf (onlySchema t) = .scalar "string" := rfl
  rw [exampleFor_of_scalar doc hform]
  rfl

theorem deref_requiredParameter (doc : Json) (name location t : String) :
    deref doc (requiredParameter name location t) = .ok (requiredParameter name location t) := by
  rw [deref, follow]
  rfl

theorem addParameter_path (doc : Json) (r : Request) (t : String) (s : Source) :
    addParameter doc r (requiredParameter "id" "path" t) s =
      .ok ({ r with path := String.ofList (replaceAll (segment "id") t.toList r.path.toList) }, s) := by
  rw [addParameter, deref_requiredParameter, ofExcept_ok_bind]
  show (exampleFor doc .generated (onlySchema t) >>= _) s = _
  rw [exampleFor_onlySchema]
  rfl

theorem addParameter_query (doc : Json) (r : Request) (t : String) (s : Source) :
    addParameter doc r (requiredParameter "q" "query" t) s =
      .ok ({ r with params := addEntry r.params "q" (some (.string t)) }, s) := by
  rw [addParameter, deref_requiredParameter, ofExcept_ok_bind]
  show (exampleFor doc .generated (onlySchema t) >>= _) s = _
  rw [exampleFor_onlySchema]
  rfl

theorem requestFor_twoLevels (s : Source) : requestFor twoLevelDocument "/\x7bid\x7d" sharedLevel ownLevel s =
    .ok (⟨"/item", .get, none, some [⟨"q", .string "item"⟩, ⟨"q", .string "operation"⟩], none⟩, s) := by
  have hadd : addParameters twoLevelDocument (.plain "/\x7bid\x7d" .get)
      (parameters sharedLevel ++ parameters ownLevel.declaration) s =
      .ok (⟨"/item", .get, none, some [⟨"q", .string "item"⟩, ⟨"q", .string "operation"⟩], none⟩, s) :=
    Loading.bind_eq_ok_iff.2 ⟨_, s, addParameter_path _ _ "item" s,
      Loading.bind_eq_ok_iff.2 ⟨_, s, addParameter_query _ _ "item" s,
        Loading.bind_eq_ok_iff.2 ⟨_, s, addParameter_path _ _ "operation" s,
          Loading.bind_eq_ok_iff.2 ⟨_, s, addParameter_query _ _ "operation" s, rfl⟩⟩⟩⟩
  exact Loading.bind_eq_ok_iff.2 ⟨_, s, hadd, rfl⟩

theorem declarations_level (doc : Json) (t : String) (more : List (String × Json)) :
    declarations doc (parameters (level t more)) =
      [⟨"id", "path", true, onlySchema t⟩, ⟨"q", "query", true, onlySchema t⟩] := by
  show declarations doc [requiredParameter "id" "path" t, requiredParameter "q" "query" t] = _
  rw [declarations_cons _ (deref_requiredParameter ..), declarations_cons _ (deref_requiredParameter ..)]
  rfl

theorem nodup_declarations_level (doc : Json) (t : String) (more : List (String × Json)) :
    ((declarations doc (parameters (level t more))).map Declaration.key).Nodup := by
  rw [declarations_level]
  show [("id", "path"), ("q", "query")].Nodup
  decide

/-- The declaration of the path item fills the path, and the query has the values of both levels. -/
theorem request_of_declarations_twoLevels :
    requestFor twoLevelDocument "/\x7bid\x7d" sharedLevel ownLevel .least =
      .ok (⟨"/item", .get, none, some [⟨"q", .string "item"⟩, ⟨"q", .string "operation"⟩], none⟩, .least) ∧
    ((declarations twoLevelDocument (parameters sharedLevel)).map Declaration.key).Nodup ∧
    ((declarations twoLevelDocument (parameters ownLevel.declaration)).map Declaration.key).Nodup ∧
    ∃ shared own : List (Use twoLevelDocument),
      shared.map Use.declaration =
        [⟨"id", "path", true, onlySchema "item"⟩, ⟨"q", "query", true, onlySchema "item"⟩] ∧
      own.map Use.declaration =
        [⟨"id", "path", true, onlySchema "operation"⟩, ⟨"q", "query", true, onlySchema "operation"⟩] ∧
      [⟨"q", .string "item"⟩, ⟨"q", .string "operation"⟩] =
        entryFor shared "q" "query" ++ entryFor own "q" "query" := by
  have hshared := nodup_declarations_level twoLevelDocument "item" [("get", ownLevel.declaration)]
  have hown := nodup_declarations_level twoLevelDocument "operation" []
  refine ⟨requestFor_twoLevels .least, hshared, hown, ?_⟩
  obtain ⟨shared, own, ⟨hsharedUses, hownUses⟩, -, hquery, -⟩ :=
    request_of_declarations (requestFor_twoLevels .least) hshared hown
  rw [sharedLevel, declarations_level] at hsharedUses
  rw [ownLevel, declarations_level] at hownUses
  exact ⟨shared, own, hsharedUses, hownUses, hquery "q"⟩

/-- The declarations of an operation do not replace those of its path item. -/
theorem requestFor_ignores_own :
    ((declarations twoLevelDocument (parameters sharedLevel)).map Declaration.key).Nodup ∧
    ((declarations twoLevelDocument (parameters ownLevel.declaration)).map Declaration.key).Nodup ∧
    (∀ d ∈ declarations twoLevelDocument (parameters ownLevel.declaration), ∀ s,
      exampleFor twoLevelDocument .generated d.schema s = .ok (some (.string "operation"), s)) ∧
    ("id", "path") ∈ (declarations twoLevelDocument (parameters ownLevel.declaration)).map Declaration.key ∧
    ∀ s, ∃ r, requestFor twoLevelDocument "/\x7bid\x7d" sharedLevel ownLevel s = .ok (r, s) ∧
      r.path = "/item" ∧ (named "q" r.params).length = 2 := by
  refine ⟨nodup_declarations_level _ _ _, nodup_declarations_level _ _ _, ?_, ?_, fun s => ?_⟩
  · rw [ownLevel, declarations_level]
    intro d hd s
    have hschema : d.schema = onlySchema "operation" := by
      rcases List.mem_cons.1 hd with rfl | hd
      · rfl
      · cases List.mem_singleton.1 hd
        rfl
    rw [hschema, exampleFor_onlySchema]
    rfl
  · rw [ownLevel, declarations_level]
    decide
  · exact ⟨_, requestFor_twoLevels s, rfl, rfl⟩

end Covenant.OpenApi
