import Covenant.Proofs.ReferenceChains
import Mathlib.Logic.Relation

/-!
# Schemas without references

A schema that shares others through references has the example of the schema in which each reference is replaced
by what it leads to.

* `Json.alterField`: a value with a field changed;
* `OpenApi.mapInside`: a schema with the schemas changed that its example is made from;
* `OpenApi.Inlined`: a schema with its references replaced, there and below;
* `OpenApi.Unfoldable`: no reference that the example needs leads nowhere, or back to itself;
* `OpenApi.example_inlined`: such a schema has exactly one replacement, and this has the same example.
-/

namespace Covenant

/-! ## Changed fields -/

namespace Json

/-- Fields with the value of the first one of a name changed. -/
def alter (g : Json → Json) (name : String) : List (String × Json) → List (String × Json)
  | [] => []
  | f :: fs => if f.1 = name then (f.1, g f.2) :: fs else f :: alter g name fs

/-- An object with its field of a name changed, if it has one. -/
def alterField (v : Json) (name : String) (g : Json → Json) : Json :=
  match v with
  | .object fields => .object (alter g name fields)
  | v => v

theorem lookup_alter (g : Json → Json) (name key : String) (fields : List (String × Json)) :
    lookup (alter g name fields) key = (lookup fields key).map fun v => if key = name then g v else v := by
  induction fields with
  | nil => rfl
  | cons f fs ih =>
    obtain ⟨k, v⟩ := f
    rw [alter]
    by_cases hname : k = name
    · subst hname
      rw [if_pos rfl]
      by_cases hkey : k = key
      · subst hkey
        rw [lookup_cons_self, lookup_cons_self, Option.map_some, if_pos rfl]
      · rw [lookup_cons_of_ne hkey, lookup_cons_of_ne hkey]
        simp [Ne.symm hkey]
    · rw [if_neg hname]
      by_cases hkey : k = key
      · subst hkey
        rw [lookup_cons_self, lookup_cons_self, Option.map_some, if_neg hname]
      · rw [lookup_cons_of_ne hkey, lookup_cons_of_ne hkey]
        exact ih

theorem get?_alterField (v : Json) (name key : String) (g : Json → Json) :
    (v.alterField name g).get? key = (v.get? key).map fun w => if key = name then g w else w := by
  cases v with
  | object fields => exact lookup_alter g name key fields
  | _ => rfl

theorem get?_alterField_self (v : Json) (name : String) (g : Json → Json) :
    (v.alterField name g).get? name = (v.get? name).map g := by
  rw [get?_alterField]
  simp

theorem get?_alterField_of_ne {v : Json} {name key : String} (h : key ≠ name) (g : Json → Json) :
    (v.alterField name g).get? key = v.get? key := by
  rw [get?_alterField]
  simp [h]

theorem isSome_get?_alterField (v : Json) (name key : String) (g : Json → Json) :
    ((v.alterField name g).get? key).isSome = (v.get? key).isSome := by
  rw [get?_alterField, Option.isSome_map]

theorem alter_congr {name : String} {g h : Json → Json} {fields : List (String × Json)}
    (hgh : ∀ w, lookup fields name = some w → g w = h w) : alter g name fields = alter h name fields := by
  induction fields with
  | nil => rfl
  | cons f fs ih =>
    obtain ⟨k, v⟩ := f
    rw [alter, alter]
    by_cases hname : k = name
    · subst hname
      rw [if_pos rfl, if_pos rfl, hgh v (lookup_cons_self k v fs)]
    · rw [if_neg hname, if_neg hname, ih fun w hw => hgh w ((lookup_cons_of_ne hname v fs).trans hw)]

theorem alterField_congr {v : Json} {name : String} {g h : Json → Json}
    (hgh : ∀ w, v.get? name = some w → g w = h w) : v.alterField name g = v.alterField name h := by
  cases v with
  | object fields => exact congrArg Json.object (alter_congr hgh)
  | _ => rfl

/-- An array with its items changed. -/
def mapItems (f : Json → Json) : Json → Json
  | .array items => .array (items.map f)
  | v => v

/-- An array with its first item changed. -/
def mapHead (f : Json → Json) : Json → Json
  | .array (v :: vs) => .array (f v :: vs)
  | v => v

/-- An object with the values of its fields changed. -/
def mapValues (f : Json → Json) : Json → Json
  | .object fields => .object (fields.map fun p => (p.1, f p.2))
  | v => v

end Json

namespace OpenApi

/-! ## Changed schemas -/

/-- The first alternative under a key. -/
def alternativeAt? (schema : Json) (key : String) : Option Json :=
  ((schema.get? key).bind Json.toItems?).bind List.head?

/-- The key of the alternatives that count. -/
def alternativeKey (schema : Json) : String :=
  if (alternativeAt? schema "oneOf").isSome then "oneOf" else "anyOf"

/-- A schema with the schemas changed that its example is made from. -/
def mapInside (f : Json → Json) (schema : Json) : Json :=
  match formOf schema with
  | .merged _ => schema.alterField "allOf" (Json.mapItems f)
  | .alternative _ => schema.alterField (alternativeKey schema) (Json.mapHead f)
  | .object _ => schema.alterField "properties" (Json.mapValues f)
  | .array _ => schema.alterField "items" f
  | _ => schema

/-- A form with the schemas changed that it consists of. -/
def Form.map (f : Json → Json) : Form → Form
  | .merged parts => .merged (parts.map f)
  | .alternative first => .alternative (f first)
  | .object properties => .object (properties.map fun p => (p.1, f p.2))
  | .array items => .array (items.map f)
  | form => form

section

variable {schema : Json} {f g : Json → Json} {name : String}

theorem reference?_alterField (hname : name ≠ "$ref") :
    (schema.alterField name f).reference? = schema.reference? := by
  rw [Json.reference?, Json.get?_alterField_of_ne hname.symm, Json.reference?]

theorem partsOf?_alterField (hname : name ≠ "allOf") : partsOf? (schema.alterField name f) = partsOf? schema := by
  rw [partsOf?, Json.get?_alterField_of_ne hname.symm, partsOf?]

theorem firstAlternative?_eq :
    firstAlternative? schema = (alternativeAt? schema "oneOf").or (alternativeAt? schema "anyOf") := by
  rw [firstAlternative?]
  show List.findSome? (alternativeAt? schema) _ = _
  cases h : alternativeAt? schema "oneOf" <;> simp [List.findSome?, h]
  cases alternativeAt? schema "anyOf" <;> rfl

theorem alternativeAt?_alterField {key : String} (hname : name ≠ key) :
    alternativeAt? (schema.alterField name f) key = alternativeAt? schema key := by
  rw [alternativeAt?, Json.get?_alterField_of_ne hname.symm, alternativeAt?]

theorem alternativeAt?_mapHead :
    alternativeAt? (schema.alterField name (Json.mapHead f)) name = (alternativeAt? schema name).map f := by
  rw [alternativeAt?, Json.get?_alterField_self, alternativeAt?]
  cases schema.get? name with
  | none => rfl
  | some v =>
    cases v with
    | array items => cases items <;> rfl
    | _ => rfl

theorem firstAlternative?_alterField (hone : name ≠ "oneOf") (hany : name ≠ "anyOf") :
    firstAlternative? (schema.alterField name f) = firstAlternative? schema := by
  rw [firstAlternative?_eq, alternativeAt?_alterField hone, alternativeAt?_alterField hany, firstAlternative?_eq]

theorem firstAlternative?_mapHead :
    firstAlternative? (schema.alterField (alternativeKey schema) (Json.mapHead f)) =
      (firstAlternative? schema).map f := by
  rw [firstAlternative?_eq, firstAlternative?_eq, alternativeKey]
  cases h : alternativeAt? schema "oneOf" with
  | some first =>
    simp only [Option.isSome_some, if_true, alternativeAt?_mapHead, h]
    rfl
  | none =>
    have hone : alternativeAt? (schema.alterField "anyOf" (Json.mapHead f)) "oneOf" = none := by
      rw [alternativeAt?_alterField (by decide), h]
    simp only [Option.isSome_none, Bool.false_eq_true, if_false, hone, alternativeAt?_mapHead, Option.none_or]

theorem schemaType?_alterField (hname : name ≠ "type") :
    schemaType? (schema.alterField name f) = schemaType? schema := by
  rw [schemaType?, schemaType?]
  simp only [Json.get?_alterField_of_ne hname.symm, Json.isSome_get?_alterField]

theorem alternativeKey_cases (schema : Json) :
    alternativeKey schema = "oneOf" ∨ alternativeKey schema = "anyOf" := by
  rw [alternativeKey]
  exact ite_eq_or_eq _ _ _

theorem alternativeAt?_alternativeKey {first : Json} (h : firstAlternative? schema = some first) :
    alternativeAt? schema (alternativeKey schema) = some first := by
  rw [firstAlternative?_eq] at h
  rw [alternativeKey]
  cases hone : alternativeAt? schema "oneOf" with
  | some v =>
    rw [hone, Option.some_or] at h
    rw [Option.isSome_some, if_pos rfl, hone, h]
  | none =>
    rw [hone, Option.none_or] at h
    rwa [Option.isSome_none, if_neg Bool.false_ne_true]

theorem partsOf?_mapItems :
    partsOf? (schema.alterField "allOf" (Json.mapItems f)) = (partsOf? schema).map fun parts => parts.map f := by
  rw [partsOf?, Json.get?_alterField_self, partsOf?]
  cases schema.get? "allOf" with
  | none => rfl
  | some v => cases v <;> rfl

theorem propertiesOf_mapValues :
    propertiesOf (schema.alterField "properties" (Json.mapValues f)) =
      (propertiesOf schema).map fun p => (p.1, f p.2) := by
  rw [propertiesOf, Json.get?_alterField_self, propertiesOf]
  cases schema.get? "properties" with
  | none => rfl
  | some v => cases v <;> rfl

theorem formOf_of_parts {parts : List Json} (href : schema.reference? = none) (h : partsOf? schema = some parts) :
    formOf schema = .merged parts := by
  rw [formOf, href]
  simp only [h]

theorem formOf_of_alternative {first : Json} (href : schema.reference? = none) (hparts : partsOf? schema = none)
    (h : firstAlternative? schema = some first) : formOf schema = .alternative first := by
  rw [formOf, href]
  simp only [hparts, h]

theorem formOf_of_type (href : schema.reference? = none) (hparts : partsOf? schema = none)
    (hfirst : firstAlternative? schema = none) :
    formOf schema = (schemaType? schema).elim .unknown (formOfType schema) := by
  rw [formOf, href]
  simp only [hparts, hfirst]

/-- Where the type decides, it does so after a change of a field that does not come before it. -/
theorem formOf_alterField (href : schema.reference? = none) (hparts : partsOf? schema = none)
    (hfirst : firstAlternative? schema = none) (hname : name ∉ ["$ref", "allOf", "oneOf", "anyOf", "type"]) :
    formOf (schema.alterField name f) =
      (schemaType? schema).elim .unknown (formOfType (schema.alterField name f)) := by
  simp only [List.mem_cons, List.not_mem_nil, not_or, or_false] at hname
  obtain ⟨hreference, hall, hone, hany, htype⟩ := hname
  rw [← schemaType?_alterField htype]
  refine formOf_of_type ?_ ?_ ?_
  · rw [reference?_alterField hreference, href]
  · rw [partsOf?_alterField hall, hparts]
  · rw [firstAlternative?_alterField hone hany, hfirst]

/-- What a schema is made from changes as its form does. -/
theorem formOf_mapInside (f : Json → Json) (href : schema.reference? = none) :
    formOf (mapInside f schema) = (formOf schema).map f := by
  cases hparts : partsOf? schema with
  | some parts =>
    rw [mapInside, formOf_of_parts href hparts]
    refine formOf_of_parts ((reference?_alterField (by decide)).trans href) ?_
    rw [partsOf?_mapItems, hparts, Option.map_some]
  | none =>
    cases hfirst : firstAlternative? schema with
    | some first =>
      rw [mapInside, formOf_of_alternative href hparts hfirst]
      refine formOf_of_alternative ?_ ?_ (by rw [firstAlternative?_mapHead, hfirst, Option.map_some])
      · rcases alternativeKey_cases schema with hkey | hkey <;>
          rw [hkey, reference?_alterField (by decide), href]
      · rcases alternativeKey_cases schema with hkey | hkey <;>
          rw [hkey, partsOf?_alterField (by decide), hparts]
    | none =>
      have hform := formOf_of_type href hparts hfirst
      cases htype : schemaType? schema with
      | none =>
        rw [htype, Option.elim_none] at hform
        rw [mapInside, hform]
        exact hform
      | some type =>
        rw [htype, Option.elim_some, formOfType] at hform
        by_cases hobject : type = "object"
        · rw [if_pos hobject] at hform
          rw [mapInside, hform]
          dsimp only
          rw [formOf_alterField href hparts hfirst (by decide), htype, Option.elim_some, formOfType, if_pos hobject,
            propertiesOf_mapValues]
          rfl
        · by_cases harray : type = "array"
          · rw [if_neg hobject, if_pos harray] at hform
            rw [mapInside, hform]
            dsimp only
            rw [formOf_alterField href hparts hfirst (by decide), htype, Option.elim_some, formOfType,
              if_neg hobject, if_pos harray, Json.get?_alterField_self]
            rfl
          · rw [if_neg hobject, if_neg harray] at hform
            rw [mapInside, hform]
            exact hform

theorem Form.schemas_map (f : Json → Json) (form : Form) : (form.map f).schemas = form.schemas.map f := by
  cases form with
  | object properties => simp [Form.map, Form.schemas]
  | array items => cases items <;> rfl
  | _ => rfl

theorem inside_mapInside {w : Json} (href : schema.reference? = none) (h : Inside (mapInside f schema) w) :
    ∃ v, Inside schema v ∧ f v = w := by
  rw [inside_iff, formOf_mapInside f href, Form.schemas_map] at h
  obtain ⟨v, hv, hw⟩ := List.mem_map.1 h
  exact ⟨v, inside_iff.2 hv, hw⟩

/-- Only what becomes of the schemas inside matters. -/
theorem mapInside_congr (hfg : ∀ v, Inside schema v → f v = g v) : mapInside f schema = mapInside g schema := by
  have hspec := formOf_spec schema
  have hinside : ∀ v ∈ (formOf schema).schemas, f v = g v := fun v hv => hfg v (inside_iff.2 hv)
  rw [mapInside, mapInside]
  cases hform : formOf schema with
  | merged parts =>
    rw [hform] at hspec hinside
    refine Json.alterField_congr fun w hw => ?_
    cases hspec.symm.trans hw
    exact congrArg Json.array (List.map_congr_left hinside)
  | alternative first =>
    rw [hform] at hspec hinside
    refine Json.alterField_congr fun w hw => ?_
    have hfirst := alternativeAt?_alternativeKey hspec
    rw [alternativeAt?, hw, Option.bind_some] at hfirst
    cases w with
    | array items =>
      cases items with
      | nil => rfl
      | cons v vs =>
        cases hfirst
        exact congrArg (fun u => Json.array (u :: vs)) (hinside first (List.mem_singleton_self first))
    | _ => rfl
  | object properties =>
    rw [hform] at hspec hinside
    refine Json.alterField_congr fun w hw => ?_
    cases w with
    | object fields =>
      rw [propertiesOf_of_get? hw] at hspec
      cases hspec
      refine congrArg Json.object (List.map_congr_left fun p hp => ?_)
      rw [hinside p.2 (List.mem_map_of_mem hp)]
    | _ => rfl
  | array items =>
    rw [hform] at hspec hinside
    refine Json.alterField_congr fun w hw => ?_
    cases hspec.trans hw
    exact hinside w (List.mem_singleton_self w)
  | _ => rfl

end

/-! ## Replaced references -/

/-- A schema with each reference replaced by the schema behind it, as far as its example is made from them. -/
inductive Inlined (doc : Json) : Json → Json → Prop
  | behind {schema v flat : Json} {r : String} :
      schema.reference? = some r → Resolves doc r v → Inlined doc v flat → Inlined doc schema flat
  | inside {schema : Json} (f : Json → Json) :
      schema.reference? = none → (∀ v, Inside schema v → Inlined doc v (f v)) →
      Inlined doc schema (mapInside f schema)

/-- No schema that an example is made from is a reference. -/
def ReferenceFree (schema : Json) : Prop :=
  ∀ v, Relation.ReflTransGen Inside schema v → v.reference? = none

/-- Every reference that an example needs leads to a schema, from where no need leads back to the reference. -/
def Unfoldable (doc schema : Json) : Prop :=
  ∀ sub r, Relation.ReflTransGen (Needs doc) schema sub → sub.reference? = some r →
    ∃ v, Resolves doc r v ∧ ∀ w, Relation.ReflTransGen (Needs doc) v w → w.reference? ≠ some r

section

variable {doc schema flat : Json}

theorem needs_behind {v : Json} {r : String} (hr : schema.reference? = some r) (hv : Resolves doc r v) :
    Needs doc schema v :=
  .behind (formOf_eq_reference_iff.2 hr) (target_eq_ok_iff.2 hv)

theorem Unfoldable.needs {v : Json} (h : Unfoldable doc schema) (hneeds : Needs doc schema v) :
    Unfoldable doc v :=
  fun sub r hsub => h sub r (.head hneeds hsub)

/-- There is only one way to replace the references. -/
theorem Inlined.unique {other : Json} (h : Inlined doc schema flat) (h' : Inlined doc schema other) :
    flat = other := by
  induction h generalizing other with
  | behind hr hv _ ih =>
    cases h' with
    | behind hr' hv' hflat =>
      rw [hr] at hr'
      cases hr'
      exact ih (hv'.unique hv ▸ hflat)
    | inside f hnone _ =>
      rw [hr] at hnone
      cases hnone
  | inside f hnone _ ih =>
    cases h' with
    | behind hr _ _ =>
      rw [hnone] at hr
      cases hr
    | inside g _ hg => exact mapInside_congr fun v hv => ih v hv (hg v hv)

theorem Inlined.referenceFree (h : Inlined doc schema flat) : ReferenceFree flat := by
  induction h with
  | behind _ _ _ ih => exact ih
  | @inside schema f hnone _ ih =>
    intro v hv
    rcases Relation.ReflTransGen.cases_head hv with rfl | ⟨w, hw, hv⟩
    · have hform : ∀ r, formOf (mapInside f schema) ≠ .reference r := by
        intro r
        rw [formOf_mapInside f hnone]
        cases hform : formOf schema with
        | reference q =>
          rw [formOf_eq_reference_iff.1 hform] at hnone
          cases hnone
        | _ => exact nofun
      exact Option.eq_none_iff_forall_ne_some.2 fun r hr => hform r (formOf_eq_reference_iff.2 hr)
    · obtain ⟨u, hu, rfl⟩ := inside_mapInside hnone hw
      exact ih u hu v hv

/-- Where no reference leads nowhere or back to itself, all of them can be replaced. -/
theorem exists_inlined (unseen : List String) (schema : Json) (h : Unfoldable doc schema)
    (hunseen : ∀ sub r, Relation.ReflTransGen (Needs doc) schema sub → sub.reference? = some r → r ∈ unseen) :
    ∃ flat, Inlined doc schema flat := by
  induction unseen, schema using walk_induction doc with
  | step unseen schema hbehind hinside =>
    cases href : schema.reference? with
    | some r =>
      obtain ⟨v, hv, hback⟩ := h schema r .refl href
      have hneeds := needs_behind href hv
      have hunseen' : ∀ sub q, Relation.ReflTransGen (Needs doc) v sub → sub.reference? = some q →
          q ∈ without unseen r := by
        intro sub q hsub hq
        refine mem_without.2 ⟨hunseen sub q (.head hneeds hsub) hq, ?_⟩
        rintro rfl
        exact hback sub hsub hq
      obtain ⟨flat, hflat⟩ := hbehind r v (formOf_eq_reference_iff.2 href) (hunseen schema r .refl href)
        (target_eq_ok_iff.2 hv) (h.needs hneeds) hunseen'
      exact ⟨flat, .behind href hv hflat⟩
    | none =>
      have hparts : ∀ v, ∃ flat, Inside schema v → Inlined doc v flat := by
        intro v
        by_cases hv : Inside schema v
        · obtain ⟨flat, hflat⟩ := hinside v hv (h.needs (.inside hv))
            fun sub r hsub => hunseen sub r (.head (.inside hv) hsub)
          exact ⟨flat, fun _ => hflat⟩
        · exact ⟨v, fun hin => absurd hin hv⟩
      choose f hf using hparts
      exact ⟨_, .inside f href hf⟩

end

/-! ## Examples of both schemas -/

section

variable {doc doc' : Json} {mode : Mode} {unseen unseen' : List String} {f : Json → Json}

theorem mergeParts_map {parts : List Json}
    (h : ∀ part ∈ parts, exampleOf doc mode unseen part = exampleOf doc' mode unseen' (f part))
    (fields : List (String × Json)) :
    mergeParts doc mode unseen fields parts = mergeParts doc' mode unseen' fields (parts.map f) := by
  induction parts generalizing fields with
  | nil => rw [List.map_nil, mergeParts, mergeParts]
  | cons part parts ih =>
    obtain ⟨hpart, hparts⟩ := List.forall_mem_cons.1 h
    rw [List.map_cons, mergeParts_cons, mergeParts_cons, hpart]
    simp only [ih hparts]

theorem exampleFields_map {properties : List (String × Json)}
    (h : ∀ p ∈ properties, exampleOf doc mode unseen p.2 = exampleOf doc' mode unseen' (f p.2)) :
    exampleFields doc mode unseen properties =
      exampleFields doc' mode unseen' (properties.map fun p => (p.1, f p.2)) := by
  induction properties with
  | nil => rw [List.map_nil, exampleFields, exampleFields]
  | cons p properties ih =>
    obtain ⟨hp, hproperties⟩ := List.forall_mem_cons.1 h
    obtain ⟨name, schema⟩ := p
    rw [List.map_cons, exampleFields_cons, exampleFields_cons, hp, ih hproperties]

/-- The schemas that an example is made from may be changed as long as their examples stay. -/
theorem exampleOf_mapInside {schema : Json} (href : schema.reference? = none)
    (h : ∀ v, Inside schema v → exampleOf doc mode unseen v = exampleOf doc' mode unseen' (f v)) :
    exampleOf doc mode unseen schema = exampleOf doc' mode unseen' (mapInside f schema) := by
  rw [exampleOf_eq, exampleOf_eq, formOf_mapInside f href]
  cases hform : formOf schema with
  | reference r =>
    rw [formOf_eq_reference_iff.1 hform] at href
    cases href
  | merged parts =>
    rw [Form.map, exampleOfForm, exampleOfForm, mergeParts_map fun part hpart => h part (.part hform hpart)]
  | alternative first => exact h first (.alternative hform)
  | object properties =>
    rw [Form.map, exampleOfForm, exampleOfForm,
      exampleFields_map fun p hp => h p.2 (.property hform hp)]
  | array items =>
    cases items with
    | none => rfl
    | some items =>
      rw [Form.map, Option.map_some, exampleOfForm, exampleOfForm, h items (.items hform)]
  | scalar type =>
    rw [mapInside, hform]
    rfl
  | unknown => rfl

/-- Along a walk that meets no reference again, the replaced schema has the same example. -/
theorem Inlined.exampleOf_eq {schema flat : Json} (h : Inlined doc schema flat) (hunfold : Unfoldable doc schema)
    (hunseen : ∀ sub r, Relation.ReflTransGen (Needs doc) schema sub → sub.reference? = some r → r ∈ unseen) :
    exampleOf doc mode unseen schema = exampleOf doc' mode unseen' flat := by
  induction h generalizing unseen with
  | @behind schema v flat r hr hv _ ih =>
    have hneeds := needs_behind hr hv
    obtain ⟨w, hw, hback⟩ := hunfold schema r .refl hr
    rw [OpenApi.exampleOf_eq, formOf_eq_reference_iff.2 hr, exampleOfForm, if_pos (hunseen schema r .refl hr),
      target_eq_ok_iff.2 hv]
    refine ih (hunfold.needs hneeds) fun sub q hsub hq => mem_without.2 ⟨?_, ?_⟩
    · exact hunseen sub q (.head hneeds hsub) hq
    · rintro rfl
      exact hback sub (hw.unique hv ▸ hsub) hq
  | inside f hnone _ ih =>
    refine exampleOf_mapInside hnone fun v hv => ?_
    exact ih v hv (hunfold.needs (.inside hv)) fun sub r hsub => hunseen sub r (.head (.inside hv) hsub)

end

theorem mem_allReferences_of_needs {doc schema v : Json} {r : String} (h : Needs doc schema v)
    (hr : r ∈ allReferences doc v) : r ∈ allReferences doc schema := by
  cases h with
  | inside hv => exact mem_allReferences_inside hv hr
  | behind _ htarget => exact mem_allReferences_behind (target_eq_ok_iff.1 htarget) hr

theorem mem_allReferences_of_reflTransGen {doc schema sub : Json} {r : String}
    (h : Relation.ReflTransGen (Needs doc) schema sub) (hr : sub.reference? = some r) :
    r ∈ allReferences doc schema := by
  induction h using Relation.ReflTransGen.head_induction_on with
  | refl => exact mem_allReferences_of_reference? hr
  | head hneeds _ ih => exact mem_allReferences_of_needs hneeds ih

/-- If the references that the example of a schema needs lead to schemas, and none leads back to itself, then there
is exactly one schema in which all of them are replaced by what they lead to. No reference is left in it, and
whatever is drawn, it has the same example in any document. -/
theorem example_inlined {doc schema : Json} (h : Unfoldable doc schema) :
    ∃ flat, Inlined doc schema flat ∧ (∀ other, Inlined doc schema other → other = flat) ∧ ReferenceFree flat ∧
      ∀ doc' mode, exampleFor doc mode schema = exampleFor doc' mode flat := by
  have hunseen : ∀ sub r, Relation.ReflTransGen (Needs doc) schema sub → sub.reference? = some r →
      r ∈ allReferences doc schema := fun sub r => mem_allReferences_of_reflTransGen
  obtain ⟨flat, hflat⟩ := exists_inlined (allReferences doc schema) schema h hunseen
  refine ⟨flat, hflat, fun other hother => hother.unique hflat, hflat.referenceFree, fun doc' mode => ?_⟩
  exact hflat.exampleOf_eq h hunseen

/-- A list of schemas that holds all that its members need holds all that is needed for these in turn. -/
theorem mem_of_reflTransGen {doc schema sub : Json} {schemas : List Json}
    (hclosed : ∀ v ∈ schemas, ∀ w, Needs doc v w → w ∈ schemas) (hschema : schema ∈ schemas)
    (h : Relation.ReflTransGen (Needs doc) schema sub) : sub ∈ schemas := by
  induction h with
  | refl => exact hschema
  | tail _ hneeds ih => exact hclosed _ ih _ hneeds

def nameSchema : Json := .object [("type", .string "string")]

def nameReference : Json := .object [("$ref", .string "#/Name")]

def pairSchema (name : Json) : Json :=
  .object [("properties", .object [("first", name), ("second", name)])]

/-- A document in which two properties share a schema. -/
def sharingDocument : Json := .object [("Name", nameSchema), ("Pair", pairSchema nameReference)]

def pairReference : Json := .object [("$ref", .string "#/Pair")]

theorem needs_nameSchema {doc v : Json} : ¬ Needs doc nameSchema v := fun h => h.of_form

theorem needs_nameReference {v : Json} (h : Needs sharingDocument nameReference v) : v = nameSchema :=
  (Except.ok.inj h.of_form).symm

theorem needs_pairSchema {doc v : Json} (h : Needs doc (pairSchema nameReference) v) : v = nameReference := by
  have hproperty : ∃ name, (name, v) ∈ [("first", nameReference), ("second", nameReference)] := h.of_form
  obtain ⟨name, hname⟩ := hproperty
  simp only [List.mem_cons, Prod.mk.injEq, List.not_mem_nil, or_false] at hname
  rcases hname with ⟨-, rfl⟩ | ⟨-, rfl⟩ <;> rfl

theorem needs_pairReference {v : Json} (h : Needs sharingDocument pairReference v) :
    v = pairSchema nameReference :=
  (Except.ok.inj h.of_form).symm

theorem unfoldable_pairReference : Unfoldable sharingDocument pairReference := by
  have hname : ∀ v ∈ [nameSchema], ∀ w, Needs sharingDocument v w → w ∈ [nameSchema] := by
    intro v hv w hw
    cases List.mem_singleton.1 hv
    exact absurd hw needs_nameSchema
  have hpair : ∀ v ∈ [pairSchema nameReference, nameReference, nameSchema], ∀ w, Needs sharingDocument v w →
      w ∈ [pairSchema nameReference, nameReference, nameSchema] := by
    intro v hv w hw
    simp only [List.mem_cons, List.not_mem_nil, or_false] at hv ⊢
    rcases hv with rfl | rfl | rfl
    · exact .inr (.inl (needs_pairSchema hw))
    · exact .inr (.inr (needs_nameReference hw))
    · exact absurd hw needs_nameSchema
  intro sub r hsub hr
  rcases Relation.ReflTransGen.cases_head hsub with rfl | ⟨v, hv, hsub⟩
  · cases hr
    refine ⟨pairSchema nameReference, ⟨"/Pair".toList, by decide, rfl⟩, fun w hw => ?_⟩
    have hmem := mem_of_reflTransGen hpair (List.mem_cons_self) hw
    simp only [List.mem_cons, List.not_mem_nil, or_false] at hmem
    rcases hmem with rfl | rfl | rfl <;> decide
  · cases needs_pairReference hv
    have hmem := mem_of_reflTransGen hpair (List.mem_cons_self) hsub
    simp only [List.mem_cons, List.not_mem_nil, or_false] at hmem
    rcases hmem with rfl | rfl | rfl
    · cases hr
    · cases hr
      refine ⟨nameSchema, ⟨"/Name".toList, by decide, rfl⟩, fun w hw => ?_⟩
      cases List.mem_singleton.1 (mem_of_reflTransGen hname (List.mem_singleton_self _) hw)
      decide
    · cases hr

theorem inlined_pairReference : Inlined sharingDocument pairReference (pairSchema nameSchema) := by
  have hname : Inlined sharingDocument nameSchema nameSchema :=
    .inside id rfl fun v hv => absurd (Needs.inside hv) (needs_nameSchema : ¬ Needs sharingDocument nameSchema v)
  have hpair : Inlined sharingDocument (pairSchema nameReference) (pairSchema nameSchema) := by
    refine .inside (fun _ => nameSchema) rfl fun v hv => ?_
    have hneeds : Needs sharingDocument (pairSchema nameReference) v := .inside hv
    cases needs_pairSchema hneeds
    exact .behind rfl ⟨"/Name".toList, by decide, rfl⟩ hname
  exact .behind rfl ⟨"/Pair".toList, by decide, rfl⟩ hpair

theorem example_inlined_pair :
    Unfoldable sharingDocument pairReference ∧ ReferenceFree (pairSchema nameSchema) ∧
    ∀ doc' mode, exampleFor sharingDocument mode pairReference =
      exampleFor doc' mode (pairSchema nameSchema) := by
  refine ⟨unfoldable_pairReference, ?_⟩
  obtain ⟨flat, -, hunique, hfree, hexample⟩ := example_inlined unfoldable_pairReference
  rw [hunique _ inlined_pairReference]
  exact ⟨hfree, hexample⟩

end OpenApi

end Covenant
