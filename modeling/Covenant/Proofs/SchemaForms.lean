import Covenant.OpenApi.Example

/-!
# Forms of schemas

A schema says in several ways what its example is made from, and the first one that it uses counts.

* `OpenApi.Form`, `OpenApi.formOf`: what the example of a schema is made from;
* `OpenApi.exampleOf_eq`: the example, form by form;
* `OpenApi.Inside`, `OpenApi.Needs`: the schemas whose examples are needed for that of a schema, those inside it
  and that behind a reference;
* `OpenApi.walk_induction`: induction along them, a reference being followed if it is not being followed already.
-/

namespace Covenant.OpenApi

/-! ## Forms -/

/-- What the example of a schema is made from. -/
inductive Form where
  /-- What a reference leads to. -/
  | reference (r : String)
  /-- Several schemas whose fields are merged. -/
  | merged (parts : List Json)
  /-- The first of several alternatives. -/
  | alternative (first : Json)
  /-- The properties of an object, none if it declares none. -/
  | object (properties : List (String × Json))
  /-- The items of an array, if they are declared. -/
  | array (items : Option Json)
  /-- The type of a scalar. -/
  | scalar (type : String)
  | unknown

/-- The schemas whose fields are merged, if a schema lists them. -/
def partsOf? (schema : Json) : Option (List Json) := (schema.get? "allOf").bind Json.toItems?

/-- The properties that a schema declares. -/
def propertiesOf (schema : Json) : List (String × Json) :=
  ((schema.get? "properties").bind Json.toFields?).getD []

/-- The form of a schema of a type. -/
def formOfType (schema : Json) (type : String) : Form :=
  if type = "object" then .object (propertiesOf schema)
  else if type = "array" then .array (schema.get? "items")
  else .scalar type

/-- The form of a schema. -/
def formOf (schema : Json) : Form :=
  match schema.reference? with
  | some r => .reference r
  | none =>
    match partsOf? schema with
    | some parts => .merged parts
    | none =>
      match firstAlternative? schema with
      | some first => .alternative first
      | none => (schemaType? schema).elim .unknown (formOfType schema)

theorem formOf_eq_reference_iff {schema : Json} {r : String} :
    formOf schema = .reference r ↔ schema.reference? = some r := by
  rw [formOf]
  cases schema.reference? with
  | some q => simp
  | none =>
    refine iff_of_false ?_ nofun
    cases partsOf? schema with
    | some parts => exact nofun
    | none =>
      cases firstAlternative? schema with
      | some first => exact nofun
      | none =>
        cases schemaType? schema with
        | none => exact nofun
        | some type =>
          rw [Option.elim_some, formOfType]
          by_cases hobject : type = "object"
          · rw [if_pos hobject]
            exact nofun
          · by_cases harray : type = "array"
            · rw [if_neg hobject, if_pos harray]
              exact nofun
            · rw [if_neg hobject, if_neg harray]
              exact nofun

theorem bind_toItems?_eq_some_iff {o : Option Json} {items : List Json} :
    o.bind Json.toItems? = some items ↔ o = some (.array items) := by
  cases o with
  | none => simp
  | some v => cases v <;> simp [Json.toItems?]

theorem bind_toFields?_eq_some_iff {o : Option Json} {fields : List (String × Json)} :
    o.bind Json.toFields? = some fields ↔ o = some (.object fields) := by
  cases o with
  | none => simp
  | some v => cases v <;> simp [Json.toFields?]

theorem partsOf?_eq_none {schema : Json} (h : ∀ parts, schema.get? "allOf" = some (.array parts) → False) :
    partsOf? schema = none := by
  refine Option.eq_none_iff_forall_ne_some.2 fun parts hparts => ?_
  exact h parts (bind_toItems?_eq_some_iff.1 hparts)

theorem propertiesOf_of_get? {schema : Json} {properties : List (String × Json)}
    (h : schema.get? "properties" = some (.object properties)) : propertiesOf schema = properties := by
  rw [propertiesOf, bind_toFields?_eq_some_iff.2 h, Option.getD_some]

theorem propertiesOf_eq_nil {schema : Json}
    (h : ∀ properties, schema.get? "properties" = some (.object properties) → False) :
    propertiesOf schema = [] := by
  have hnone : (schema.get? "properties").bind Json.toFields? = none := by
    refine Option.eq_none_iff_forall_ne_some.2 fun properties hproperties => ?_
    exact h properties (bind_toFields?_eq_some_iff.1 hproperties)
  rw [propertiesOf, hnone, Option.getD_none]

/-- The example of a schema of a form. -/
def exampleOfForm (doc : Json) (mode : Mode) (unseen : List String) (schema : Json) :
    Form → Loading (Option Json)
  | .reference r =>
    if r ∈ unseen then
      match target doc r with
      | .error e => .fail e
      | .ok v => exampleOf doc mode (without unseen r) v
    else pure none
  | .merged parts => do
    return some (.object (← mergeParts doc mode unseen [] parts))
  | .alternative first => exampleOf doc mode unseen first
  | .object properties => do
    return some (.object (← exampleFields doc mode unseen properties))
  | .array (some items) => do
    return some (.array (← exampleOf doc mode unseen items).toList)
  | .array none => pure (some (.array []))
  | .scalar type => .ofRand (scalar type schema mode)
  | .unknown => pure none

theorem exampleOf_eq (doc : Json) (mode : Mode) (unseen : List String) (schema : Json) :
    exampleOf doc mode unseen schema = exampleOfForm doc mode unseen schema (formOf schema) := by
  rw [exampleOf, formOf]
  cases schema.reference? with
  | some r => rfl
  | none =>
    dsimp only
    split
    · rename_i parts hparts
      rw [partsOf?, bind_toItems?_eq_some_iff.2 hparts]
      rfl
    · rename_i hparts
      rw [partsOf?_eq_none hparts]
      split
      · rename_i first hfirst
        rw [hfirst]
        rfl
      · rename_i hfirst
        rw [hfirst]
        cases schemaType? schema with
        | none => rfl
        | some type =>
          dsimp only [Option.elim_some]
          rw [formOfType]
          split
          · split
            · rename_i properties hproperties
              rw [propertiesOf_of_get? hproperties]
              rfl
            · rename_i hproperties
              rw [propertiesOf_eq_nil hproperties]
              show _ = exampleFields doc mode unseen [] >>= fun fields => pure (some (Json.object fields))
              rw [exampleFields]
              rfl
          · split
            · split
              · rename_i items hitems
                rw [hitems]
                rfl
              · rename_i hitems
                rw [hitems]
                rfl
            · rfl

theorem exampleFor_of_scalar (doc : Json) {schema : Json} {type : String} (h : formOf schema = .scalar type)
    (mode : Mode) : exampleFor doc mode schema = .ofRand (scalar type schema mode) := by
  rw [exampleFor, exampleOf_eq, h]
  rfl

/-- Fields with those of an example set, if it is an object. -/
def setFields (fields : List (String × Json)) : Option Json → List (String × Json)
  | some (.object more) => Json.insertAll fields more
  | _ => fields

theorem mergeParts_cons (doc : Json) (mode : Mode) (unseen : List String) (fields : List (String × Json))
    (part : Json) (parts : List Json) :
    mergeParts doc mode unseen fields (part :: parts) =
      exampleOf doc mode unseen part >>= fun v => mergeParts doc mode unseen (setFields fields v) parts := by
  rw [mergeParts]
  rfl

/-- The field for the example of a property, if there is one. -/
def fieldOf (name : String) (v : Option Json) : List (String × Json) := v.toList.map fun w => (name, w)

theorem exampleFields_cons (doc : Json) (mode : Mode) (unseen : List String) (name : String) (schema : Json)
    (properties : List (String × Json)) :
    exampleFields doc mode unseen ((name, schema) :: properties) =
      exampleOf doc mode unseen schema >>= fun v =>
        exampleFields doc mode unseen properties >>= fun fields => pure (fieldOf name v ++ fields) := by
  rw [exampleFields]
  congr 1
  funext v
  cases v <;> rfl

/-! ## Schemas that are needed -/

/-- A schema inside another one whose example is made from it. -/
inductive Inside : Json → Json → Prop
  | part {schema v : Json} {parts : List Json} : formOf schema = .merged parts → v ∈ parts → Inside schema v
  | alternative {schema v : Json} : formOf schema = .alternative v → Inside schema v
  | property {schema v : Json} {name : String} {properties : List (String × Json)} :
      formOf schema = .object properties → (name, v) ∈ properties → Inside schema v
  | items {schema v : Json} : formOf schema = .array (some v) → Inside schema v

/-- The schemas that a form consists of. -/
def Form.schemas : Form → List Json
  | .merged parts => parts
  | .alternative first => [first]
  | .object properties => properties.map Prod.snd
  | .array items => items.toList
  | _ => []

theorem inside_iff {schema v : Json} : Inside schema v ↔ v ∈ (formOf schema).schemas := by
  constructor
  · intro h
    cases h with
    | part hform hv => rwa [hform]
    | alternative hform =>
      rw [hform]
      exact List.mem_singleton_self v
    | property hform hv =>
      rw [hform]
      exact List.mem_map_of_mem hv
    | items hform =>
      rw [hform]
      exact List.mem_singleton_self v
  · intro h
    cases hform : formOf schema with
    | merged parts =>
      rw [hform] at h
      exact .part hform h
    | alternative first =>
      rw [hform] at h
      cases List.mem_singleton.1 h
      exact .alternative hform
    | object properties =>
      rw [hform] at h
      obtain ⟨p, hp, rfl⟩ := List.mem_map.1 h
      exact .property hform hp
    | array items =>
      rw [hform] at h
      cases Option.mem_toList.1 h
      exact .items hform
    | _ =>
      rw [hform] at h
      cases h

/-- A schema that the example of another one is made from. -/
inductive Needs (doc : Json) : Json → Json → Prop
  | inside {schema v : Json} : Inside schema v → Needs doc schema v
  | behind {schema v : Json} {r : String} :
      formOf schema = .reference r → target doc r = .ok v → Needs doc schema v

/-- What a schema of each form needs. -/
theorem Needs.of_form {doc schema v : Json} (h : Needs doc schema v) :
    match formOf schema with
    | .reference r => target doc r = .ok v
    | .merged parts => v ∈ parts
    | .alternative first => v = first
    | .object properties => ∃ name, (name, v) ∈ properties
    | .array items => items = some v
    | _ => False := by
  cases h with
  | behind hform htarget =>
    rw [hform]
    exact htarget
  | inside h =>
    cases h with
    | part hform hv =>
      rw [hform]
      exact hv
    | alternative hform => rw [hform]
    | property hform hv =>
      rw [hform]
      exact ⟨_, hv⟩
    | items hform => rw [hform]

/-- Where in a schema the parts of its form stand. -/
theorem formOf_spec (schema : Json) :
    match formOf schema with
    | .merged parts => schema.get? "allOf" = some (.array parts)
    | .alternative first => firstAlternative? schema = some first
    | .object properties => properties = propertiesOf schema
    | .array items => items = schema.get? "items"
    | _ => True := by
  rw [formOf]
  cases schema.reference? with
  | some r => trivial
  | none =>
    cases hparts : partsOf? schema with
    | some parts => exact bind_toItems?_eq_some_iff.1 hparts
    | none =>
      cases firstAlternative? schema with
      | some first => rfl
      | none =>
        cases schemaType? schema with
        | none => trivial
        | some type =>
          rw [Option.elim_some, formOfType]
          by_cases hobject : type = "object"
          · rw [if_pos hobject]
          · by_cases harray : type = "array"
            · rw [if_neg hobject, if_pos harray]
            · rw [if_neg hobject, if_neg harray]
              trivial

theorem sizeOf_propertiesOf {schema v : Json} {name : String} (h : (name, v) ∈ propertiesOf schema) :
    sizeOf v < sizeOf schema := by
  rw [propertiesOf] at h
  cases hproperties : (schema.get? "properties").bind Json.toFields? with
  | none =>
    rw [hproperties] at h
    cases h
  | some properties =>
    rw [hproperties] at h
    have hfields := Json.sizeOf_get? (bind_toFields?_eq_some_iff.1 hproperties)
    have hfield : sizeOf (name, v) < sizeOf properties := List.sizeOf_lt_of_mem h
    simp only [Json.object.sizeOf_spec, Prod.mk.sizeOf_spec] at hfields hfield
    omega

theorem Inside.sizeOf_lt {schema v : Json} (h : Inside schema v) : sizeOf v < sizeOf schema := by
  have hspec := formOf_spec schema
  cases h with
  | part hform hv =>
    rw [hform] at hspec
    have hparts := Json.sizeOf_get? hspec
    have hpart := List.sizeOf_lt_of_mem hv
    simp only [Json.array.sizeOf_spec] at hparts
    omega
  | alternative hform =>
    rw [hform] at hspec
    exact sizeOf_firstAlternative hspec
  | property hform hv =>
    rw [hform] at hspec
    dsimp only at hspec
    rw [hspec] at hv
    exact sizeOf_propertiesOf hv
  | items hform =>
    rw [hform] at hspec
    exact Json.sizeOf_get? hspec.symm

/-- Induction along the schemas that an example is made from. -/
theorem walk_induction (doc : Json) {motive : List String → Json → Prop}
    (step : ∀ unseen schema,
      (∀ r v, formOf schema = .reference r → r ∈ unseen → target doc r = .ok v → motive (without unseen r) v) →
      (∀ v, Inside schema v → motive unseen v) → motive unseen schema)
    (unseen : List String) (schema : Json) : motive unseen schema := by
  refine step unseen schema (fun r v _ hr _ => ?_) (fun v hv => ?_)
  · exact walk_induction doc step (without unseen r) v
  · exact walk_induction doc step unseen v
termination_by (unseen.length, sizeOf schema)
decreasing_by
  · exact Prod.Lex.left _ _ (length_without hr)
  · exact Prod.Lex.right _ hv.sizeOf_lt

end Covenant.OpenApi
