import Covenant.Contract.Loading
import Covenant.OpenApi.Reference
import Covenant.Placeholder

/-!
# Examples of schemas

* `OpenApi.Mode`: whether scalars are random values or wildcards;
* `OpenApi.schemaType?`: the type that a schema names or shows;
* `OpenApi.scalar`: the example of a scalar schema;
* `OpenApi.example`: the example of a schema; none if its shape is unknown, or if it lies inside the example
  of the same reference.
-/

namespace Covenant.OpenApi

/-- What stands for scalars. -/
inductive Mode where
  /-- Random values that the schema permits, to be sent. -/
  | generated
  /-- Wildcards, to be expected. -/
  | wildcard
deriving DecidableEq

/-! ## Scalars -/

/-- The type of a schema: the one it names, the first one that is not null in a list, or the one that its
fields imply. -/
def schemaType? (schema : Json) : Option String :=
  let implied : Option String :=
    if (schema.get? "properties").isSome then some "object"
    else if (schema.get? "items").isSome then some "array"
    else none
  match schema.get? "type" with
  | some (.string t) => some t
  | some (.array ts) => (ts.filterMap Json.toText?).find? (· != "null")
  | _ => implied

/-- The wildcard of a scalar type. -/
def scalarKind? (type : String) : Option Wildcard :=
  if type = "string" then some .anyString
  else if type = "integer" ∨ type = "number" then some .anyNumber
  else if type = "boolean" then some .anyBool
  else none

/-- The length of a generated string: the standard one or the least, at most the greatest unless that is
below the least, and never above the limit. -/
def stringLength (schema : Json) : Nat :=
  let least := (schema.get? "minLength").bind Json.toNat?
  let most := (schema.get? "maxLength").bind Json.toNat?
  let wanted := least.getD defaultLength
  min (max (most.elim wanted (min wanted)) (least.getD 0)) maxLength

/-- A bound of a number schema. -/
def numberBound (schema : Json) (key : String) (default : Decimal.Int64Value) : Decimal.Int64Value :=
  match (schema.get? key).bind Json.toInt? with
  | some i => if h : -0x8000000000000000 ≤ i ∧ i < 0x8000000000000000 then ⟨i, h⟩ else default
  | none => default

/-- The generator for a scalar schema. -/
def scalarGenerator (w : Wildcard) (schema : Json) : Generator :=
  match w with
  | .anyString =>
    if (schema.get? "format").bind Json.toText? = some "uuid" then .uuid
    else .string (stringLength schema) (Nat.min_le_right _ _)
  | .anyNumber =>
    .number (.ofEnds (numberBound schema "minimum" defaultLow) (numberBound schema "maximum" defaultHigh))
  | .anyBool => .bool

/-- The first permitted value of a schema that lists them. -/
def firstChoice? (schema : Json) : Option Json :=
  ((schema.get? "enum").bind Json.toItems?).bind List.head?

/-- The example of a schema of a scalar type. -/
def scalar (type : String) (schema : Json) (mode : Mode) : Rand (Option Json) :=
  match scalarKind? type with
  | none => pure none
  | some w =>
    match mode with
    | .wildcard => pure (some (.string w.label))
    | .generated =>
      match firstChoice? schema with
      | some v => pure (some v)
      | none => do
        return some (← (scalarGenerator w schema).generate)

/-! ## Trees -/

/-- The first of the alternatives that a schema offers. -/
def firstAlternative? (schema : Json) : Option Json :=
  ["oneOf", "anyOf"].findSome? fun key => ((schema.get? key).bind Json.toItems?).bind List.head?

theorem sizeOf_firstAlternative {schema v : Json} (h : firstAlternative? schema = some v) :
    sizeOf v < sizeOf schema := by
  obtain ⟨key, -, hk⟩ := List.exists_of_findSome?_eq_some h
  obtain ⟨items, hi, hv⟩ := Option.bind_eq_some_iff.1 hk
  obtain ⟨w, hw, hi⟩ := Option.bind_eq_some_iff.1 hi
  have h1 := Json.sizeOf_get? hw
  have h2 := List.sizeOf_lt_of_mem (List.mem_of_head? hv)
  cases w <;> simp [Json.toItems?] at hi
  subst hi
  simp only [Json.array.sizeOf_spec] at h1
  omega

mutual
/-- The example of a schema. A reference is followed if it is not being followed already. -/
def exampleOf (doc : Json) (mode : Mode) (unseen : List String) (schema : Json) : Loading (Option Json) :=
  match schema.reference? with
  | some r =>
    if r ∈ unseen then
      match target doc r with
      | .error e => .fail e
      | .ok v => exampleOf doc mode (without unseen r) v
    else pure none
  | none =>
    match _h : schema.get? "allOf" with
    | some (.array parts) => do
      return some (.object (← mergeParts doc mode unseen [] parts))
    | _ =>
      match _h : firstAlternative? schema with
      | some first => exampleOf doc mode unseen first
      | none =>
        match schemaType? schema with
        | none => pure none
        | some type =>
          if type = "object" then
            match _h : schema.get? "properties" with
            | some (.object properties) => do
              return some (.object (← exampleFields doc mode unseen properties))
            | _ => pure (some (.object []))
          else if type = "array" then
            match _h : schema.get? "items" with
            | some items => do
              return some (.array (← exampleOf doc mode unseen items).toList)
            | none => pure (some (.array []))
          else .ofRand (scalar type schema mode)
termination_by (unseen.length, sizeOf schema)
decreasing_by
  · left
    exact length_without ‹_›
  · right
    have := Json.sizeOf_get? _h
    simp only [Json.array.sizeOf_spec] at this
    omega
  · right
    exact sizeOf_firstAlternative _h
  · right
    have := Json.sizeOf_get? _h
    simp only [Json.object.sizeOf_spec] at this
    omega
  · right
    exact Json.sizeOf_get? _h
/-- The fields of the examples of several schemas, set one after the other. -/
def mergeParts (doc : Json) (mode : Mode) (unseen : List String) (fields : List (String × Json))
    (parts : List Json) : Loading (List (String × Json)) :=
  match parts with
  | [] => pure fields
  | part :: parts => do
    let v ← exampleOf doc mode unseen part
    let fields := match v with
      | some (.object more) => Json.insertAll fields more
      | _ => fields
    mergeParts doc mode unseen fields parts
termination_by (unseen.length, sizeOf parts)
/-- The examples of the properties of a schema, those of unknown shape left out. -/
def exampleFields (doc : Json) (mode : Mode) (unseen : List String) (properties : List (String × Json)) :
    Loading (List (String × Json)) :=
  match properties with
  | [] => pure []
  | (name, schema) :: properties => do
    let v ← exampleOf doc mode unseen schema
    let fields ← exampleFields doc mode unseen properties
    match v with
    | some v => return (name, v) :: fields
    | none => return fields
termination_by (unseen.length, sizeOf properties)
end

/-- The example of a schema of a document. -/
def exampleFor (doc : Json) (mode : Mode) (schema : Json) : Loading (Option Json) :=
  exampleOf doc mode (allReferences doc schema) schema

end Covenant.OpenApi
