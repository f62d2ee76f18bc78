import Covenant.Contract.Error
import Covenant.Json.Pointer

/-!
# References in API documents

A value with a string field `$ref` stands for the value that a pointer into the same document leads to.

* `Json.reference?`: the reference that a value is;
* `Json.references`: all references in a tree;
* `OpenApi.target`: the value behind a reference;
* `OpenApi.deref`: the value behind a chain of references. Every reference of a chain is followed once, so
  the chain is no longer than the list of references that can be met.
-/

namespace Covenant

namespace Json

/-- The reference that a value is. -/
def reference? (v : Json) : Option String :=
  (v.get? "$ref").bind toText?

/-- The text of a field that holds a reference. -/
def referenceField (key : String) (v : Json) : List String :=
  match v with
  | .string s => if key = "$ref" then [s] else []
  | _ => []

mutual
/-- All references in a tree. -/
def references : Json → List String
  | .array items => referencesItems items
  | .object fields => referencesFields fields
  | _ => []
def referencesItems : List Json → List String
  | [] => []
  | v :: vs => v.references ++ referencesItems vs
def referencesFields : List (String × Json) → List String
  | [] => []
  | (k, v) :: fs => referenceField k v ++ v.references ++ referencesFields fs
end

end Json

namespace OpenApi

/-- The name of the document in messages. -/
def documentName : String := "openapi document"

/-- The value behind a reference: a pointer behind a hash sign. -/
def target (doc : Json) (reference : String) : Except ContractError Json :=
  match reference.toList with
  | '#' :: pointer =>
    match doc.pointer? pointer with
    | some v => .ok v
    | none => .error (.invalidField documentName reference .danglingReference)
  | _ => .error (.invalidField documentName reference .foreignReference)

/-- A list of references without one of them. -/
def without (rs : List String) (r : String) : List String :=
  rs.filter (· != r)

theorem length_without {rs : List String} {r : String} (h : r ∈ rs) :
    (without rs r).length < rs.length :=
  List.length_filter_lt_length_iff_exists.2 ⟨r, h, by simp⟩

/-- The value behind a chain of references, each of which is among those not followed yet. -/
def follow (doc : Json) (unseen : List String) (v : Json) : Except ContractError Json :=
  match v.reference? with
  | none => .ok v
  | some r =>
    if r ∈ unseen then
      match target doc r with
      | .error e => .error e
      | .ok w => follow doc (without unseen r) w
    else .error (.invalidField documentName r .circularReference)
termination_by unseen.length
decreasing_by exact length_without ‹_›

/-- The references that can be met on the way from a value. -/
def allReferences (doc v : Json) : List String :=
  v.references ++ doc.references

/-- The value behind a chain of references. -/
def deref (doc v : Json) : Except ContractError Json :=
  follow doc (allReferences doc v) v

end OpenApi

end Covenant
