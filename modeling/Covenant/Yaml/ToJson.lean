import Covenant.Json.Writer
import Covenant.Yaml

/-!
# YAML values as JSON

* `Yaml.Kind`: the kinds of values, as messages name them;
* `Yaml.keyText?`: the text of a key: strings, truth values and finite numbers have one;
* `Yaml.toJson?`: the JSON value. Numbers that are not finite become null, a tag becomes an object of one
  field, and keys of one text are one field.
-/

namespace Covenant.Yaml

/-! ## Kinds -/

/-- The kinds of values. -/
inductive Kind where
  | null | boolean | number | string | list | mapping | tagged
deriving DecidableEq, Repr

/-- The name of a kind. -/
def Kind.name : Kind → String
  | .null => "null"
  | .boolean => "boolean"
  | .number => "number"
  | .string => "string"
  | .list => "list"
  | .mapping => "mapping"
  | .tagged => "tagged value"

def kind : Yaml → Kind
  | .null => .null
  | .bool _ => .boolean
  | .number _ => .number
  | .string _ => .string
  | .sequence _ => .list
  | .mapping _ => .mapping
  | .tagged .. => .tagged

/-! ## Numbers -/

/-- Doubles in YAML text have an exponent without a plus sign. -/
def numberLayout : Decimal.Layout where
  leastPlaces := -4
  mostPlaces := 16
  plus := false

/-- The text of a number. -/
def Number.text : Number → String
  | .integer i _ => Decimal.ofInt i
  | .double x => numberLayout.text x
  | .infinite negative => if negative then "-.inf" else ".inf"
  | .nan => ".nan"

/-- The JSON value of a number. -/
def Number.toJson : Number → Json
  | .integer i h => .number (.integer i h)
  | .double x => .number (.double x)
  | .infinite _ => .null
  | .nan => .null

/-! ## Keys -/

/-- Why a key has no text. -/
inductive KeyFault where
  | notText
  | notFinite
deriving DecidableEq

/-- What is said of a key without a text. -/
def KeyFault.message : KeyFault → String
  | .notText => "key must be a string"
  | .notFinite => "float key must be finite (got NaN or +/-inf)"

/-- The text of a key. -/
def keyText? : Yaml → Except KeyFault String
  | .string s => .ok s
  | .bool b => .ok (if b then "true" else "false")
  | .number (.integer i _) => .ok (Decimal.ofInt i)
  | .number (.double x) => .ok (Json.numberLayout.text x)
  | .number _ => .error .notFinite
  | _ => .error .notText

/-! ## Values -/

mutual
/-- The JSON value, or the first key without a text. -/
def toJson? : Yaml → Except KeyFault Json
  | .null => .ok .null
  | .bool b => .ok (.bool b)
  | .number n => .ok n.toJson
  | .string s => .ok (.string s)
  | .sequence items => do
    return .array (← itemsToJson? items)
  | .mapping entries => do
    return .object (← entriesToJson? [] entries)
  | .tagged t v => do
    return .object [("!" ++ tagName t, ← toJson? v)]
def itemsToJson? : List Yaml → Except KeyFault (List Json)
  | [] => .ok []
  | v :: vs => do
    let v ← toJson? v
    let vs ← itemsToJson? vs
    return v :: vs
/-- The fields of entries, set one after the other. -/
def entriesToJson? (fields : List (String × Json)) :
    List (Yaml × Yaml) → Except KeyFault (List (String × Json))
  | [] => .ok fields
  | (k, v) :: es => do
    let key ← keyText? k
    let v ← toJson? v
    entriesToJson? (Json.insert fields key v) es
end

end Covenant.Yaml
