import Covenant.Contract
import Covenant.Contract.Loading
import Covenant.Placeholder.Materialize
import Covenant.Yaml.Reader

/-!
# Reading contracts

A contract file is a YAML document. Reading one resolves its tokens once.

* `optional?`: a field that is present and not null;
* `namedValues`: headers or parameters, from a mapping or a list of mappings of one entry each;
* `Contract.ofDocument`: the contract that a tree describes;
* `Contract.ofText`: the contract of a file.
-/

namespace Covenant

open Covenant.Text

namespace Contract

/-! ## Fields -/

/-- The field of a mapping, if it is present and not null. -/
def optional? (parent : Yaml) (key : String) : Option Yaml :=
  (parent.get? key).filter (fun v => !v.isNull)

/-- The field of a mapping that has to be there. -/
def required (contract : String) (parent : Yaml) (key path : String) : Except ContractError Yaml :=
  match optional? parent key with
  | some v => .ok v
  | none => .error (.missingField contract path)

/-- The JSON value of a tree. -/
def jsonOf (contract path : String) (v : Yaml) : Except ContractError Json :=
  match v.toJson? with
  | .ok j => .ok j
  | .error fault => .error (.invalidField contract path (.unusableKey fault))

/-- A value with its tokens resolved. -/
def valueOf (contract path : String) (role : Role) (v : Yaml) : Loading Json := fun s =>
  match jsonOf contract path v with
  | .error e => .error e
  | .ok j => .ok (materialize role j s)

theorem valueOf_eq {v : Yaml} {j : Json} (h : v.toJson? = .ok j) (contract path : String) (role : Role) :
    valueOf contract path role v = .ofRand (materialize role j) := by
  funext s
  rw [valueOf, jsonOf, h]
  rfl

/-- A value, if there is one. -/
def optionalValue (contract path : String) (role : Role) (v : Option Yaml) : Loading (Option Json) :=
  match v with
  | none => pure none
  | some v => do
    return some (← valueOf contract path role v)

/-! ## Headers and parameters -/

/-- The text of a name, which is a string, a truth value or a number. -/
def nameText? : Yaml → Option String
  | .string s => some s
  | .number n => some n.text
  | .bool b => some (if b then "true" else "false")
  | _ => none

/-- A header or parameter. -/
def namedValue (contract path : String) (role : Role) (entry : Yaml × Yaml) : Loading NamedValue :=
  match nameText? entry.1 with
  | none => .fail (.invalidField contract path (.nameNotScalar entry.1.kind))
  | some name => do
    return ⟨name, ← valueOf contract path role entry.2⟩

/-- Headers or parameters of a mapping. -/
def namedEntries (contract path : String) (role : Role) : List (Yaml × Yaml) → Loading (List NamedValue)
  | [] => pure []
  | e :: es => do
    let v ← namedValue contract path role e
    let vs ← namedEntries contract path role es
    return v :: vs

/-- Headers or parameters of a list, from an index on. -/
def namedItems (contract path : String) (role : Role) (i : Nat) : List Yaml → Loading (List NamedValue)
  | [] => pure []
  | item :: items => do
    let itemPath := path ++ "[" ++ Decimal.ofNat i ++ "]"
    let v ← match item with
      | .mapping [e] => namedValue contract itemPath role e
      | other => .fail (.invalidField contract itemPath (.notSingleEntry other.kind))
    let vs ← namedItems contract path role (i + 1) items
    return v :: vs

/-- Headers or parameters, in the order of their declaration. -/
def namedValues (contract path : String) (role : Role) (v : Option Yaml) :
    Loading (Option (List NamedValue)) :=
  match v with
  | none => pure none
  | some (.mapping entries) => do
    return some (← namedEntries contract path role entries)
  | some (.sequence items) => do
    return some (← namedItems contract path role 0 items)
  | some other => .fail (.unsupportedDeclaration contract path other.kind)

/-! ## Request and expectation -/

/-- The method of a request: `GET` unless one is given. -/
def methodOf (contract : String) (v : Option Yaml) : Except ContractError Method :=
  match v with
  | none => .ok .get
  | some v =>
    match v.toText? with
    | none => .error (.invalidField contract "contract.request.method" .notText)
    | some s =>
      match Method.parse? s with
      | some m => .ok m
      | none => .error (.invalidField contract "contract.request.method" (.unknownMethod s))

/-- The path of a request. -/
def pathOf (contract : String) (v : Yaml) : Except ContractError String :=
  match v.toText? with
  | some s => .ok s
  | none => .error (.invalidField contract "contract.request.path" .notText)

/-- The request that a tree describes. -/
def requestOf (contract : String) (v : Yaml) : Loading Request := do
  let path ← .ofExcept (required contract v "path" "contract.request.path" >>= pathOf contract)
  let method ← .ofExcept (methodOf contract (optional? v "method"))
  let headers ← namedValues contract "contract.request.headers" .request (optional? v "headers")
  let params ← namedValues contract "contract.request.params" .request (optional? v "params")
  let body ← optionalValue contract "contract.request.body" .request (optional? v "body")
  return ⟨path, method, headers, params, body⟩

/-- The status code of a natural number or a numeral, from 100 to 599. -/
def statusCode? (v : Yaml) : Option UInt16 :=
  let code? : Option Nat := match v with
    | .number (.integer i _) => if 0 ≤ i then some i.toNat else none
    | .string s => Decimal.unsigned? 0xFFFFFFFFFFFFFFFF (trim s)
    | _ => none
  (code?.filter fun n => decide (100 ≤ n ∧ n ≤ 599)).map Nat.toUInt16

/-- The status code that has to be there. -/
def statusOf (contract : String) (v : Yaml) : Except ContractError UInt16 :=
  match statusCode? v with
  | some code => .ok code
  | none => .error (.invalidField contract "contract.response.statusCode" .statusOutOfRange)

/-- The expectation that a tree describes. -/
def expectationOf (contract : String) (v : Yaml) : Loading Expectation := do
  let status ← .ofExcept
    (required contract v "statusCode" "contract.response.statusCode" >>= statusOf contract)
  let headers ← namedValues contract "contract.response.headers" .response (optional? v "headers")
  let body ← optionalValue contract "contract.response.body" .response (optional? v "body")
  return ⟨status, headers, body⟩

/-- The contract that a tree describes. -/
def ofDocument (name : String) (doc : Yaml) : Loading Contract := do
  let contract ← .ofExcept (required name doc "contract" "contract")
  let request ← .ofExcept (required name contract "request" "contract.request")
  let response ← .ofExcept (required name contract "response" "contract.response")
  let request ← requestOf name request
  let expected ← expectationOf name response
  return ⟨name, request, expected⟩

/-- The contract of a text. -/
def ofText (name text : String) : Loading Contract :=
  match Yaml.read? text with
  | some doc => ofDocument name doc
  | none => .fail (.unreadable name "not a YAML document")

end Contract

end Covenant
