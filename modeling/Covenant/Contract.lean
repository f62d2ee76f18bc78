import Covenant.Json.Writer
import Covenant.Method

/-!
# Contracts

A contract declares one exchange with a service: the request to send and what the answer has to be.
Headers and parameters are lists of names with values, in the order of their declaration.

* `NamedValue`, `Request`, `Expectation`, `Contract`: the declared data;
* `Contract.toDocument`: the tree that a contract file holds for it.
-/

namespace Covenant

/-- A header or parameter with its declared value. -/
structure NamedValue where
  name : String
  value : Json
deriving DecidableEq

/-- The text that is sent for a declared value. -/
def NamedValue.text (v : NamedValue) : String := v.value.render

/-- The request of a contract. -/
structure Request where
  path : String
  method : Method
  headers : Option (List NamedValue)
  params : Option (List NamedValue)
  body : Option Json
deriving DecidableEq

/-- A request without headers, parameters or body. -/
def Request.plain (path : String) (method : Method) : Request :=
  ⟨path, method, none, none, none⟩

/-- What the answer to a request has to be. -/
structure Expectation where
  status : UInt16
  headers : Option (List NamedValue)
  body : Option Json
deriving DecidableEq

/-- A status code without expectations on headers or body. -/
def Expectation.ofStatus (status : UInt16) : Expectation :=
  ⟨status, none, none⟩

/-- A named pair of request and expectation. -/
structure Contract where
  name : String
  request : Request
  expected : Expectation
deriving DecidableEq

/-! ## The document of a contract -/

/-- A field that is written only if there is a value. -/
def optionalField (key : String) (value : Option Json) : List (String × Json) :=
  match value with
  | some v => [(key, v)]
  | none => []

/-- Names and values as a list of objects of one field each, which keeps order and repetitions. -/
def namedList (entries : List NamedValue) : Json :=
  .array (entries.map fun e => .object [(e.name, e.value)])

/-- The tree of a request. -/
def Request.toDocument (r : Request) : Json :=
  .object ([("path", .string r.path), ("method", .string r.method.name)] ++
    optionalField "headers" (r.headers.map namedList) ++
    optionalField "params" (r.params.map namedList) ++
    optionalField "body" r.body)

/-- The tree of an expectation. -/
def Expectation.toDocument (e : Expectation) : Json :=
  .object ([("statusCode", .ofUInt16 e.status)] ++
    optionalField "headers" (e.headers.map namedList) ++
    optionalField "body" e.body)

/-- The tree that a contract file holds. -/
def Contract.toDocument (c : Contract) : Json :=
  .object [("contract",
    .object [("request", c.request.toDocument), ("response", c.expected.toDocument)])]

end Covenant
