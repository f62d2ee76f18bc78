import Covenant.Contract
import Covenant.FreshName
import Covenant.OpenApi.Example
import Covenant.Text.Replace

/-!
# Contracts of API documents

Each operation of a document gives one contract: a request with generated values and the expectation of a
response of the declared shape.

* `OpenApi.operations`: the operations of a path item;
* `OpenApi.requestFor`, `OpenApi.expectationFor`: request and expectation of an operation;
* `OpenApi.contracts`: the contracts of a document, in document order.
-/

namespace Covenant.OpenApi

open Covenant.Text

/-! ## Operations -/

/-- The methods that a path item may declare. -/
def methods : List (String × Method) :=
  [("get", .get), ("put", .put), ("post", .post), ("delete", .delete), ("options", .options),
    ("head", .head), ("patch", .patch), ("trace", .trace)]

/-- An operation with its method and the name of that. -/
structure Operation where
  methodName : String
  method : Method
  declaration : Json

/-- The operations of a path item, in their order. -/
def operations (item : Json) : List Operation :=
  (item.toFields?.getD []).filterMap fun (key, declaration) =>
    (methods.find? (fun m => m.1 == key)).map fun m => ⟨key, m.2, declaration⟩

/-- A path with underscores for what is no letter or digit, without those at its ends. -/
def pathName (path : String) : String :=
  let cs := path.toList.map fun c => if isAlphanumeric c then c else '_'
  let front (cs : List Char) : List Char := cs.dropWhile (· == '_')
  let cs := (front (front cs).reverse).reverse
  if cs.isEmpty then "root" else String.ofList cs

/-- The name that an operation wants: its identifier, or method and path. -/
def Operation.name (o : Operation) (path : String) : String :=
  match (o.declaration.get? "operationId").bind Json.toText? with
  | some id => id
  | none => o.methodName ++ "_" ++ pathName path

/-! ## Requests -/

/-- The schema of the first media type of JSON. -/
def jsonSchema? (v : Json) : Option Json :=
  ((v.get? "content").bind Json.toFields?).bind fun media =>
    let entry : Option Json := match Json.lookup media "application/json" with
      | some m => some m
      | none => (media.find? fun m => containsText "json".toList m.1.toList).map Prod.snd
    entry.bind (·.get? "schema")

/-- Adds an entry to a list that is absent while it is empty. -/
def addEntry (entries : Option (List NamedValue)) (name : String) (v : Option Json) :
    Option (List NamedValue) :=
  match v with
  | some v => some (entries.getD [] ++ [⟨name, v⟩])
  | none => entries

/-- The request with a parameter filled in. Path parameters always get a value, those of query and header
only if they are required; the body is the example of its schema. -/
def addParameter (doc : Json) (r : Request) (param : Json) : Loading Request := do
  let param ← .ofExcept (deref doc param)
  match (param.get? "name").bind Json.toText? with
  | none => return r
  | some name =>
    let location := ((param.get? "in").bind Json.toText?).getD ""
    let isRequired := ((param.get? "required").bind Json.toBool?).getD false
    -- The schema may stand in the parameter itself.
    let sample := exampleFor doc .generated ((param.get? "schema").getD param)
    if location = "body" then
      return { r with body := ← sample }
    else if location = "path" then
      let v ← match ← sample with
        | some v => pure v
        | none => .ofRand (Generator.generate (.string defaultLength (by decide)))
      let segment := '\x7b' :: name.toList ++ ['\x7d']
      return { r with path := String.ofList (replaceAll segment v.render.toList r.path.toList) }
    else if location = "query" ∧ isRequired then
      return { r with params := addEntry r.params name (← sample) }
    else if location = "header" ∧ isRequired then
      return { r with headers := addEntry r.headers name (← sample) }
    else return r

/-- The request with all parameters of a list filled in. -/
def addParameters (doc : Json) (r : Request) (params : List Json) : Loading Request :=
  params.foldlM (addParameter doc) r

/-- The parameters that a value declares. -/
def parameters (v : Json) : List Json :=
  ((v.get? "parameters").bind Json.toItems?).getD []

/-- The request of an operation, with the parameters of its path before its own. -/
def requestFor (doc : Json) (path : String) (item : Json) (o : Operation) : Loading Request := do
  let r ← addParameters doc (.plain path o.method) (parameters item ++ parameters o.declaration)
  match o.declaration.get? "requestBody" with
  | none => return r
  | some body =>
    match jsonSchema? (← .ofExcept (deref doc body)) with
    | none => return r
    | some schema => return { r with body := ← exampleFor doc .generated schema }

/-! ## Expectations -/

/-- The first declaration of the least status code that satisfies a condition. -/
def leastCode? (codes : List (UInt16 × Json)) : Option (UInt16 × Json) :=
  codes.foldl (fun least c => match least with
    | some l => if c.1 < l.1 then some c else some l
    | none => some c) none

/-- The response that is expected: the least code of success, else the default one as 200, else the least
code. -/
def pickResponse? (responses : List (String × Json)) : Option (UInt16 × Json) :=
  let codes := responses.filterMap fun (code, v) =>
    (Decimal.unsigned? 65535 code).map fun n => (n.toUInt16, v)
  match leastCode? (codes.filter fun c => 200 ≤ c.1 && c.1 < 300) with
  | some c => some c
  | none =>
    match Json.lookup responses "default" with
    | some v => some (200, v)
    | none => leastCode? codes

/-- The schema of a response, below its content or in the response itself. -/
def responseSchema? (response : Json) : Option Json :=
  match jsonSchema? response with
  | some schema => some schema
  | none => response.get? "schema"

/-- The expectation of an operation. -/
def expectationFor (doc : Json) (o : Operation) : Loading Expectation := do
  let responses := ((o.declaration.get? "responses").bind Json.toFields?).getD []
  match pickResponse? responses with
  | none => return .ofStatus 200
  | some (status, response) =>
    match responseSchema? (← .ofExcept (deref doc response)) with
    | none => return .ofStatus status
    | some schema => return { Expectation.ofStatus status with body := ← exampleFor doc .wildcard schema }

/-! ## Documents -/

/-- The contracts of the operations of a path, under names that are not taken. -/
def operationContracts (doc : Json) (path : String) (item : Json) (done : List Contract)
    (ops : List Operation) : Loading (List Contract) :=
  match ops with
  | [] => pure done
  | o :: ops => do
    let name := freshName id (done.map Contract.name) (o.name path)
    let request ← requestFor doc path item o
    let expected ← expectationFor doc o
    operationContracts doc path item (done ++ [⟨name, request, expected⟩]) ops

/-- The contracts of the paths of a document, behind those already made. -/
def pathContracts (doc : Json) (done : List Contract) : List (String × Json) → Loading (List Contract)
  | [] => pure done
  | (path, item) :: paths => do
    let item ← .ofExcept (deref doc item)
    let done ← operationContracts doc path item done (operations item)
    pathContracts doc done paths

/-- The contracts of all operations of a document. -/
def contracts (doc : Json) : Loading (List Contract) :=
  match (doc.get? "paths").bind Json.toFields? with
  | some paths => pathContracts doc [] paths
  | none => .fail (.missingField documentName "paths")

end Covenant.OpenApi
