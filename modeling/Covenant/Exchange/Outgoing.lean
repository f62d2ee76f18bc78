import Covenant.Exchange.Target
import Covenant.Json.Writer
import Covenant.Text.Case

/-!
# Outgoing requests

* `Outgoing`: a request as it is sent;
* `headerFault?`: why a header cannot be sent: names are tokens, values have no control characters;
* `Request.outgoing`: the request that a contract describes.
-/

namespace Covenant

open Covenant.Text

/-- A request as it is sent. The names of headers are in lower case. -/
structure Outgoing where
  method : Method
  url : Url
  headers : List (String × String)
  body : Option String

/-- Why a header cannot be sent. -/
inductive HeaderFault where
  | invalidName
  | invalidValue
deriving DecidableEq, Repr

/-- The words for a fault. -/
def HeaderFault.message : HeaderFault → String
  | .invalidName => "builder error: invalid HTTP header name"
  | .invalidValue => "builder error: failed to parse header value"

/-- The characters of tokens. -/
def isTokenChar (c : Char) : Bool :=
  isAlphanumeric c || "!#$%&'*+-.^_|~\x60".toList.contains c

/-- Greatest number of characters in the name of a header. -/
def headerNameLimit : Nat := 65535

/-- Why a header cannot be sent. A value has no control characters but the tab. -/
def headerFault? (h : String × String) : Option HeaderFault :=
  let name := h.1.toList
  if name.isEmpty || !name.all isTokenChar || name.length > headerNameLimit then some .invalidName
  else if h.2.toList.any fun c => (c.toNat < 0x20 && c ≠ '\t') || c.toNat = 0x7F then
    some .invalidValue
  else none

/-- A header that is sent unless one of its name is declared. -/
def withDefault (name value : String) (headers : List (String × String)) : List (String × String) :=
  if headers.any fun h => h.1 == name then headers else headers ++ [(name, value)]

/-- The request that a contract describes. Any kind of reply is welcome, and a body is JSON, where the
contract says nothing else. -/
def Request.outgoing (base : String) (r : Request) : Except ExchangeError Outgoing := do
  let url ← r.target base
  let declared := (r.headers.getD []).map fun h => (h.name, h.text)
  match declared.findSome? headerFault? with
  | some fault => throw (.invalidRequest fault.message)
  | none =>
    let headers := declared.map fun h => (lowerText h.1, h.2)
    let headers := if r.body.isSome then withDefault "content-type" "application/json" headers else headers
    return {
      method := r.method
      url := url
      headers := withDefault "accept" "*/*" headers
      body := r.body.map Json.compact }

end Covenant
