import Covenant.Contract
import Covenant.Exchange.Error
import Covenant.Url

/-!
# Targets of requests

* `Request.target`: the URL of a request: the path of the contract behind the base URL, and the parameters
  behind the query.
-/

namespace Covenant

/-- A base URL without the slashes at its end. -/
def trimBase (base : String) : List Char := (base.toList.reverse.dropWhile (· = '/')).reverse

/-- The path of a request with a slash in front. -/
def Request.rootedPath (r : Request) : String :=
  if r.path.toList.head? = some '/' then r.path else "/" ++ r.path

/-- The parameters of a request as pairs of texts. -/
def Request.pairs? (r : Request) : Option (List (String × String)) :=
  r.params.map fun ps => ps.map fun p => (p.name, p.text)

/-- The URL of a request. -/
def Request.target (base : String) (r : Request) : Except ExchangeError Url :=
  match Url.parse (String.ofList (trimBase base) ++ r.rootedPath) with
  | .error e => .error (.invalidRequest ("Invalid URL for '" ++ r.rootedPath ++ "': " ++ e.message))
  | .ok url =>
    match r.pairs? with
    | some pairs => .ok (url.appendPairs pairs)
    | none => .ok url

end Covenant
