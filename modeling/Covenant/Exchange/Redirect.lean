import Covenant.Exchange.Message

/-!
# Redirections

* `Url.follow`: the URL that a reference means in a document of its own URL;
* `Outgoing.redirected?`: the request that a response sends the client on with;
* `exchangeWith`: an exchange, which follows a bounded number of redirections.
-/

namespace Covenant

open Covenant.Text

/-- The URL that a reference means where it stands. -/
def Url.follow (base : Url) (reference : String) : Except UrlError Url :=
  let cs := Url.clean reference.toList
  let path := Url.pathChars base.path
  let origin := base.scheme.toList ++ ':' :: (match base.authority with
    | some a => '/' :: '/' :: Url.Authority.chars a
    | none => [])
  let directory := (path.reverse.dropWhile (· ≠ '/')).reverse
  let whole : List Char := match cs with
    | '/' :: '/' :: _ => base.scheme.toList ++ ':' :: cs
    | '/' :: _ => origin ++ cs
    | '?' :: _ => origin ++ path ++ cs
    | '#' :: _ => origin ++ path ++ Url.marked '?' base.query ++ cs
    | [] => origin ++ path ++ Url.marked '?' base.query
    | _ => if (Url.splitScheme? cs).isSome then cs else origin ++ directory ++ cs
  Url.parse (String.ofList whole)

/-- The URL without user, password and fragment. -/
def Url.bare (u : Url) : Url :=
  { u with
    authority := u.authority.map fun a => { a with userName := "", password := "" }
    fragment := none }

namespace Outgoing

/-- The headers that describe a body. -/
def bodyHeaders : List String :=
  ["transfer-encoding", "content-encoding", "content-type", "content-length"]

/-- The headers that are meant for one service only. -/
def privateHeaders : List String :=
  ["authorization", "cookie", "cookie2", "proxy-authorization", "www-authenticate"]

def withoutHeaders (r : Outgoing) (names : List String) : Outgoing :=
  { r with headers := r.headers.filter fun h => !names.contains h.1 }

/-- A request for another URL. It says where it comes from, and does not take private headers to another
service. -/
def sentTo (r : Outgoing) (url : Url) : Outgoing :=
  let sameService := r.url.authority.map Authority.host == url.authority.map Authority.host &&
    r.url.effectivePort? == url.effectivePort?
  let r' := if sameService then r else r.withoutHeaders privateHeaders
  let referer := if r.url.scheme = "https" ∧ url.scheme = "http" then []
    else [("referer", r.url.bare.text)]
  { r'.withoutHeaders ["referer"] with
    url := url
    headers := (r'.withoutHeaders ["referer"]).headers ++ referer }

/-- A request that only fetches. -/
def fetching (r : Outgoing) : Outgoing :=
  { r.withoutHeaders bodyHeaders with
    method := if r.method = .head then .head else .get
    body := none }

/-- The request that a response sends the client on with. -/
def redirected? (r : Outgoing) (received : Received) : Option Outgoing :=
  let moved := [301, 302, 303].contains received.status
  if moved || [307, 308].contains received.status then
    match (received.header? "location").map r.url.follow with
    | some (.ok url) => some ((if moved then r.fetching else r).sentTo url)
    | _ => none
  else none

end Outgoing

/-- Greatest number of redirections in an exchange. -/
def redirectLimit : Nat := 10

/-- An exchange that follows so many redirections. -/
def exchangeWith [Monad m] (send : Outgoing → m (Except ExchangeError Received)) (hops : Nat)
    (r : Outgoing) : m (Except ExchangeError Reply) := do
  match ← send r with
  | .error e => return .error e
  | .ok received =>
    match r.redirected? received, hops with
    | none, _ => return .ok received.reply
    | some _, 0 => return .error (.interrupted "too many redirects")
    | some next, hops + 1 => exchangeWith send hops next

end Covenant
