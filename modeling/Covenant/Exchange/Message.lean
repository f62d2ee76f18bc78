import Covenant.Exchange.Outgoing
import Covenant.Reply
import Covenant.Text.Base64
import Covenant.Text.Blank
import Covenant.Text.Charset

/-!
# Messages of HTTP/1.1

* `Outgoing.octets`: a request on its way to the service;
* `Received`: a response, whose body is octets;
* `Received.ofOctets`: the response in all that the service sent;
* `Received.reply`: the response as contracts see it.

A body ends where its length or its last chunk says, or else where the service stops sending.
-/

namespace Covenant

open Covenant.Text

/-! ## Requests -/

/-- The text that names the service in a request. -/
def Url.hostText (u : Url) : String :=
  match u.authority with
  | some a => String.ofList (Url.Authority.chars { a with userName := "", password := "" })
  | none => ""

/-- The part of a URL that the service itself looks at. -/
def Url.targetText (u : Url) : String :=
  let path := match Url.pathChars u.path with
    | [] => ['/']
    | cs => cs
  String.ofList (path ++ Url.marked '?' u.query)

/-- The header for the user and password of a URL. -/
def Url.credentials (u : Url) : List (String × String) :=
  match u.authority with
  | some a =>
    if a.userName.isEmpty && a.password.isEmpty then []
    else
      let plain (s : String) := Percent.decode s.toList
      let octets := plain a.userName ++ encodeChar ':' ++ plain a.password
      [("authorization", "Basic " ++ String.ofList (base64 octets))]
  | none => []

/-- A request on its way to the service. The service is asked to close the connection behind its
response. -/
def Outgoing.octets (r : Outgoing) : List UInt8 :=
  let body := encode (r.body.getD "").toList
  let length := if r.body.isSome then [("content-length", Decimal.ofNat body.length)] else []
  let headers := ("host", r.url.hostText) :: r.headers ++ r.url.credentials ++ length ++
    [("connection", "close")]
  let start := r.method.name ++ " " ++ r.url.targetText ++ " HTTP/1.1\r\n"
  let lines := headers.map fun h => h.1 ++ ": " ++ h.2 ++ "\r\n"
  encode (start ++ String.join lines ++ "\r\n").toList ++ body

/-! ## Responses -/

/-- A response. The names of headers are in lower case. -/
structure Received where
  status : UInt16
  headers : List (String × String)
  body : List UInt8

/-- The octets before and behind the first empty line. -/
def splitHead? : List UInt8 → Option (List UInt8 × List UInt8)
  | 13 :: 10 :: 13 :: 10 :: rest => some ([], rest)
  | b :: bs => (splitHead? bs).map fun (head, rest) => (b :: head, rest)
  | [] => none

/-- The status in the first line of a response. -/
def statusOfLine? (line : List Char) : Option UInt16 :=
  match splitAt ' ' line with
  | version :: code :: _ =>
    if "HTTP/1.".toList.isPrefixOf version && code.length = 3 then
      (Decimal.naturalOf? code).map Nat.toUInt16
    else none
  | _ => none

/-- The header in a line. -/
def headerOfLine? (line : List Char) : Option (String × String) :=
  (splitFirst? ':' line).map fun (name, value) =>
    (lowerText (String.ofList name), trim (String.ofList value))

/-- The chunks of a body, put together. -/
def joinChunks? (octets : List UInt8) : Option (List UInt8) :=
  let line := octets.takeWhile (· ≠ 10)
  let digits := (decodeLossy line).takeWhile fun c => c ≠ ';' ∧ c ≠ '\r' ∧ c ≠ ' '
  let rest := octets.drop (line.length + 1)
  match if digits.isEmpty then none else Host.valueIn? 16 digits with
  | none => none
  | some 0 => some []
  | some (n + 1) =>
    if octets.length ≤ rest.length ∨ rest.length < n + 1 then none
    else (joinChunks? (rest.drop (n + 3))).map fun more => rest.take (n + 1) ++ more
termination_by octets.length
decreasing_by
  simp only [List.length_drop]
  omega

namespace Received

/-- The value of a header. -/
def header? (r : Received) (name : String) : Option String :=
  (r.headers.find? fun h => h.1 == name).map Prod.snd

/-- The body of a response, given what was sent behind its headers. -/
def body? (r : Received) (isHead : Bool) (rest : List UInt8) : Option (List UInt8) :=
  if isHead || r.status = 204 || r.status = 304 then some []
  else if (r.header? "transfer-encoding").any fun v => lowerText v == "chunked" then joinChunks? rest
  else match r.header? "content-length" with
    | none => some rest
    | some length =>
      match Decimal.naturalOf? length.toList with
      | some n => if n ≤ rest.length then some (rest.take n) else none
      | none => none

/-- The error of an exchange that broke off. -/
def brokenOff : ExchangeError := .interrupted "connection closed before message completed"

/-- The response in all that the service sent. Responses that only announce another one are passed over. -/
def ofOctets (isHead : Bool) (octets : List UInt8) : Except ExchangeError Received :=
  match _h : splitHead? octets with
  | none => .error brokenOff
  | some (head, rest) =>
    let lines := (splitAt '\n' (decodeLossy head)).map fun l => l.filter (· ≠ '\r')
    match lines with
    | [] => .error brokenOff
    | first :: lines =>
      match statusOfLine? first with
      | none => .error (.interrupted "invalid HTTP version parsed")
      | some status =>
        if status < 200 ∧ rest.length < octets.length then ofOctets isHead rest
        else
          let r : Received := ⟨status, lines.filterMap headerOfLine?, []⟩
          match r.body? isHead rest with
          | some body => .ok { r with body := body }
          | none => .error brokenOff
termination_by octets.length

/-- The text of a body, in the character set that its content type names. -/
def text (r : Received) : String :=
  String.ofList (decodeMarked ((r.header? "content-type").getD "") r.body)

/-- The response as contracts see it. -/
def reply (r : Received) : Reply := ⟨r.status, r.headers, Reply.bodyOfText r.text⟩

end Received

end Covenant
