import Covenant.Url.Form
import Covenant.Url.Host

/-!
# URLs

Absolute URLs, read by the rules of the URL standard. The text is cleaned and cut into its parts first; each
part is then read on its own.

* `Url`: scheme, authority, path, query and fragment, the texts in encoded form;
* `Url.parse`: the URL of a text;
* `Url.text`: the text of a URL;
* `Url.appendPairs`: pairs of names and values at the end of the query.
-/

namespace Covenant

open Covenant.Text

/-- What names the service: user, host and port. The port is left out where it is the usual one. -/
structure Authority where
  userName : String
  password : String
  host : Host
  port : Option UInt16
deriving DecidableEq, Repr

/-- The path of a URL. -/
inductive UrlPath where
  /-- The text of a URL that has no hierarchy. -/
  | flat (text : String)
  | segments (names : List String)
deriving DecidableEq, Repr

/-- An absolute URL. -/
structure Url where
  scheme : String
  authority : Option Authority
  path : UrlPath
  query : Option String
  fragment : Option String
deriving DecidableEq, Repr

namespace Url

/-! ## Schemes -/

/-- How URLs of a scheme are read. -/
inductive SchemeKind where
  | special | file | other
deriving DecidableEq, Repr

/-- The usual port of a scheme. -/
def usualPort? (scheme : String) : Option UInt16 :=
  if scheme = "http" ∨ scheme = "ws" then some 80
  else if scheme = "https" ∨ scheme = "wss" then some 443
  else if scheme = "ftp" then some 21
  else none

def kindOf (scheme : String) : SchemeKind :=
  if scheme = "file" then .file
  else if (usualPort? scheme).isSome then .special
  else .other

/-- The characters of a scheme. -/
def isSchemeChar (c : Char) : Bool := isAlphanumeric c || c = '+' || c = '-' || c = '.'

/-- Whether a character is an ASCII letter. -/
def isLetter (c : Char) : Bool := isAlphanumeric c && !isDigit c

/-- The scheme in lower case, and the text behind its colon. -/
def splitScheme? (cs : List Char) : Option (List Char × List Char) :=
  match cs.dropWhile isSchemeChar with
  | ':' :: rest =>
    if cs.head?.any isLetter then some ((cs.takeWhile isSchemeChar).map lowerAscii, rest) else none
  | _ => none

/-! ## Cutting the text -/

/-- Blanks and control characters. -/
def isMargin (c : Char) : Bool := c.toNat ≤ 0x20

/-- A text without margins, tabs and line breaks. -/
def clean (cs : List Char) : List Char :=
  let cs := ((cs.dropWhile isMargin).reverse.dropWhile isMargin).reverse
  cs.filter fun c => c ≠ '\t' && c ≠ '\n' && c ≠ '\r'

/-- Whether a character is a slash. Special schemes take backslashes as slashes. -/
def isSlash (kind : SchemeKind) (c : Char) : Bool := c = '/' || (c = '\\' && kind != .other)

/-- Whether a character ends the authority. -/
def endsAuthority (kind : SchemeKind) (c : Char) : Bool := isSlash kind c || c = '?' || c = '#'

/-- The parts of a text around the first of a character: what stands before, and what behind it. -/
def cut (sep : Char) (cs : List Char) : List Char × Option (List Char) :=
  match splitFirst? sep cs with
  | some (before, behind) => (before, some behind)
  | none => (cs, none)

/-! ## Authority -/

/-- The texts before and behind the last at sign. -/
def splitUser (cs : List Char) : Option (List Char) × List Char :=
  let host := (cs.reverse.takeWhile (· ≠ '@')).reverse
  if host.length = cs.length then (none, cs) else (some (cs.take (cs.length - host.length - 1)), host)

/-- The host and the text behind the first colon outside of brackets. -/
def splitPort (inside : Bool) : List Char → List Char × Option (List Char)
  | [] => ([], none)
  | c :: cs =>
    if c = ':' && !inside then ([], some cs)
    else
      let (host, port) := splitPort (if c = '[' then true else if c = ']' then false else inside) cs
      (c :: host, port)

/-- A port of decimal digits; none if there are no digits or it is the usual one. -/
def readPort (scheme : String) (cs : List Char) : Except UrlError (Option UInt16) :=
  if cs.isEmpty then .ok none
  else
    match (Decimal.naturalOf? cs).filter (· < 0x10000) with
    | some n => .ok (if usualPort? scheme = some (UInt16.ofNat n) then none else some (UInt16.ofNat n))
    | none => .error .invalidPort

/-- A user name or password in encoded form. -/
def userPart (cs : List Char) : String :=
  String.ofList (Percent.encode (Percent.keepOutside Percent.inUserInfo) cs)

/-- The authority of a text. -/
def readAuthority (scheme : String) (cs : List Char) : Except UrlError Authority := do
  let (user, rest) := splitUser cs
  let (userName, password) := cut ':' (user.getD [])
  let (userName, password) := (userPart userName, userPart (password.getD []))
  let (host, portText) := splitPort false rest
  if host.isEmpty then
    if kindOf scheme != .other || portText.isSome || userName ≠ "" || password ≠ "" then
      .error .emptyHost
    else return ⟨"", "", .empty, none⟩
  else
    let host ← if kindOf scheme = .other then Host.parseOpaque host else Host.parse host
    let port ← readPort scheme (portText.getD [])
    return ⟨userName, password, host, port⟩

/-- The authority of a URL for files: a host, where that is not this one. -/
def readFileAuthority (cs : List Char) : Except UrlError Authority := do
  if cs.isEmpty then return ⟨"", "", .empty, none⟩
  let host ← Host.parse cs
  return ⟨"", "", if host = .name "localhost" then .empty else host, none⟩

/-! ## Path -/

/-- A segment that stands for the directory itself. -/
def isHere (cs : List Char) : Bool :=
  let s := String.ofList (cs.map lowerAscii)
  s = "." || s = "%2e"

/-- A segment that stands for the directory above. -/
def isAbove (cs : List Char) : Bool :=
  let s := String.ofList (cs.map lowerAscii)
  s = ".." || s = ".%2e" || s = "%2e." || s = "%2e%2e"

/-- A segment in encoded form. -/
def segment (cs : List Char) : String :=
  String.ofList (Percent.encode (Percent.keepOutside Percent.inPath) cs)

/-- The segments with those for directories resolved. A path that ends with one of these ends with a slash. -/
def resolve (done : List String) : List (List Char) → List String
  | [] => done
  | s :: ss =>
    let done := if isAbove s then done.dropLast else if isHere s then done else done ++ [segment s]
    if ss.isEmpty && (isAbove s || isHere s) then done ++ [""] else resolve done ss

/-- The segments of a path behind its first slash. -/
def segments (kind : SchemeKind) (cs : List Char) : List String :=
  resolve [] (splitAt '/' (cs.map fun c => if isSlash kind c then '/' else c))

/-- The segments without empty ones at the start, but at least one. -/
def dropEmptySegments : List String → List String
  | "" :: s :: ss => dropEmptySegments (s :: ss)
  | ss => ss

/-- The path of a text behind the authority. Special schemes always have one. -/
def pathOf (kind : SchemeKind) (cs : List Char) : UrlPath :=
  let behind := if cs.head?.any (isSlash kind) then cs.tail else cs
  match kind with
  | .special => .segments (segments kind behind)
  | .file => .segments (dropEmptySegments (segments kind behind))
  | .other => .segments (if cs.isEmpty then [] else segments kind behind)

/-! ## Reading -/

/-- A query in encoded form. -/
def encodeQuery (kind : SchemeKind) (cs : List Char) : String :=
  let excluded := if kind = .other then Percent.inQuery else Percent.inSpecialQuery
  String.ofList (Percent.encode (Percent.keepOutside excluded) cs)

/-- A fragment in encoded form. -/
def encodeFragment (cs : List Char) : String :=
  String.ofList (Percent.encode (Percent.keepOutside Percent.inFragment) cs)

/-- A URL of its authority and the text behind that. -/
def ofParts (scheme : String) (authority : Option Authority) (path : List Char → UrlPath)
    (rest : List Char) : Url :=
  let (rest, fragment) := cut '#' rest
  let (pathText, query) := cut '?' rest
  ⟨scheme, authority, path pathText, query.map (encodeQuery (kindOf scheme)), fragment.map encodeFragment⟩

/-- The authority at the start of a text, and the text behind it. -/
def withAuthority (scheme : String) (cs : List Char) (read : List Char → Except UrlError Authority) :
    Except UrlError Url := do
  let kind := kindOf scheme
  let ends := endsAuthority kind
  let authority ← read (cs.takeWhile fun c => !ends c)
  return ofParts scheme (some authority) (pathOf kind) (cs.dropWhile fun c => !ends c)

/-- A path without hierarchy in encoded form. -/
def flatPath (cs : List Char) : UrlPath :=
  .flat (String.ofList (Percent.encode (Percent.keepOutside []) cs))

/-- The URL of a scheme and the text behind its colon. -/
def ofScheme (scheme : String) (cs : List Char) : Except UrlError Url :=
  match kindOf scheme with
  | .special => withAuthority scheme (cs.dropWhile (isSlash .special)) (readAuthority scheme)
  | .file =>
    if (cs.take 2).length = 2 ∧ (cs.take 2).all (isSlash .file) then
      withAuthority scheme (cs.drop 2) readFileAuthority
    else .ok (ofParts scheme (some ⟨"", "", .empty, none⟩) (pathOf .file) cs)
  | .other =>
    match cs with
    | '/' :: '/' :: cs => withAuthority scheme cs (readAuthority scheme)
    | '/' :: cs => .ok (ofParts scheme none (fun p => .segments (segments .other p)) cs)
    | cs => .ok (ofParts scheme none flatPath cs)

/-- The URL of a text. -/
def parse (s : String) : Except UrlError Url :=
  match splitScheme? (clean s.toList) with
  | some (scheme, rest) => ofScheme (String.ofList scheme) rest
  | none => .error .noScheme

/-! ## Writing -/

/-- The authority of a URL. -/
def Authority.chars (a : Authority) : List Char :=
  let password := if a.password = "" then [] else ':' :: a.password.toList
  let user := a.userName.toList ++ password
  let port := match a.port with
    | some n => ':' :: Decimal.digits n.toNat
    | none => []
  (if user.isEmpty then [] else user ++ ['@']) ++ a.host.chars ++ port

/-- The path of a URL. -/
def pathChars : UrlPath → List Char
  | .flat s => s.toList
  | .segments names => names.flatMap fun s => '/' :: s.toList

/-- A mark with a text behind it, where there is one. -/
def marked (mark : Char) (s : Option String) : List Char :=
  match s with
  | some s => mark :: s.toList
  | none => []

/-- The text of a URL. A path that would look like an authority is set off by a dot. -/
def text (u : Url) : String :=
  let path := pathChars u.path
  let hier := match u.authority with
    | some a => '/' :: '/' :: Authority.chars a ++ path
    | none => (if ['/', '/'].isPrefixOf path then ['/', '.'] else []) ++ path
  String.ofList (u.scheme.toList ++ ':' :: hier ++ marked '?' u.query ++ marked '#' u.fragment)

/-- The port of the service. -/
def effectivePort? (u : Url) : Option UInt16 :=
  (u.authority.bind Authority.port) <|> usualPort? u.scheme

/-- A URL with pairs of names and values at the end of the query. -/
def appendPairs (u : Url) (pairs : List (String × String)) : Url :=
  { u with query := some (String.ofList (Form.append (u.query.getD "").toList pairs)) }

end Url

end Covenant
