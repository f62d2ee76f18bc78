import Covenant.Decimal
import Covenant.Url.Domain
import Covenant.Url.Percent

/-!
# Hosts

* `Host`: a name or an address of 32 or 128 bits, with its text;
* `Host.ipv4?`, `Host.ipv6?`: addresses in their usual spellings;
* `Host.parse?`: the host of a text in a URL with a special scheme;
* `Host.parseOpaque?`: the host of a text in any other URL.
-/

namespace Covenant

open Covenant.Text

/-- Why a text is no URL. -/
inductive UrlError where
  | noScheme | emptyHost | invalidDomain | invalidHostCharacter | invalidPort | invalidIpv4 | invalidIpv6
deriving DecidableEq, Repr

/-- The message of an error. -/
def UrlError.message : UrlError → String
  | .noScheme => "relative URL without a base"
  | .emptyHost => "empty host"
  | .invalidDomain => "invalid international domain name"
  | .invalidHostCharacter => "invalid domain character"
  | .invalidPort => "invalid port number"
  | .invalidIpv4 => "invalid IPv4 address"
  | .invalidIpv6 => "invalid IPv6 address"

/-- A host. The pieces of a long address have 16 bits each. -/
inductive Host where
  | name (text : String)
  | ipv4 (address : Nat)
  | ipv6 (pieces : List Nat)
deriving DecidableEq, Repr

namespace Host

/-- The host of a URL that names none. -/
def empty : Host := .name ""

/-! ## Addresses of 32 bits -/

/-- The value of digits in a base. -/
def valueIn? (base : Nat) (cs : List Char) : Option Nat :=
  cs.foldlM (fun n c => (Percent.hexValue? c).bind fun d => if d < base then some (base * n + d) else none) 0

/-- A number in an address: decimal, octal behind a zero, or hexadecimal behind `0x`. -/
def addressNumber? : List Char → Option Nat
  | [] => none
  | '0' :: 'x' :: cs => valueIn? 16 cs
  | '0' :: 'X' :: cs => valueIn? 16 cs
  | '0' :: c :: cs => valueIn? 8 (c :: cs)
  | cs => valueIn? 10 cs

/-- The labels of a name without an empty one at the end. -/
def labels (cs : List Char) : List (List Char) :=
  let parts := splitAt '.' cs
  if 1 < parts.length && parts.getLast? == some [] then parts.dropLast else parts

/-- Whether the last label of a name is a number, so that the name has to be an address. -/
def endsInNumber (cs : List Char) : Bool :=
  match (labels cs).getLast? with
  | some label => (!label.isEmpty && label.all isDigit) || (addressNumber? label).isSome
  | none => false

/-- The address of up to four numbers: octets, but the last one fills the remaining octets. -/
def ipv4? (cs : List Char) : Option Nat := do
  let numbers ← (labels cs).mapM addressNumber?
  let last ← numbers.getLast?
  let octets := numbers.dropLast
  if octets.length < 4 ∧ octets.all (· < 256) ∧ last < Nat.pow 256 (4 - octets.length) then
    some (octets.foldl (fun n b => 256 * n + b) 0 * Nat.pow 256 (4 - octets.length) + last)
  else none

/-- The octets of an address in decimal. -/
def ipv4Text (n : Nat) : List Char :=
  joinWith '.' ([24, 16, 8, 0].map fun k => Decimal.digits (n / Nat.pow 2 k % 256))

/-! ## Addresses of 128 bits -/

/-- A piece of one to four hexadecimal digits. -/
def piece? (cs : List Char) : Option Nat :=
  if cs.isEmpty || 4 < cs.length then none else valueIn? 16 cs

/-- An octet in decimal, without leading zeros. -/
def octet? (cs : List Char) : Option Nat :=
  match cs with
  | '0' :: _ :: _ => none
  | cs => if 3 < cs.length then none else (Decimal.naturalOf? cs).filter (· < 256)

/-- Four octets as two pieces. -/
def octetPieces? (cs : List Char) : Option (List Nat) := do
  match ← (splitAt '.' cs).mapM octet? with
  | [a, b, c, d] => some [256 * a + b, 256 * c + d]
  | _ => none

/-- The pieces between colons; four octets may stand for the last two. -/
def pieces? (octets : Bool) : List (List Char) → Option (List Nat)
  | [] => some []
  | [p] =>
    match piece? p with
    | some n => some [n]
    | none => if octets then octetPieces? p else none
  | p :: ps => do some ((← piece? p) :: (← pieces? octets ps))

/-- The parts of a text between colons, none if it is empty. -/
def colonParts (cs : List Char) : List (List Char) :=
  if cs.isEmpty then [] else splitAt ':' cs

/-- What stands before and behind the first pair of colons. -/
def splitGap? : List Char → Option (List Char × List Char)
  | [] => none
  | ':' :: ':' :: cs => some ([], cs)
  | c :: cs => (splitGap? cs).map fun (before, behind) => (c :: before, behind)

/-- The eight pieces of an address. A pair of colons stands for all the zeros that are missing. -/
def ipv6? (cs : List Char) : Option (List Nat) :=
  match splitGap? cs with
  | none => (pieces? true (colonParts cs)).filter (·.length == 8)
  | some (before, behind) => do
    let before ← pieces? false (colonParts before)
    let behind ← pieces? true (colonParts behind)
    let count := before.length + behind.length
    if count < 8 then some (before ++ List.replicate (8 - count) 0 ++ behind) else none

/-- The length of the run of zeros at the start. -/
def zeroRun (ps : List Nat) : Nat := (ps.takeWhile (· == 0)).length

/-- Where the first of the longest runs of at least two zeros starts, and its length. -/
def longestGap (ps : List Nat) : Option (Nat × Nat) :=
  (List.range ps.length).foldl (fun best i =>
    let run := zeroRun (ps.drop i)
    if (best.map Prod.snd).getD 1 < run then some (i, run) else best) none

/-- The lower-case hexadecimal digits of a piece. -/
def pieceText (n : Nat) : List Char := Nat.toDigits 16 n

/-- The pieces between colons, the longest run of zeros as a pair of colons. -/
def ipv6Text (ps : List Nat) : List Char :=
  let texts (ps : List Nat) : List Char := joinWith ':' (ps.map pieceText)
  match longestGap ps with
  | none => texts ps
  | some (start, run) => texts (ps.take start) ++ ':' :: ':' :: texts (ps.drop (start + run))

/-! ## Hosts in URLs -/

/-- The text of a host in a URL. -/
def chars : Host → List Char
  | .name s => s.toList
  | .ipv4 n => ipv4Text n
  | .ipv6 ps => '[' :: ipv6Text ps ++ [']']

/-- The text of a host. -/
def text (h : Host) : String := String.ofList h.chars

/-- The host of a text that starts with a bracket. -/
def bracketed (cs : List Char) : Except UrlError Host :=
  if cs.getLast? = some ']' then
    match ipv6? (cs.tail.dropLast) with
    | some ps => .ok (.ipv6 ps)
    | none => .error .invalidIpv6
  else .error .invalidIpv6

/-- The host of a text in a URL with a special scheme: a name that ends in a number is an address. -/
def parse (cs : List Char) : Except UrlError Host :=
  if cs.head? = some '[' then bracketed cs
  else
    match (decode? (Percent.decode cs)).bind Domain.ascii? with
    | none => .error .invalidDomain
    | some [] => .error .emptyHost
    | some ascii =>
      if endsInNumber ascii then
        match ipv4? ascii with
        | some n => .ok (.ipv4 n)
        | none => .error .invalidIpv4
      else .ok (.name (String.ofList ascii))

/-- The characters that no host has. -/
def isForbidden (c : Char) : Bool :=
  "\x00\t\n\r #/:<>?@[\\]^|".toList.contains c

/-- The host of a text in a URL without a special scheme. -/
def parseOpaque (cs : List Char) : Except UrlError Host :=
  if cs.head? = some '[' then bracketed cs
  else if cs.any isForbidden then .error .invalidHostCharacter
  else .ok (.name (String.ofList (Percent.encode (Percent.keepOutside []) cs)))

end Host

end Covenant
