import Covenant.Json
import Covenant.Random
import Covenant.Text.Blank
import Covenant.Text.Split

/-!
# Placeholder tokens

A declared string may stand for something else than its text. It does so only if the whole string is a
token.

* `Wildcard`: `<anyString>`, `<anyNumber>` and `<anyBool>` accept any value of a kind;
* `Generator`: `<generate[…]>` is replaced by a random value when a contract is loaded;
* `escaped?`: a backslash in front of a complete token makes the string denote the token's text;
* `Generator.generate`: a random value of a token.
-/

namespace Covenant

open Covenant.Text Covenant.Decimal

/-! ## Wildcards -/

/-- A token that accepts every value of one kind. -/
inductive Wildcard where
  | anyString | anyNumber | anyBool
deriving DecidableEq, Repr

namespace Wildcard

/-- The text of the token. -/
def label : Wildcard → String
  | .anyString => "<anyString>"
  | .anyNumber => "<anyNumber>"
  | .anyBool => "<anyBool>"

/-- The kind of value that it accepts. -/
def kind : Wildcard → Json.Kind
  | .anyString => .string
  | .anyNumber => .number
  | .anyBool => .boolean

/-- The token that a text is. -/
def parse? (s : String) : Option Wildcard :=
  if s = "<anyString>" then some .anyString
  else if s = "<anyNumber>" then some .anyNumber
  else if s = "<anyBool>" then some .anyBool
  else none

/-- The token that a value is. -/
def ofJson? : Json → Option Wildcard
  | .string s => parse? s
  | _ => none

/-- Whether a value has the accepted kind. -/
def accepts (w : Wildcard) (v : Json) : Bool :=
  decide (v.kind = w.kind)

theorem parse?_label (w : Wildcard) : parse? w.label = some w := by
  cases w <;> decide

theorem parse?_eq_some_iff {s : String} {w : Wildcard} : parse? s = some w ↔ s = w.label := by
  constructor
  · intro h
    simp only [parse?] at h
    split at h
    · cases h; assumption
    · split at h
      · cases h; assumption
      · split at h
        · cases h; assumption
        · cases h
  · rintro rfl
    exact parse?_label w

end Wildcard

/-! ## Generators -/

/-- Length of a generated string when none is given. -/
def defaultLength : Nat := 10

/-- Greatest length of a generated string. -/
def maxLength : Nat := 65536

/-- Least generated number when none is given. -/
def defaultLow : Int64Value := ⟨1, by decide⟩

/-- Greatest generated number when none is given. -/
def defaultHigh : Int64Value := ⟨9999999, by decide⟩

/-- A range of integers of 64 bits. -/
structure Bounds where
  low : Int64Value
  high : Int64Value
  ordered : low.val ≤ high.val

/-- The range between two bounds, in whichever order they come. -/
def Bounds.ofEnds (a b : Int64Value) : Bounds :=
  if h : a.val ≤ b.val then ⟨a, b, h⟩ else ⟨b, a, by omega⟩

/-- What a generator token asks for. -/
inductive Generator where
  | string (length : Nat) (le : length ≤ maxLength)
  | number (bounds : Bounds)
  | bool
  | uuid

namespace Generator

/-- The kinds of generator tokens. -/
inductive Kind where
  | string | number | bool | uuid
deriving DecidableEq

/-- The word that names a kind. -/
def Kind.word : Kind → String
  | .string => "string"
  | .number => "number"
  | .bool => "bool"
  | .uuid => "uuid"

/-- The two parts of a segment around its first equals sign, trimmed and not empty. -/
def parameter? (cs : List Char) : Option (String × String) :=
  (splitFirst? '=' cs).bind fun (key, value) =>
    let key := trimList key
    let value := trimList value
    if key.isEmpty || value.isEmpty then none
    else some (String.ofList key, String.ofList value)

/-- The parameters of a list of segments, no key coming twice. -/
def parametersOf? : List (List Char) → Option (List (String × String))
  | [] => some []
  | seg :: segs => do
    let p ← parameter? seg
    let ps ← parametersOf? segs
    if ps.any (fun q => q.1 == p.1) then none else some (p :: ps)

/-- The parameters between the parentheses: blank, or segments separated by semicolons. -/
def parameters? (cs : List Char) : Option (List (String × String)) :=
  let cs := trimList cs
  if cs.isEmpty then some [] else parametersOf? (splitAt ';' cs)

/-- The value of a parameter, or a default where it is not given; `none` if it is not well formed. -/
def valueOr? (ps : List (String × String)) (key : String) (read : String → Option α) (default : α) :
    Option α :=
  match ps.find? (fun p => p.1 == key) with
  | some p => read p.2
  | none => some default

/-- The generator of a kind with parameters. -/
def ofParameters? (k : Kind) (ps : List (String × String)) : Option Generator :=
  match k with
  | .string =>
    if ps.all (fun p => p.1 == "length") then
      (valueOr? ps "length" (unsigned? 0xFFFFFFFFFFFFFFFF) defaultLength).bind fun n =>
        if h : n ≤ maxLength then some (.string n h) else none
    else none
  | .number =>
    if ps.all (fun p => p.1 == "min" || p.1 == "max") then do
      let low ← valueOr? ps "min" int64? defaultLow
      let high ← valueOr? ps "max" int64? defaultHigh
      return .number (.ofEnds low high)
    else none
  | .bool => if ps.isEmpty then some .bool else none
  | .uuid => if ps.isEmpty then some .uuid else none

/-- The text between the parentheses after a word: empty if there are none. -/
def enclosed? (word body : List Char) : Option (List Char) :=
  if body = word then some []
  else if (word ++ ['(']).isPrefixOf body then
    let inner := body.drop (word.length + 1)
    match inner.reverse with
    | ')' :: r => if r.any (fun c => c = '(' || c = ')') then none else some r.reverse
    | _ => none
  else none

/-- The text between the brackets of a token. -/
def body? (cs : List Char) : Option (List Char) :=
  let opening := "<generate[".toList
  if opening.isPrefixOf cs then
    match (cs.drop opening.length).reverse with
    | '>' :: ']' :: r => some r.reverse
    | _ => none
  else none

/-- The generator token that a text is. -/
def parse? (s : String) : Option Generator :=
  (body? s.toList).bind fun body =>
    [Kind.string, .number, .bool, .uuid].findSome? fun k =>
      (enclosed? k.word.toList body).bind fun inner =>
        (parameters? inner).bind (ofParameters? k)

/-! ## Random values -/

/-- The letters and digits that generated strings consist of. -/
def alphabet : List Char :=
  "ABCDEFGHIJKLMNOPQRSTUVWXYZabcdefghijklmnopqrstuvwxyz0123456789".toList

/-- The hexadecimal digits that identifiers consist of. -/
def hexAlphabet : List Char := "0123456789abcdef".toList

/-- A random hexadecimal digit. -/
def randomHex : Rand Char := do
  return hexAlphabet.getD (← Rand.below 15).val '0'

/-- A random identifier of version 4: the version digit is fixed, the digit of the variant is one of four. -/
def randomUuid : Rand String := do
  let a ← Rand.times 8 randomHex
  let b ← Rand.times 4 randomHex
  let c ← Rand.times 3 randomHex
  let v ← Rand.below 3
  let d ← Rand.times 3 randomHex
  let e ← Rand.times 12 randomHex
  return String.ofList (a ++ ['-'] ++ b ++ ['-', '4'] ++ c ++ ['-'] ++
    hexAlphabet.getD (8 + v.val) '8' :: d ++ ['-'] ++ e)

/-- A random integer of a range. -/
def randomNumber (b : Bounds) : Rand Json.Number := fun s =>
  have fits : Json.Fits (Rand.between b.low.val b.high.val s).1 := by
    have h := Rand.between_mem b.ordered s
    have := b.low.property
    have := b.high.property
    constructor <;> omega
  (.integer (Rand.between b.low.val b.high.val s).1 fits, (Rand.between b.low.val b.high.val s).2)

/-- A random value of a token. -/
def generate : Generator → Rand Json
  | .string n _ => do
    let cs ← Rand.times n (do return alphabet.getD (← Rand.below 61).val 'A')
    return .string (String.ofList cs)
  | .number b => do
    return .number (← randomNumber b)
  | .bool => do
    return .bool ((← Rand.below 1).val == 1)
  | .uuid => do
    return .string (← randomUuid)

end Generator

/-! ## Tokens and escapes -/

/-- Whether a text is a wildcard. -/
def isWildcard (s : String) : Bool := (Wildcard.parse? s).isSome

theorem isWildcard_label (w : Wildcard) : isWildcard w.label = true := by
  rw [isWildcard, Wildcard.parse?_label]
  rfl

/-- Whether a text is a generator token. -/
def isGenerator (s : String) : Bool := (Generator.parse? s).isSome

/-- The token behind a backslash, for a text that is a backslash and a complete token. -/
def escaped? (s : String) : Option String :=
  match s.toList with
  | '\\' :: cs =>
    let t := String.ofList cs
    if isWildcard t || isGenerator t then some t else none
  | _ => none

end Covenant
