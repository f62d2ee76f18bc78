import Covenant.Json
import Covenant.Decimal.Shortest

/-!
# Writing JSON text

* `Json.numberLayout`: doubles are written positionally from `0.00001` to below `1e16`, with a signed
  exponent otherwise;
* `Json.compact`: a value without blanks;
* `Json.pretty`: a value with one item or field a line, two blanks deeper for each level;
* `Json.render`: the text that a value has on the wire and in messages, where a string stands bare.
-/

namespace Covenant.Json

open Covenant.Decimal

/-- Layout of doubles in JSON text. -/
def numberLayout : Layout where
  leastPlaces := -4
  mostPlaces := 16
  plus := true

/-- The text of a number. -/
def Number.text : Number → String
  | .integer i _ => Decimal.ofInt i
  | .double x => numberLayout.text x

/-- A lower-case hexadecimal digit. -/
def hexDigit (n : Nat) : Char :=
  if n < 10 then Char.ofNat (48 + n) else Char.ofNat (87 + n)

/-- A character inside a string: quote, backslash and control characters are escaped. -/
def escapeChar (c : Char) : List Char :=
  match c with
  | '\x22' => ['\\', '\x22']
  | '\\' => ['\\', '\\']
  | '\x08' => ['\\', 'b']
  | '\x0c' => ['\\', 'f']
  | '\n' => ['\\', 'n']
  | '\r' => ['\\', 'r']
  | '\t' => ['\\', 't']
  | c =>
    if c.toNat < 0x20 then ['\\', 'u', '0', '0', hexDigit (c.toNat / 16), hexDigit (c.toNat % 16)]
    else [c]

/-- A string literal. -/
def quote (s : String) : String :=
  String.ofList ('\x22' :: s.toList.flatMap escapeChar ++ ['\x22'])

mutual
/-- A value without blanks. -/
def compact : Json → String
  | .null => "null"
  | .bool b => if b then "true" else "false"
  | .number n => n.text
  | .string s => quote s
  | .array items => "[" ++ compactItems items ++ "]"
  | .object fields => "\x7b" ++ compactFields fields ++ "\x7d"
def compactItems : List Json → String
  | [] => ""
  | [v] => v.compact
  | v :: vs => v.compact ++ "," ++ compactItems vs
def compactFields : List (String × Json) → String
  | [] => ""
  | [(k, v)] => quote k ++ ":" ++ v.compact
  | (k, v) :: fs => quote k ++ ":" ++ v.compact ++ "," ++ compactFields fs
end

/-- A line break and the blanks of a level. -/
def newline (level : Nat) : String :=
  String.ofList ('\n' :: List.replicate (2 * level) ' ')

mutual
/-- A value with its items and fields on lines of their own. -/
def prettyAt (level : Nat) : Json → String
  | .null => "null"
  | .bool b => if b then "true" else "false"
  | .number n => n.text
  | .string s => quote s
  | .array [] => "[]"
  | .array items => "[" ++ prettyItems (level + 1) items ++ newline level ++ "]"
  | .object [] => "\x7b\x7d"
  | .object fields => "\x7b" ++ prettyFields (level + 1) fields ++ newline level ++ "\x7d"
def prettyItems (level : Nat) : List Json → String
  | [] => ""
  | [v] => newline level ++ prettyAt level v
  | v :: vs => newline level ++ prettyAt level v ++ "," ++ prettyItems level vs
def prettyFields (level : Nat) : List (String × Json) → String
  | [] => ""
  | [(k, v)] => newline level ++ quote k ++ ": " ++ prettyAt level v
  | (k, v) :: fs => newline level ++ quote k ++ ": " ++ prettyAt level v ++ "," ++ prettyFields level fs
end

/-- A value with one item or field a line. -/
def pretty (v : Json) : String := prettyAt 0 v

/-- Strings stand bare, any other value as compact text. -/
def render : Json → String
  | .string s => s
  | v => v.compact

end Covenant.Json
