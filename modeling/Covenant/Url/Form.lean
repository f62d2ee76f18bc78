import Covenant.Text.Case
import Covenant.Text.Split
import Covenant.Url.Percent

/-!
# Form data in queries

Pairs of names and values in the format `application/x-www-form-urlencoded`.

* `Form.encode`: pairs as text; only ASCII letters, digits and `*-._` stand for themselves, and a plus
  for a space;
* `Form.decode`: the pairs of a text.
-/

namespace Covenant.Form

open Covenant.Text

/-- The characters that stand for themselves. -/
def keeps (c : Char) : Bool := isAlphanumeric c || c = '*' || c = '-' || c = '.' || c = '_'

/-- A character of a name or value. -/
def encodeChar (c : Char) : List Char :=
  if c = ' ' then ['+'] else Percent.encodeChar keeps c

/-- A name or value. -/
def encodePart (s : String) : List Char := s.toList.flatMap encodeChar

/-- A name with its value. -/
def encodePair (p : String × String) : List Char :=
  encodePart p.1 ++ '=' :: encodePart p.2

/-- Pairs behind what is already there. -/
def append (cs : List Char) : List (String × String) → List Char
  | [] => cs
  | p :: ps => append (if cs.isEmpty then encodePair p else cs ++ '&' :: encodePair p) ps

/-- Pairs as text. -/
def encode (pairs : List (String × String)) : List Char := append [] pairs

/-- The text that a name or value stands for. -/
def decodePart (cs : List Char) : String :=
  String.ofList (decodeLossy (Percent.decode (cs.map fun c => if c = '+' then ' ' else c)))

/-- A name with its value, which is empty without an equals sign. -/
def decodePair (cs : List Char) : String × String :=
  match splitFirst? '=' cs with
  | some (name, value) => (decodePart name, decodePart value)
  | none => (decodePart cs, "")

/-- The pairs of a text. -/
def decode (cs : List Char) : List (String × String) :=
  ((splitAt '&' cs).filter fun p => !p.isEmpty).map decodePair

end Covenant.Form
