import Covenant.Text.Utf8

/-!
# Percent encoding

* `Percent.encode`: a text with the characters that may not stand for themselves as octets in hexadecimal;
* `Percent.decode`: the octets of a text with encoded octets;
* the characters that each part of a URL excludes.
-/

namespace Covenant.Percent

open Covenant.Text

/-- An upper-case hexadecimal digit. -/
def hexChar (n : Nat) : Char := Char.ofNat (if n < 10 then 48 + n else 55 + n)

/-- The value of a hexadecimal digit. -/
def hexValue? (c : Char) : Option Nat :=
  let n := c.toNat
  if 48 ≤ n ∧ n ≤ 57 then some (n - 48)
  else if 65 ≤ n ∧ n ≤ 70 then some (n - 55)
  else if 97 ≤ n ∧ n ≤ 102 then some (n - 87)
  else none

theorem hexValue?_hexChar {n : Nat} (h : n < 16) : hexValue? (hexChar n) = some n := by
  have hall : ∀ m ∈ List.range 16, hexValue? (hexChar m) = some m := by decide
  exact hall n (List.mem_range.2 h)

/-! ## Encoding -/

/-- An encoded octet. -/
def octet (b : UInt8) : List Char := ['%', hexChar (b.toNat / 16), hexChar (b.toNat % 16)]

/-- A character, encoded unless it is kept. Characters outside ASCII are never kept. -/
def encodeChar (keep : Char → Bool) (c : Char) : List Char :=
  if c.toNat < 0x80 && keep c then [c] else (Text.encodeChar c).flatMap octet

/-- A text with the characters encoded that are not kept. -/
def encode (keep : Char → Bool) (cs : List Char) : List Char :=
  cs.flatMap (encodeChar keep)

/-! ## Decoding -/

/-- The octets of a text. A percent sign without two digits behind it stands for itself. -/
def decode : List Char → List UInt8
  | [] => []
  | '%' :: a :: b :: cs =>
    match hexValue? a, hexValue? b with
    | some x, some y => (16 * x + y).toUInt8 :: decode cs
    | _, _ => 0x25 :: decode (a :: b :: cs)
  | c :: cs => Text.encodeChar c ++ decode cs

/-! ## The parts of a URL -/

/-- The printable characters of ASCII that are not excluded. -/
def keepOutside (excluded : List Char) (c : Char) : Bool :=
  0x20 ≤ c.toNat && c.toNat < 0x7F && !excluded.contains c

/-- What a fragment excludes. -/
def inFragment : List Char := [' ', '\x22', '<', '>', '\x60']

/-- What a segment of a path excludes. -/
def inPath : List Char := inFragment ++ ['#', '?', '\x7b', '\x7d']

/-- What a user name or password excludes. -/
def inUserInfo : List Char := inPath ++ ['/', ':', ';', '=', '@', '[', '\\', ']', '^', '|']

/-- What a query excludes. -/
def inQuery : List Char := [' ', '\x22', '#', '<', '>']

/-- What the query of a special scheme excludes. -/
def inSpecialQuery : List Char := inQuery ++ ['\x27']

end Covenant.Percent
