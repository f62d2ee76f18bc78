import Covenant.Text.Blank
import Covenant.Text.Case
import Covenant.Text.Split
import Covenant.Text.Utf8

/-!
# Character sets

Received text as octets, in the character set that its content type names.

* `Charset.ofLabel?`: the character set with a label;
* `Charset.ofContentType`: the one that a content type names;
* `Charset.marked?`: the one that the first octets name themselves;
* `decodeMarked`: the text of octets. The mark comes before the content type and is no text.

Octets that are no character stand for U+FFFD.
-/

namespace Covenant.Text

/-- The character sets that received text is read in. -/
inductive Charset where
  | utf8
  | utf16 (bigEndian : Bool)
  | windows1252
deriving DecidableEq

/-! ## Decoding -/

/-- The characters of the octets 80 to 9F. -/
def windowsTable : List Nat :=
  [0x20AC, 0x81, 0x201A, 0x192, 0x201E, 0x2026, 0x2020, 0x2021, 0x2C6, 0x2030, 0x160, 0x2039, 0x152, 0x8D,
    0x17D, 0x8F, 0x90, 0x2018, 0x2019, 0x201C, 0x201D, 0x2022, 0x2013, 0x2014, 0x2DC, 0x2122, 0x161, 0x203A,
    0x153, 0x9D, 0x17E, 0x178]

/-- The character of an octet of Windows-1252, which is that of Latin-1 outside the table. -/
def windowsChar (b : UInt8) : Char :=
  let n := b.toNat
  Char.ofNat (if 0x80 ≤ n then (windowsTable[n - 0x80]?).getD n else n)

/-- The units of two octets. An odd octet at the end is a unit of its own that is no character. -/
def unitsOf (bigEndian : Bool) : List UInt8 → List Nat
  | b :: c :: bs =>
    (if bigEndian then b.toNat * 0x100 + c.toNat else c.toNat * 0x100 + b.toNat) :: unitsOf bigEndian bs
  | [_] => [0xDC00]
  | [] => []

/-- The characters of units: two for one beyond U+FFFF, a high one before a low one. -/
def decodeUnits : List Nat → List Char
  | [] => []
  | [u] => [if 0xD800 ≤ u ∧ u < 0xE000 then Char.ofNat 0xFFFD else Char.ofNat u]
  | u :: v :: us =>
    if 0xD800 ≤ u ∧ u < 0xDC00 ∧ 0xDC00 ≤ v ∧ v < 0xE000 then
      Char.ofNat (0x10000 + (u - 0xD800) * 0x400 + (v - 0xDC00)) :: decodeUnits us
    else (if 0xD800 ≤ u ∧ u < 0xE000 then Char.ofNat 0xFFFD else Char.ofNat u) :: decodeUnits (v :: us)

namespace Charset

/-- The text of octets in a character set. -/
def decode : Charset → List UInt8 → List Char
  | .utf8, bs => decodeLossy bs
  | .utf16 bigEndian, bs => decodeUnits (unitsOf bigEndian bs)
  | .windows1252, bs => bs.map windowsChar

/-! ## Names -/

/-- The character set with a label. Case does not matter, nor blanks around it. -/
def ofLabel? (label : String) : Option Charset :=
  let label := lowerText (trim label)
  if ["utf-8", "utf8", "unicode-1-1-utf-8", "unicode11utf8", "unicode20utf8", "x-unicode20utf8"].contains label then
    some .utf8
  else if ["utf-16", "utf-16le", "unicode", "unicodefeff", "csunicode", "ucs-2", "iso-10646-ucs-2"].contains label then
    some (.utf16 false)
  else if ["utf-16be", "unicodefffe"].contains label then some (.utf16 true)
  else if ["ansi_x3.4-1968", "ascii", "cp1252", "cp819", "csisolatin1", "ibm819", "iso-8859-1", "iso-ir-100",
      "iso8859-1", "iso88591", "iso_8859-1", "iso_8859-1:1987", "l1", "latin1", "us-ascii", "windows-1252",
      "x-cp1252"].contains label then
    some .windows1252
  else none

/-- The character set that a parameter of a content type names, if it is the one that does so. -/
def labelOf? (parameter : List Char) : Option String :=
  match splitFirst? '=' parameter with
  | some (name, value) =>
    if lowerText (trim (String.ofList name)) == "charset" then
      some (String.ofList (value.filter (· ≠ '"')))
    else none
  | none => none

/-- The character set of a content type: UTF-8 unless it names another one that is known. -/
def ofContentType (contentType : String) : Charset :=
  let label := (splitAt ';' contentType.toList).tail.findSome? labelOf?
  (label.bind ofLabel?).getD .utf8

/-- The character set that octets name themselves, and those behind the mark that names it. -/
def marked? : List UInt8 → Option (Charset × List UInt8)
  | 0xEF :: 0xBB :: 0xBF :: rest => some (.utf8, rest)
  | 0xFF :: 0xFE :: rest => some (.utf16 false, rest)
  | 0xFE :: 0xFF :: rest => some (.utf16 true, rest)
  | _ => none

end Charset

/-- The text of octets, in the character set of their mark, or else of their content type. -/
def decodeMarked (contentType : String) (octets : List UInt8) : List Char :=
  match Charset.marked? octets with
  | some (charset, rest) => charset.decode rest
  | none => (Charset.ofContentType contentType).decode octets

example : decodeMarked "text/plain; charset=ISO-8859-1" [0x63, 0xE9, 0x80] = ['c', 'é', '€'] := by decide +kernel
example : decodeMarked "text/plain" [0x63, 0xC3, 0xA9] = ['c', 'é'] := by decide +kernel
example : decodeMarked "" [0xFF, 0xFE, 0x3D, 0xD8, 0x00, 0xDE, 0x41] = ['😀', '\uFFFD'] := by decide +kernel

end Covenant.Text
