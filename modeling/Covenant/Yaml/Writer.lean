import Covenant.Yaml.Cursor
import Covenant.Yaml.Plain
import Covenant.Yaml.ToJson

/-!
# Writing YAML text

JSON values as YAML documents in block style. Lines are never folded; the items of a sequence in a mapping
stand at the indentation of their key.

* `Yaml.Shape`: what of a text decides how it can be written;
* `Yaml.style`: plain where the text reads back as itself, in single quotes where it would stand for
  something else, as lines below a bar if it holds line feeds, and in double quotes otherwise;
* `Yaml.write`: the document of a value.
-/

namespace Covenant.Yaml

/-! ## The shape of a text -/

/-- The characters that need no escape in double quotes. -/
def isPrintable (c : Char) : Bool :=
  let n := c.toNat
  n = 10 || (0x20 ≤ n && n ≤ 0x7E) || (0xA0 ≤ n && n ≤ 0xFFFD && n ≠ 0xFEFF) || 0x10000 ≤ n

/-- The characters that break a line in a written text. -/
def breaksLine (c : Char) : Bool := isBreak c || c = '\r' || c = '\x85'

/-- Whether a character separates words, the end of the text included. -/
def isSeparator (c : Option Char) : Bool := c.all fun c => isSpace c || breaksLine c

/-- What of a text decides how it can be written. -/
structure Shape where
  /-- It would not be read as a plain scalar. -/
  marked : Bool
  multiline : Bool
  /-- It starts or ends with a space or break. -/
  ragged : Bool
  trailingSpace : Bool
  /-- A space follows a break. -/
  breakSpace : Bool
  /-- A break follows a space, or a character is not printable. -/
  special : Bool

/-- Whether a character at the start of a text keeps it from being plain. -/
def marksStart (c : Char) (next : Option Char) : Bool :=
  "#,[]\x7b\x7d&*!|>'\x22%@\x60".toList.contains c || ((c = '?' || c = ':' || c = '-') && isSeparator next)

/-- Whether a character inside a text keeps it from being plain. -/
def marksInside (previous c : Char) (next : Option Char) : Bool :=
  (c = ':' && isSeparator next) || (c = '#' && isSeparator (some previous))

/-- Whether a pair of neighbours in a text satisfies a condition. -/
def anyNeighbours (p : Char → Char → Bool) : List Char → Bool
  | a :: b :: cs => p a b || anyNeighbours p (b :: cs)
  | _ => false

/-- Whether a mark stands behind the first character. -/
def markedInside : List Char → Bool
  | a :: b :: cs => marksInside a b cs.head? || markedInside (b :: cs)
  | _ => false

/-- The shape of a text. -/
def shape (cs : List Char) : Shape :=
  let first := cs.head?
  let last := cs.getLast?
  let edge (c : Option Char) : Bool := c.any fun c => c = ' ' || breaksLine c
  { marked :=
      ['-', '-', '-'].isPrefixOf cs || ['.', '.', '.'].isPrefixOf cs ||
        first.any (fun c => marksStart c cs.tail.head?) || markedInside cs
    multiline := cs.any breaksLine
    ragged := edge first || edge last
    trailingSpace := last == some ' '
    breakSpace := anyNeighbours (fun a b => breaksLine a && b = ' ') cs
    special := anyNeighbours (fun a b => a = ' ' && breaksLine b) cs || cs.any (fun c => !isPrintable c) }

/-! ## Styles -/

/-- How a scalar is written. -/
inductive Style where
  | plain | single | double | literal
deriving DecidableEq

/-- Whether a text would stand for something else than itself if it were plain. -/
def isAmbiguous (cs : List Char) : Bool :=
  leadingZero cs ||
    match ofPlain? cs with
    | some (.string _) => false
    | _ => true

/-- How a text is written. -/
def style (cs : List Char) : Style :=
  let s := shape cs
  let quotes : Style := if s.breakSpace || s.special then .double else .single
  if cs.contains '\n' then
    if s.trailingSpace || s.special then .double else .literal
  else if isAmbiguous cs then quotes
  else if s.marked || s.multiline || s.ragged || s.breakSpace || s.special then quotes
  else .plain

/-- Whether a text may stand in front of a colon: on one line, in at most 128 octets. -/
def isSimpleKey (s : String) : Bool :=
  !s.toList.any breaksLine && s.utf8ByteSize ≤ 128

/-! ## Scalars -/

/-- Upper-case hexadecimal digits of a number, at a fixed width. -/
def hexText (width n : Nat) : List Char :=
  let digit (d : Nat) : Char := if d < 10 then Char.ofNat (48 + d) else Char.ofNat (55 + d)
  (List.range width).reverse.map fun i => digit (n / Nat.pow 16 i % 16)

/-- The escape of a character in double quotes. -/
def escapeText (c : Char) : List Char :=
  match c.toNat with
  | 0x00 => ['0']
  | 0x07 => ['a']
  | 0x08 => ['b']
  | 0x09 => ['t']
  | 0x0A => ['n']
  | 0x0B => ['v']
  | 0x0C => ['f']
  | 0x0D => ['r']
  | 0x1B => ['e']
  | 0x22 => ['\x22']
  | 0x5C => ['\\']
  | 0x85 => ['N']
  | 0x2028 => ['L']
  | 0x2029 => ['P']
  | n =>
    if n ≤ 0xFF then 'x' :: hexText 2 n
    else if n ≤ 0xFFFF then 'u' :: hexText 4 n
    else 'U' :: hexText 8 n

/-- A text in double quotes. -/
def doubleQuoted (cs : List Char) : List Char :=
  let body := cs.flatMap fun c =>
    if !isPrintable c || breaksLine c || c = '\x22' || c = '\\' then '\\' :: escapeText c else [c]
  '\x22' :: body ++ ['\x22']

/-- The lines of a text, each that is not empty behind an indentation. -/
def indentLines (indent : Nat) (atStart : Bool) : List Char → List Char
  | [] => []
  | c :: cs =>
    if breaksLine c then c :: indentLines indent true cs
    else if atStart then List.replicate indent ' ' ++ c :: indentLines indent false cs
    else c :: indentLines indent false cs

/-- A text in single quotes. Its further lines are indented. -/
def singleQuoted (indent : Nat) (cs : List Char) : List Char :=
  let body := indentLines indent false (cs.flatMap fun c => if c = '\x27' then [c, c] else [c])
  let tail := if cs.getLast?.any breaksLine then List.replicate indent ' ' else []
  '\x27' :: body ++ tail ++ ['\x27']

/-- What says how the breaks at the end of a block are kept. -/
def chompText (cs : List Char) : List Char :=
  match cs.reverse with
  | [] => ['-']
  | c :: r =>
    if !breaksLine c then ['-']
    else match r with
      | [] => ['+']
      | d :: _ => if breaksLine d then ['+'] else []

/-- A text as a block below a bar, with its last break. -/
def literalBlock (indent : Nat) (cs : List Char) : List Char :=
  let hint := if cs.head?.any (fun c => c = ' ' || breaksLine c) then ['2'] else []
  let tail := if cs.getLast?.any breaksLine then [] else ['\n']
  '|' :: hint ++ chompText cs ++ ['\n'] ++ indentLines indent true cs ++ tail

/-- A string with the break behind it. -/
def stringLine (indent : Nat) (s : String) : List Char :=
  let cs := s.toList
  match style cs with
  | .plain => cs ++ ['\n']
  | .single => singleQuoted indent cs ++ ['\n']
  | .double => doubleQuoted cs ++ ['\n']
  | .literal => literalBlock indent cs

/-- A key on one line. -/
def keyText (s : String) : List Char :=
  let cs := s.toList
  match style cs with
  | .plain => cs
  | .single => singleQuoted 0 cs
  | _ => doubleQuoted cs

/-- A number. -/
def numberText : Json.Number → List Char
  | .integer i _ => (Decimal.ofInt i).toList
  | .double x => (numberLayout.text x).toList

/-! ## Values -/

/-- The blanks of an indentation. -/
def blanks (n : Nat) : List Char := List.replicate n ' '

mutual
/-- A value behind the dash of a sequence, or behind a colon on a line of its own. -/
def writeItem (n : Nat) : Json → List Char
  | .array (v :: vs) => ' ' :: '-' :: writeItem (n + 2) v ++ writeItems (n + 2) vs
  | .object (f :: fs) => ' ' :: writeField (n + 2) f ++ writeFields (n + 2) fs
  | .null => " null\n".toList
  | .bool b => if b then " true\n".toList else " false\n".toList
  | .number x => ' ' :: numberText x ++ ['\n']
  | .string s => ' ' :: stringLine (n + 2) s
  | .array [] => " []\n".toList
  | .object [] => " \x7b\x7d\n".toList
/-- The items of a sequence at an indentation. -/
def writeItems (n : Nat) : List Json → List Char
  | [] => []
  | v :: vs => blanks n ++ '-' :: writeItem n v ++ writeItems n vs
/-- A value behind a key on the same line. -/
def writeValue (n : Nat) : Json → List Char
  | .array (v :: vs) => '\n' :: blanks n ++ '-' :: writeItem n v ++ writeItems n vs
  | .object (f :: fs) => '\n' :: blanks (n + 2) ++ writeField (n + 2) f ++ writeFields (n + 2) fs
  | .null => " null\n".toList
  | .bool b => if b then " true\n".toList else " false\n".toList
  | .number x => ' ' :: numberText x ++ ['\n']
  | .string s => ' ' :: stringLine (n + 2) s
  | .array [] => " []\n".toList
  | .object [] => " \x7b\x7d\n".toList
/-- An entry of a mapping. A key that does not fit in front of a colon gets lines of its own. -/
def writeField (n : Nat) : String × Json → List Char
  | (k, v) =>
    if isSimpleKey k then keyText k ++ ':' :: writeValue n v
    else '?' :: ' ' :: stringLine (n + 2) k ++ blanks n ++ ':' :: writeItem n v
/-- The entries of a mapping at an indentation. -/
def writeFields (n : Nat) : List (String × Json) → List Char
  | [] => []
  | f :: fs => blanks n ++ writeField n f ++ writeFields n fs
end

/-- The document of a value. -/
def write (v : Json) : String :=
  let cs := match v with
    | .array (v :: vs) => writeItems 0 (v :: vs)
    | .object (f :: fs) => writeFields 0 (f :: fs)
    | v => (writeItem 0 v).tail
  String.ofList cs

end Covenant.Yaml
