/-!
# Places in a YAML text

* `normalize?`: a text with all its line breaks as line feeds, the two separators of Unicode aside, if it
  holds permitted characters only;
* `Cursor`: what is left of a text, with line and column;
* `Gap`: the blanks and breaks between two words, and the text that they fold to.
-/

namespace Covenant.Yaml

/-! ## Characters -/

/-- A space or a tab. -/
def isSpace (c : Char) : Bool := c = ' ' || c = '\t'

/-- A line break, or a separator of lines or paragraphs. -/
def isBreak (c : Char) : Bool := c = '\n' || c = '\u2028' || c = '\u2029'

/-- Whether a word ends before the given characters. -/
def atWordEnd : List Char → Bool
  | [] => true
  | c :: _ => isSpace c || isBreak c

/-- The characters of names of anchors, directives and tag handles. -/
def isNameChar (c : Char) : Bool :=
  ('a' ≤ c && c ≤ 'z') || ('A' ≤ c && c ≤ 'Z') || ('0' ≤ c && c ≤ '9') || c = '_' || c = '-'

/-- The characters that delimit flow collections. -/
def isFlowMark (c : Char) : Bool :=
  c = ',' || c = '[' || c = ']' || c = '\x7b' || c = '\x7d'

/-- The characters that a text may hold. -/
def isPermitted (c : Char) : Bool :=
  let n := c.toNat
  n = 9 || n = 10 || n = 13 || (0x20 ≤ n && n ≤ 0x7E) || n = 0x85 || (0xA0 ≤ n && n ≤ 0xFFFD) ||
    0x10000 ≤ n

/-- The mark of byte order. -/
def byteOrderMark : Char := '\uFEFF'

/-- Line breaks as line feeds. -/
def joinBreaks : List Char → List Char
  | [] => []
  | '\r' :: '\n' :: r => '\n' :: joinBreaks r
  | c :: r => (if c = '\r' || c = '\x85' then '\n' else c) :: joinBreaks r

/-- A text of permitted characters with line feeds for breaks. -/
def normalize? (cs : List Char) : Option (List Char) :=
  if cs.all isPermitted then some (joinBreaks cs) else none

/-! ## Cursors -/

/-- What is left of a text, and where that is. -/
structure Cursor where
  rest : List Char
  line : Nat
  column : Nat

namespace Cursor

/-- The beginning of a text. A mark of byte order is passed over and takes a column. -/
def start (cs : List Char) : Cursor :=
  match cs with
  | c :: r => if c = byteOrderMark then ⟨r, 0, 1⟩ else ⟨c :: r, 0, 0⟩
  | [] => ⟨[], 0, 0⟩

/-- The place a number of characters further in the line. -/
def advance (c : Cursor) (n : Nat) : Cursor :=
  { c with rest := c.rest.drop n, column := c.column + n }

/-- The characters of a kind from here on, and the place behind them. None of them is a break. -/
def span (c : Cursor) (p : Char → Bool) : List Char × Cursor :=
  let cs := c.rest.takeWhile p
  (cs, c.advance cs.length)

/-- The break that stands here, if one does, and the place behind it. -/
def takeBreak (c : Cursor) : List Char × Cursor :=
  match c.rest with
  | [] => ([], c)
  | b :: r => if isBreak b then ([b], ⟨r, c.line + 1, 0⟩) else ([], c)

/-- Whether a line that starts here starts with three dashes or three points, as a word. -/
def atDocumentMark (c : Cursor) : Bool :=
  c.column == 0 &&
    match c.rest with
    | '-' :: '-' :: '-' :: r => atWordEnd r
    | '.' :: '.' :: '.' :: r => atWordEnd r
    | _ => false

end Cursor

/-! ## Gaps -/

/-- What separates two words of a scalar. -/
inductive Gap where
  /-- Blanks within a line. -/
  | inline (spaces : List Char)
  /-- A break, absent if it is escaped, and the breaks after it. -/
  | lines (first : Option Char) (more : List Char)

namespace Gap

/-- The text that a gap folds to: a single line feed becomes a space, a further one stays. -/
def text : Gap → List Char
  | .inline spaces => spaces
  | .lines none more => more
  | .lines (some b) more =>
    if b = '\n' then (if more.isEmpty then [' '] else more) else b :: more

/-- Whether the next word stands on another line. -/
def hasBreak : Gap → Bool
  | .inline _ => false
  | .lines .. => true

end Gap

/-- Extends a gap by the blanks and breaks that follow. A tab to the left of a column is refused. -/
def extendGap (least : Nat) (g : Gap) (line column : Nat) : List Char → Option (Gap × Cursor)
  | [] => some (g, ⟨[], line, column⟩)
  | c :: r =>
    if isSpace c then
      match g with
      | .inline spaces => extendGap least (.inline (spaces ++ [c])) line (column + 1) r
      | .lines .. =>
        if c = '\t' && column < least then none else extendGap least g line (column + 1) r
    else if isBreak c then
      match g with
      | .inline _ => extendGap least (.lines (some c) []) (line + 1) 0 r
      | .lines first more => extendGap least (.lines first (more ++ [c])) (line + 1) 0 r
    else some (g, ⟨c :: r, line, column⟩)

/-- The gap from a place on, as the continuation of one already begun. -/
def Cursor.gap (c : Cursor) (least : Nat) (begun : Gap) : Option (Gap × Cursor) :=
  extendGap least begun c.line c.column c.rest

end Covenant.Yaml
