import Covenant.Yaml.Cursor

/-!
# Scalars in YAML text

The texts of plain, quoted and block scalars. Every reader starts at the first character of the scalar
and returns its text with the place behind it, or nothing if the scalar is not well formed.

* `plain?`: words up to a colon, a comment, a mark of a flow collection or a smaller indentation;
* `quoted?`: single or double quotes, lines folded, escapes replaced;
* `block?`: the lines below a bar or an angle bracket.
-/

namespace Covenant.Yaml

/-! ## Plain scalars -/

/-- A word of a plain scalar, and the characters behind it. A colon ends it before a blank. In a flow
collection its marks end it too, and may not follow a colon directly. -/
def plainWord? (flow : Bool) : List Char → Option (List Char × List Char)
  | [] => some ([], [])
  | c :: r =>
    if isSpace c || isBreak c then some ([], c :: r)
    else if flow && c = ':' && r.head?.any (fun d => isFlowMark d || d = '?') then none
    else if c = ':' && atWordEnd r then some ([], c :: r)
    else if flow && isFlowMark c then some ([], c :: r)
    else (plainWord? flow r).map fun (w, rest) => (c :: w, rest)

/-- The words of a plain scalar behind a gap. The second component tells whether the gap that ends the
scalar holds a break. -/
def plainFrom? (flow : Bool) (indent : Nat) (fuel : Nat) (gap : Gap) (c : Cursor) :
    Option (List Char × Bool × Cursor) :=
  match fuel with
  | 0 => none
  | fuel + 1 =>
    if c.atDocumentMark || c.rest.head? == some '#' then some ([], gap.hasBreak, c)
    else
      match plainWord? flow c.rest with
      | none => none
      | some ([], _) => some ([], gap.hasBreak, c)
      | some (word, rest) =>
        let c : Cursor := ⟨rest, c.line, c.column + word.length⟩
        let head := gap.text ++ word
        if atWordEnd rest && !rest.isEmpty then
          match c.gap indent (.inline []) with
          | none => none
          | some (gap, c) =>
            if !flow && c.column < indent then some (head, gap.hasBreak, c)
            else (plainFrom? flow indent fuel gap c).map fun (cs, t) => (head ++ cs, t)
        else some (head, false, c)

/-- A plain scalar whose lines are indented by at least `indent` columns. -/
def plain? (flow : Bool) (indent : Nat) (c : Cursor) : Option (List Char × Bool × Cursor) :=
  plainFrom? flow indent (c.rest.length + 1) (.inline []) c

/-! ## Quoted scalars -/

/-- The value of hexadecimal digits. -/
def hexNumber? (cs : List Char) : Option Nat :=
  cs.foldlM (fun n c =>
    if '0' ≤ c ∧ c ≤ '9' then some (16 * n + (c.toNat - 48))
    else if 'a' ≤ c ∧ c ≤ 'f' then some (16 * n + (c.toNat - 87))
    else if 'A' ≤ c ∧ c ≤ 'F' then some (16 * n + (c.toNat - 55))
    else none) 0

/-- The character of a number, which is no surrogate and not beyond U+10FFFF. -/
def charOfNumber? (n : Nat) : Option Char :=
  if n < 0xD800 ∨ (0xDFFF < n ∧ n ≤ 0x10FFFF) then some (Char.ofNat n) else none

/-- The character of an escape of one letter. -/
def letterEscape? (c : Char) : Option Char :=
  match c with
  | '0' => some '\x00'
  | 'a' => some '\x07'
  | 'b' => some '\x08'
  | 't' => some '\t'
  | '\t' => some '\t'
  | 'n' => some '\n'
  | 'v' => some '\x0b'
  | 'f' => some '\x0c'
  | 'r' => some '\r'
  | 'e' => some '\x1b'
  | ' ' => some ' '
  | '\x22' => some '\x22'
  | '/' => some '/'
  | '\\' => some '\\'
  | 'N' => some '\x85'
  | '_' => some '\xa0'
  | 'L' => some '\u2028'
  | 'P' => some '\u2029'
  | _ => none

/-- The number of hexadecimal digits after the letter of an escape. -/
def escapeDigits? (c : Char) : Option Nat :=
  match c with
  | 'x' => some 2
  | 'u' => some 4
  | 'U' => some 8
  | _ => none

/-- The character of an escape and the number of characters behind the backslash. -/
def escape? : List Char → Option (Char × Nat)
  | [] => none
  | c :: r =>
    match letterEscape? c with
    | some d => some (d, 1)
    | none =>
      (escapeDigits? c).bind fun k =>
        if r.length < k then none
        else (hexNumber? (r.take k)).bind fun n => (charOfNumber? n).map ((·, k + 1))

/-- A word between quotes, the place behind it, and whether an escaped break ended it. -/
def quotedWord? (single : Bool) (fuel : Nat) (c : Cursor) : Option (List Char × Bool × Cursor) :=
  match fuel with
  | 0 => none
  | fuel + 1 =>
    match c.rest with
    | [] => some ([], false, c)
    | d :: r =>
      if isSpace d || isBreak d then some ([], false, c)
      else if single then
        if d = '\x27' then
          if r.head? == some '\x27' then
            (quotedWord? single fuel (c.advance 2)).map fun (w, t) => ('\x27' :: w, t)
          else some ([], false, c)
        else (quotedWord? single fuel (c.advance 1)).map fun (w, t) => (d :: w, t)
      else if d = '\x22' then some ([], false, c)
      else if d = '\\' then
        if r.head?.any isBreak then some ([], true, (c.advance 1).takeBreak.2)
        else
          match escape? r with
          | none => none
          | some (e, n) =>
            (quotedWord? single fuel (c.advance (n + 1))).map fun (w, t) => (e :: w, t)
      else (quotedWord? single fuel (c.advance 1)).map fun (w, t) => (d :: w, t)

/-- The words up to the closing quote. A mark of a document may not start a line. -/
def quotedFrom? (single : Bool) (fuel : Nat) (c : Cursor) : Option (List Char × Cursor) :=
  match fuel with
  | 0 => none
  | fuel + 1 =>
    if c.atDocumentMark || c.rest.isEmpty then none
    else
      match quotedWord? single fuel c with
      | none => none
      | some (word, escaped, c) =>
        if c.rest.head? == some (if single then '\x27' else '\x22') then some (word, c.advance 1)
        else
          match c.gap 0 (if escaped then .lines none [] else .inline []) with
          | none => none
          | some (gap, c) =>
            (quotedFrom? single fuel c).map fun (cs, c) => (word ++ gap.text ++ cs, c)

/-- A quoted scalar. -/
def quoted? (single : Bool) (c : Cursor) : Option (List Char × Cursor) :=
  quotedFrom? single (c.rest.length + 2) (c.advance 1)

/-! ## Block scalars -/

/-- What becomes of the breaks at the end of a block scalar. -/
inductive Chomping where
  | clip | strip | keep
deriving DecidableEq

/-- The indicators of a block scalar in either order: an indentation from 1 to 9, and a sign. -/
def blockHeader? (cs : List Char) : Option (Option Nat × Chomping × Nat) :=
  let sign? (c : Char) : Option Chomping :=
    if c = '+' then some .keep else if c = '-' then some .strip else none
  let digit? (c : Char) : Bool := '0' ≤ c && c ≤ '9'
  match cs with
  | [] => some (none, .clip, 0)
  | c :: r =>
    match sign? c with
    | some chomping =>
      match r with
      | d :: _ =>
        if digit? d then (if d = '0' then none else some (some (d.toNat - 48), chomping, 2))
        else some (none, chomping, 1)
      | [] => some (none, chomping, 1)
    | none =>
      if digit? c then
        if c = '0' then none
        else
          match r.head?.bind sign? with
          | some chomping => some (some (c.toNat - 48), chomping, 2)
          | none => some (some (c.toNat - 48), .clip, 1)
      else some (none, .clip, 0)

/-- The empty lines from here on: their breaks, the greatest column that is reached, and the place of the
first character that belongs to a line. A tab may not stand in the indentation. -/
def emptyLines? (indent : Option Nat) (deepest line column : Nat) :
    List Char → Option (List Char × Nat × Cursor)
  | [] => some ([], max deepest column, ⟨[], line, column⟩)
  | c :: r =>
    let inside := indent.all (fun n => column < n)
    if c = ' ' && inside then emptyLines? indent deepest line (column + 1) r
    else if c = '\t' && inside then none
    else if isBreak c then
      (emptyLines? indent (max deepest column) (line + 1) 0 r).map fun (bs, t) => (c :: bs, t)
    else some ([], max deepest column, ⟨c :: r, line, column⟩)

/-- The lines of a block: their text, then the break after the last line and those of the empty lines
behind it. In a folded block the break between two lines that start without a blank becomes a space. -/
def blockLines? (folded : Bool) (indent fuel : Nat) (joint trailing : List Char) (blank : Bool)
    (c : Cursor) : Option (List Char × List Char × List Char × Cursor) :=
  match fuel with
  | 0 => none
  | fuel + 1 =>
    if c.column == indent && !c.rest.isEmpty then
      let blank' := c.rest.head?.any isSpace
      let joint :=
        if folded && joint == ['\n'] && !blank && !blank' then
          (if trailing.isEmpty then [' '] else [])
        else joint
      let (line, c) := c.span (fun d => !isBreak d)
      let (joint', c) := c.takeBreak
      match emptyLines? (some indent) 0 c.line c.column c.rest with
      | none => none
      | some (trailing', _, c) =>
        (blockLines? folded indent fuel joint' trailing' blank' c).map fun (cs, t) =>
          (joint ++ trailing ++ line ++ cs, t)
    else some ([], joint, trailing, c)

/-- A block scalar below an indentation. -/
def block? (folded : Bool) (least : Nat) (c : Cursor) : Option (List Char × Cursor) :=
  let c := c.advance 1
  match blockHeader? c.rest with
  | none => none
  | some (increment, chomping, n) =>
    let c := ((c.advance n).span isSpace).2
    let c := if c.rest.head? == some '#' then (c.span (fun d => !isBreak d)).2 else c
    if !(c.rest.isEmpty || c.rest.head?.any isBreak) then none
    else
      let c := c.takeBreak.2
      match emptyLines? (increment.map (least - 1 + ·)) 0 c.line c.column c.rest with
      | none => none
      | some (trailing, deepest, c) =>
        let indent := match increment with
          | some k => least - 1 + k
          | none => max (max deepest least) 1
        (blockLines? folded indent (c.rest.length + 1) [] trailing false c).map
          fun (cs, joint, trailing, c) =>
            (cs ++ (if chomping = .strip then [] else joint) ++
              (if chomping = .keep then trailing else []), c)

end Covenant.Yaml
