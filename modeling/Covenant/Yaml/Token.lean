import Covenant.Text.Utf8
import Covenant.Yaml.Scalar

/-!
# YAML tokens

* `Token`: the marks, properties and scalars of a YAML text; indentation appears as the start and end of
  block collections;
* `anchorName?`, `tag?`, `directive?`: the tokens that are not scalars and have a text of their own.

A tag is held as octets, because percent signs in it may spell octets that are no text.
-/

namespace Covenant.Yaml

open Covenant.Text

/-- A token of a YAML text. -/
inductive Token where
  | version (major minor : Nat)
  | tagHandle (handle : List Char) (uri : List UInt8)
  | documentStart
  | documentEnd
  | blockSequenceStart
  | blockMappingStart
  | blockEnd
  | flowSequenceStart
  | flowSequenceEnd
  | flowMappingStart
  | flowMappingEnd
  | blockEntry
  | flowEntry
  | key
  | value
  | alias (name : List Char)
  | anchor (name : List Char)
  /-- A tag with its handle, empty for one that is written out. -/
  | tag (handle : List Char) (suffix : List UInt8)
  | scalar (text : List Char) (plain : Bool)
deriving DecidableEq

/-! ## Anchors and aliases -/

/-- The name behind an ampersand or an asterisk, which a blank or one of a few marks has to follow. -/
def anchorName? (c : Cursor) : Option (List Char × Cursor) :=
  let (name, c) := (c.advance 1).span isNameChar
  let ended := match c.rest with
    | [] => true
    | d :: _ => atWordEnd c.rest || "?:,]\x7d%@\x60".toList.contains d
  if name.isEmpty || !ended then none else some (name, c)

/-! ## Tags -/

/-- The characters of a tag, beside those of names. The last three only where no flow collection could
claim them. -/
def isTagChar (verbatim : Bool) (c : Char) : Bool :=
  isNameChar c || ";/?:@&=+$.%!~*'()".toList.contains c || (verbatim && ",[]".toList.contains c)

/-- The length of the character whose first octet this is. -/
def octetWidth? (b : Nat) : Option Nat :=
  if b < 0x80 then some 1
  else if 0xC0 ≤ b ∧ b < 0xE0 then some 2
  else if 0xE0 ≤ b ∧ b < 0xF0 then some 3
  else if 0xF0 ≤ b ∧ b < 0xF8 then some 4
  else none

/-- The octets of a tag text. A percent sign needs two hexadecimal digits; `owed` counts the octets that
a character begun by one still needs, and those have to be spelled the same way. -/
def tagOctets? (owed : Nat) : List Char → Option (List UInt8)
  | [] => if owed = 0 then some [] else none
  | '%' :: a :: b :: r =>
    match hexNumber? [a, b] with
    | none => none
    | some n =>
      if owed = 0 then
        (octetWidth? n).bind fun w => (tagOctets? (w - 1) r).map (n.toUInt8 :: ·)
      else if 0x80 ≤ n ∧ n < 0xC0 then (tagOctets? (owed - 1) r).map (n.toUInt8 :: ·)
      else none
  | '%' :: _ => none
  | c :: r => if owed = 0 then (tagOctets? 0 r).map (encodeChar c ++ ·) else none

/-- The text of a tag from a place on. -/
def tagText? (verbatim : Bool) (c : Cursor) : Option (List UInt8 × Cursor) :=
  let (cs, c) := c.span (isTagChar verbatim)
  (tagOctets? 0 cs).map (·, c)

/-- A handle: an exclamation mark, characters of names, and another mark if there is one. -/
def tagHandle? (c : Cursor) : Option (List Char × Cursor) :=
  if c.rest.head? == some '!' then
    let (name, c) := (c.advance 1).span isNameChar
    if c.rest.head? == some '!' then some ('!' :: name ++ ['!'], c.advance 1)
    else some ('!' :: name, c)
  else none

/-- A tag: written out in angle brackets, with a handle that ends in a mark, or with a single mark. -/
def tag? (flow : Bool) (c : Cursor) : Option (Token × Cursor) :=
  let ended (c : Cursor) : Bool := (flow && c.rest.head? == some ',') || atWordEnd c.rest
  let token? : Option (Token × Cursor) :=
    if (c.advance 1).rest.head? == some '<' then
      match tagText? true (c.advance 2) with
      | none => none
      | some (text, c) =>
        if text.isEmpty || c.rest.head? != some '>' then none
        else some (.tag [] text, c.advance 1)
    else
      match tagHandle? c with
      | none => none
      | some (handle, c) =>
        match tagText? false c with
        | none => none
        | some (text, c) =>
          if 1 < handle.length && handle.getLast? == some '!' then
            if text.isEmpty then none else some (.tag handle text, c)
          else
            let text := encode handle.tail ++ text
            if text.isEmpty then some (.tag [] (encode ['!']), c) else some (.tag ['!'] text, c)
  token?.filter fun t => ended t.2

/-! ## Directives -/

/-- A number of at most nine digits. -/
def versionNumber? (c : Cursor) : Option (Nat × Cursor) :=
  let (ds, c) := c.span (fun d => '0' ≤ d && d ≤ '9')
  if ds.isEmpty || 9 < ds.length then none
  else some (ds.foldl (fun n d => 10 * n + (d.toNat - 48)) 0, c)

/-- Two numbers with a point between them. -/
def versionValue? (c : Cursor) : Option (Token × Cursor) := do
  let (major, c) ← versionNumber? c
  if c.rest.head? == some '.' then
    let (minor, c) ← versionNumber? (c.advance 1)
    return (.version major minor, c)
  else none

/-- A handle, which ends in a mark, and the tag text that it stands for. -/
def tagHandleValue? (c : Cursor) : Option (Token × Cursor) := do
  let (handle, c) ← tagHandle? c
  if handle.getLast? != some '!' || !c.rest.head?.any isSpace then none
  else
    let (text, c) ← tagText? true (c.span isSpace).2
    if text.isEmpty || !atWordEnd c.rest then none else return (.tagHandle handle text, c)

/-- A directive with the rest of its line: blanks and a comment. -/
def directive? (c : Cursor) : Option (Token × Cursor) := do
  let (name, c) := (c.advance 1).span isNameChar
  if !atWordEnd c.rest then none
  else
    let c := (c.span isSpace).2
    let (token, c) ←
      if name = "YAML".toList then versionValue? c
      else if name = "TAG".toList then tagHandleValue? c
      else none
    let c := (c.span isSpace).2
    let c := if c.rest.head? == some '#' then (c.span (fun d => !isBreak d)).2 else c
    if c.rest.isEmpty || c.rest.head?.any isBreak then return (token, c.takeBreak.2) else none

end Covenant.Yaml
