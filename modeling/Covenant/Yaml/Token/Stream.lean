import Covenant.Yaml.Token

/-!
# The tokens of a text

Tokens are found from left to right. Two things are known only afterwards: that a node is a key, once a
colon follows it, and that a block collection ends, once a line is indented less.

* `PendingKey`: a node that becomes a key if a colon follows it in time;
* `Stream`: tokens found so far, indentation, and the pending keys of the open flow collections;
* `Stream.step?`: the next token with those that it implies;
* `tokens?`: all tokens of a text.
-/

namespace Covenant.Yaml

/-- A node that may turn out to be a key. -/
structure PendingKey where
  /-- Whether it has to be one, because it stands at the indentation of its mapping. -/
  required : Bool
  /-- The number of tokens before it. -/
  place : Nat
  line : Nat
  column : Nat

/-- The tokens of the text before a cursor. -/
structure Stream where
  cursor : Cursor
  /-- The tokens found, the last one first. -/
  found : List Token
  /-- The number of tokens found. -/
  size : Nat
  /-- The columns of the open block collections, the innermost first. -/
  indents : List Nat
  /-- The pending key of each open flow collection, the innermost first. -/
  outerKeys : List (Option PendingKey)
  /-- The pending key of the innermost collection. -/
  key : Option PendingKey
  /-- Whether a key may start here. -/
  keyAllowed : Bool

namespace Stream

/-- The stream before the first token. -/
def start (cs : List Char) : Stream where
  cursor := .start cs
  found := []
  size := 0
  indents := []
  outerKeys := []
  key := none
  keyAllowed := true

/-- Whether a flow collection is open. -/
def inFlow (s : Stream) : Bool := !s.outerKeys.isEmpty

/-- The least column of a line that belongs to the innermost block collection, plus one: zero without
any. -/
def least (s : Stream) : Nat :=
  match s.indents with
  | [] => 0
  | n :: _ => n + 1

/-- Adds a token. -/
def push (s : Stream) (t : Token) : Stream :=
  { s with found := t :: s.found, size := s.size + 1 }

/-- Adds a token before those from a place on. -/
def insertAt (s : Stream) (place : Nat) (t : Token) : Stream :=
  let k := s.size - place
  { s with found := s.found.take k ++ t :: s.found.drop k, size := s.size + 1 }

/-- The stream at another place of the text. -/
def moveTo (s : Stream) (c : Cursor) : Stream := { s with cursor := c }

/-- The stream after a number of characters. -/
def skip (s : Stream) (n : Nat) : Stream := s.moveTo (s.cursor.advance n)

/-- The stream with keys allowed or not. -/
def allowKey (s : Stream) (allowed : Bool) : Stream := { s with keyAllowed := allowed }

/-! ## Indentation -/

/-- Opens a block collection if the column lies to the right of the innermost one. -/
def indentTo (s : Stream) (column : Nat) (add : Stream → Stream) : Stream :=
  if s.inFlow then s
  else if s.least ≤ column then add { s with indents := column :: s.indents }
  else s

/-- The stream with the block collections closed that lie to the right of a column, or all of them. -/
def closeBlocks (s : Stream) (column : Option Nat) : Stream :=
  if s.inFlow then s
  else
    let right (n : Nat) : Bool := column.all (fun c => c < n)
    let n := (s.indents.takeWhile right).length
    { s with
      found := List.replicate n .blockEnd ++ s.found
      size := s.size + n
      indents := s.indents.drop n }

/-! ## Keys -/

/-- Without its pending key. One that is required may not be dropped. -/
def dropKey? (s : Stream) : Option Stream :=
  if s.key.any (·.required) then none else some { s with key := none }

/-- Makes the node that starts here a pending key, if a key may start here. -/
def saveKey? (s : Stream) : Option Stream :=
  if s.keyAllowed then
    s.dropKey?.map fun s =>
      let required := !s.inFlow && s.least == s.cursor.column + 1
      { s with key := some ⟨required, s.size, s.cursor.line, s.cursor.column⟩ }
  else some s

/-- A key ends on its line, within 1024 characters. -/
def keyInTime (c : Cursor) (k : PendingKey) : Bool :=
  !(k.line < c.line || k.column + 1024 < c.column)

/-- Without the pending keys for which it is too late. One that is required may not be late. -/
def dropLateKeys? (s : Stream) : Option Stream :=
  let late (k : Option PendingKey) : Bool := k.any fun k => !keyInTime s.cursor k
  let keep (k : Option PendingKey) : Option PendingKey := k.filter (keyInTime s.cursor)
  if (s.key :: s.outerKeys).any fun k => late k && k.any (·.required) then none
  else some { s with key := keep s.key, outerKeys := s.outerKeys.map keep }

/-! ## Tokens -/

/-- The place of the next token, behind blanks, comments and breaks. A tab is a blank only where no key
may start. -/
def skipBlanks (inFlow : Bool) (fuel : Nat) (allowed : Bool) (c : Cursor) : Cursor × Bool :=
  match fuel with
  | 0 => (c, allowed)
  | fuel + 1 =>
    let c := (c.span (fun d => d = ' ' || (d = '\t' && (inFlow || !allowed)))).2
    let c := if c.rest.head? == some '#' then (c.span (fun d => !isBreak d)).2 else c
    if c.rest.head?.any isBreak then skipBlanks inFlow fuel (allowed || !inFlow) c.takeBreak.2
    else (c, allowed)

/-- A mark of a document, which closes all block collections. -/
def documentMark? (s : Stream) (t : Token) : Option Stream :=
  (s.closeBlocks none).dropKey?.map fun s => ((s.allowKey false).skip 3).push t

/-- A directive. -/
def directiveLine? (s : Stream) : Option Stream := do
  let s ← (s.closeBlocks none).dropKey?
  let (t, c) ← directive? s.cursor
  return ((s.allowKey false).moveTo c).push t

/-- The start of a flow collection. -/
def openFlow? (s : Stream) (t : Token) : Option Stream :=
  s.saveKey?.map fun s =>
    (({ s with outerKeys := s.key :: s.outerKeys, key := none }.allowKey true).skip 1).push t

/-- The end of a flow collection. -/
def closeFlow? (s : Stream) (t : Token) : Option Stream :=
  s.dropKey?.map fun s =>
    let s := match s.outerKeys with
      | [] => s
      | k :: ks => { s with outerKeys := ks, key := k }
    ((s.allowKey false).skip 1).push t

/-- A comma. -/
def flowEntry? (s : Stream) : Option Stream :=
  s.dropKey?.map fun s => ((s.allowKey true).skip 1).push .flowEntry

/-- A dash. -/
def blockEntry? (s : Stream) : Option Stream :=
  if !s.inFlow && !s.keyAllowed then none
  else
    (s.indentTo s.cursor.column (·.push .blockSequenceStart)).dropKey?.map fun s =>
      ((s.allowKey true).skip 1).push .blockEntry

/-- A question mark. -/
def explicitKey? (s : Stream) : Option Stream :=
  if !s.inFlow && !s.keyAllowed then none
  else
    (s.indentTo s.cursor.column (·.push .blockMappingStart)).dropKey?.map fun s =>
      ((s.allowKey !s.inFlow).skip 1).push .key

/-- A colon: it makes a pending node a key. -/
def value? (s : Stream) : Option Stream :=
  match s.key with
  | some k =>
    let s := s.insertAt k.place .key
    let s := s.indentTo k.column (·.insertAt k.place .blockMappingStart)
    some ((({ s with key := none }.allowKey false).skip 1).push .value)
  | none =>
    if !s.inFlow && !s.keyAllowed then none
    else
      let s := s.indentTo s.cursor.column (·.push .blockMappingStart)
      some (((s.allowKey !s.inFlow).skip 1).push .value)

/-- A token that may start a key. -/
def node? (s : Stream) (read : Cursor → Option (Token × Cursor)) : Option Stream := do
  let s ← s.saveKey?
  let (t, c) ← read s.cursor
  return ((s.allowKey false).moveTo c).push t

/-- A plain scalar. A key may start behind it if it ends with its line. -/
def plainScalar? (s : Stream) : Option Stream := do
  let s ← s.saveKey?
  let (text, ended, c) ← plain? s.inFlow s.least s.cursor
  return ((s.allowKey ended).moveTo c).push (.scalar text true)

/-- A block scalar. -/
def blockScalar? (s : Stream) (folded : Bool) : Option Stream := do
  let s ← s.dropKey?
  let (text, c) ← block? folded s.least s.cursor
  return ((s.allowKey true).moveTo c).push (.scalar text false)

/-- The characters with which no plain scalar starts. -/
def isIndicator (c : Char) : Bool :=
  "-?:,[]\x7b\x7d#&*!|>'\x22%@\x60".toList.contains c

/-- The next token, found at its first character. -/
def token? (s : Stream) (c : Char) (r : List Char) : Option Stream :=
  let word := atWordEnd r
  let flow := s.inFlow
  if s.cursor.column = 0 ∧ c = '%' then s.directiveLine?
  else if s.cursor.atDocumentMark then
    s.documentMark? (if c = '-' then .documentStart else .documentEnd)
  else if c = '[' then s.openFlow? .flowSequenceStart
  else if c = '\x7b' then s.openFlow? .flowMappingStart
  else if c = ']' then s.closeFlow? .flowSequenceEnd
  else if c = '\x7d' then s.closeFlow? .flowMappingEnd
  else if c = ',' then s.flowEntry?
  else if c = '-' ∧ word then s.blockEntry?
  else if c = '?' ∧ (flow ∨ word) then s.explicitKey?
  else if c = ':' ∧ (flow ∨ word) then s.value?
  else if c = '*' then s.node? fun c => (anchorName? c).map fun (n, c) => (.alias n, c)
  else if c = '&' then s.node? fun c => (anchorName? c).map fun (n, c) => (.anchor n, c)
  else if c = '!' then s.node? (tag? flow)
  else if c = '|' ∧ !flow then s.blockScalar? false
  else if c = '>' ∧ !flow then s.blockScalar? true
  else if c = '\x27' then
    s.node? fun c => (quoted? true c).map fun (text, c) => (.scalar text false, c)
  else if c = '\x22' then
    s.node? fun c => (quoted? false c).map fun (text, c) => (.scalar text false, c)
  else if !(isIndicator c || isSpace c) || (c = '-' && !r.head?.any isSpace) ||
      (!flow && (c = '?' || c = ':') && !word) then s.plainScalar?
  else none

/-- The stream before its next token: blanks are skipped, late keys dropped and blocks closed. -/
def prepare? (lines : Nat) (s : Stream) : Option Stream :=
  let (c, allowed) := skipBlanks s.inFlow lines s.keyAllowed s.cursor
  ((s.moveTo c).allowKey allowed).dropLateKeys?.map fun s => s.closeBlocks (some s.cursor.column)

/-- All tokens, the last one first. Every step takes at least one character. -/
def run? (fuel : Nat) (s : Stream) : Option (List Token) :=
  match fuel with
  | 0 => none
  | fuel + 1 =>
    match s.prepare? (fuel + 1) with
    | none => none
    | some s =>
      match s.cursor.rest with
      | [] => (s.closeBlocks none).dropKey?.map Stream.found
      | c :: r =>
        match s.token? c r with
        | none => none
        | some s => run? fuel s

end Stream

/-- All tokens of a text. -/
def tokens? (cs : List Char) : Option (List Token) :=
  ((Stream.start cs).run? (cs.length + 1)).map List.reverse

end Covenant.Yaml
