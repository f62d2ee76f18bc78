import Covenant.Yaml.Node
import Covenant.Yaml.Token.Stream

/-!
# The node that tokens describe

Each function reads one phrase from the front of a list of tokens and returns it with the tokens left.
Phrases that may be absent stand for the empty node.

* `Node.read?` and its companions: a node, the entries of block and flow collections;
* `document?`: the root of a text with at most one document.
-/

namespace Covenant.Yaml

/-- The prefixes of tags by their handles. -/
abbrev Handles : Type := List (List Char × List UInt8)

/-- The handles that need no directive. -/
def standardHandles : Handles :=
  [(['!'], Text.encode ['!']), (['!', '!'], Text.encode "tag:yaml.org,2002:".toList)]

/-- The full text of a tag: as written if it has no handle, otherwise behind the prefix of its handle. -/
def resolveTag? (hs : Handles) (handle : List Char) (suffix : List UInt8) : Option (List UInt8) :=
  if handle.isEmpty then some suffix
  else (hs.find? (fun h => h.1 == handle)).map fun h => h.2 ++ suffix

/-- Anchor and tag, in either order, each at most once. -/
def properties? (hs : Handles) : List Token → Option (Properties (List Char) × List Token)
  | .anchor a :: .tag h s :: ts => (resolveTag? hs h s).map fun t => (⟨some a, some t⟩, ts)
  | .tag h s :: .anchor a :: ts => (resolveTag? hs h s).map fun t => (⟨some a, some t⟩, ts)
  | .anchor a :: ts => some (⟨some a, none⟩, ts)
  | .tag h s :: ts => (resolveTag? hs h s).map fun t => (⟨none, some t⟩, ts)
  | ts => some (.none, ts)

/-- The tag of an exclamation mark alone, which says that a scalar has its usual meaning. -/
def bareTag : List UInt8 := Text.encode ['!']

/-- Where a node stands. -/
inductive Place where
  /-- In a block collection, or at the root. -/
  | block
  /-- In a block mapping, whose sequences need no indentation. -/
  | blockEntry
  | flow
deriving DecidableEq

/-- What a phrase leaves. -/
abbrev Phrase (α : Type) : Type := Option (α × List Token)

namespace Node

/-- Whether the tokens go on with one of the marks that end an entry of a block mapping. -/
def atEntryEnd : List Token → Bool
  | [] => true
  | .key :: _ | .value :: _ | .blockEnd :: _ => true
  | _ => false

mutual
/-- A node. -/
def read? (hs : Handles) (fuel : Nat) (place : Place) (ts : List Token) : Phrase (Node (List Char)) :=
  match fuel with
  | 0 => none
  | fuel + 1 =>
    match ts with
    | .alias a :: ts => some (.alias a, ts)
    | ts =>
      match properties? hs ts with
      | none => none
      | some (p, ts) =>
        match ts with
        | .scalar text plain :: ts =>
          let p := if p.tag == some bareTag then { p with tag := none } else p
          some (.scalar p text plain, ts)
        | .flowSequenceStart :: ts =>
          (flowItems? hs fuel true ts).map fun (items, ts) => (.sequence p items, ts)
        | .flowMappingStart :: ts =>
          (flowEntries? hs fuel true ts).map fun (entries, ts) => (.mapping p entries, ts)
        | .blockSequenceStart :: ts =>
          if place = .flow then
            if p.isEmpty then none else some (.scalar p [] true, .blockSequenceStart :: ts)
          else (blockItems? hs fuel ts).map fun (items, ts) => (.sequence p items, ts)
        | .blockMappingStart :: ts =>
          if place = .flow then
            if p.isEmpty then none else some (.scalar p [] true, .blockMappingStart :: ts)
          else (blockEntries? hs fuel ts).map fun (entries, ts) => (.mapping p entries, ts)
        | .blockEntry :: ts =>
          if place = .blockEntry then
            (dashItems? hs fuel (.blockEntry :: ts)).map fun (items, ts) => (.sequence p items, ts)
          else if p.isEmpty then none
          else some (.scalar p [] true, .blockEntry :: ts)
        | ts => if p.isEmpty then none else some (.scalar p [] true, ts)
/-- The items of an indented block sequence. -/
def blockItems? (hs : Handles) (fuel : Nat) (ts : List Token) : Phrase (List (Node (List Char))) :=
  match fuel with
  | 0 => none
  | fuel + 1 =>
    match ts with
    | .blockEnd :: ts => some ([], ts)
    | .blockEntry :: ts =>
      let item : Phrase (Node (List Char)) := match ts with
        | .blockEntry :: _ | .blockEnd :: _ => some (.empty, ts)
        | ts => read? hs fuel .block ts
      match item with
      | none => none
      | some (item, ts) => (blockItems? hs fuel ts).map fun (items, ts) => (item :: items, ts)
    | _ => none
/-- The items of a block sequence that is not indented. -/
def dashItems? (hs : Handles) (fuel : Nat) (ts : List Token) : Phrase (List (Node (List Char))) :=
  match fuel with
  | 0 => none
  | fuel + 1 =>
    match ts with
    | .blockEntry :: ts =>
      let item : Phrase (Node (List Char)) := match ts with
        | .blockEntry :: _ => some (.empty, ts)
        | ts => if atEntryEnd ts then some (.empty, ts) else read? hs fuel .block ts
      match item with
      | none => none
      | some (item, ts) => (dashItems? hs fuel ts).map fun (items, ts) => (item :: items, ts)
    | ts => some ([], ts)
/-- The entries of a block mapping. -/
def blockEntries? (hs : Handles) (fuel : Nat) (ts : List Token) :
    Phrase (List (Node (List Char) × Node (List Char))) :=
  match fuel with
  | 0 => none
  | fuel + 1 =>
    match ts with
    | .blockEnd :: ts => some ([], ts)
    | .key :: ts =>
      let key : Phrase (Node (List Char)) :=
        if atEntryEnd ts then some (.empty, ts) else read? hs fuel .blockEntry ts
      match key with
      | none => none
      | some (key, ts) =>
        let value : Phrase (Node (List Char)) := match ts with
          | .value :: ts => if atEntryEnd ts then some (.empty, ts) else read? hs fuel .blockEntry ts
          | ts => some (.empty, ts)
        match value with
        | none => none
        | some (value, ts) =>
          (blockEntries? hs fuel ts).map fun (entries, ts) => ((key, value) :: entries, ts)
    | _ => none
/-- The items of a flow sequence, the first one or those behind an item. An item that starts as a key is
a mapping of one entry; without a key the mark that follows is passed over. -/
def flowItems? (hs : Handles) (fuel : Nat) (first : Bool) (ts : List Token) :
    Phrase (List (Node (List Char))) :=
  match fuel with
  | 0 => none
  | fuel + 1 =>
    let start : Option (List Token) := match ts with
      | .flowSequenceEnd :: _ => some ts
      | .flowEntry :: r => if first then some ts else some r
      | _ => if first then some ts else none
    match start with
    | none => none
    | some (.flowSequenceEnd :: ts) => some ([], ts)
    | some (.key :: ts) =>
      let key : Phrase (Node (List Char)) := match ts with
        | [] => none
        | .value :: r | .flowEntry :: r | .flowSequenceEnd :: r => some (.empty, r)
        | ts => read? hs fuel .flow ts
      match key with
      | none => none
      | some (key, ts) =>
        let value : Phrase (Node (List Char)) := match ts with
          | .value :: ts =>
            match ts with
            | .flowEntry :: _ | .flowSequenceEnd :: _ => some (.empty, ts)
            | ts => read? hs fuel .flow ts
          | ts => some (.empty, ts)
        match value with
        | none => none
        | some (value, ts) =>
          (flowItems? hs fuel false ts).map fun (items, ts) => (.mapping .none [(key, value)] :: items, ts)
    | some ts =>
      match read? hs fuel .flow ts with
      | none => none
      | some (item, ts) => (flowItems? hs fuel false ts).map fun (items, ts) => (item :: items, ts)
/-- The entries of a flow mapping, the first one or those behind an entry. -/
def flowEntries? (hs : Handles) (fuel : Nat) (first : Bool) (ts : List Token) :
    Phrase (List (Node (List Char) × Node (List Char))) :=
  match fuel with
  | 0 => none
  | fuel + 1 =>
    let start : Option (List Token) := match ts with
      | .flowMappingEnd :: _ => some ts
      | .flowEntry :: r => if first then some ts else some r
      | _ => if first then some ts else none
    match start with
    | none => none
    | some (.flowMappingEnd :: ts) => some ([], ts)
    | some (.key :: ts) =>
      let key : Phrase (Node (List Char)) := match ts with
        | .value :: _ | .flowEntry :: _ | .flowMappingEnd :: _ => some (.empty, ts)
        | ts => read? hs fuel .flow ts
      match key with
      | none => none
      | some (key, ts) =>
        let value : Phrase (Node (List Char)) := match ts with
          | .value :: ts =>
            match ts with
            | .flowEntry :: _ | .flowMappingEnd :: _ => some (.empty, ts)
            | ts => read? hs fuel .flow ts
          | ts => some (.empty, ts)
        match value with
        | none => none
        | some (value, ts) =>
          (flowEntries? hs fuel false ts).map fun (entries, ts) => ((key, value) :: entries, ts)
    | some ts =>
      match read? hs fuel .flow ts with
      | none => none
      | some (key, ts) =>
        (flowEntries? hs fuel false ts).map fun (entries, ts) => ((key, .empty) :: entries, ts)
end

end Node

/-! ## Documents -/

/-- The directives in front of a document: at most one of a version, which is 1.1 or 1.2, and one for each
handle. -/
def directives? (versioned : Bool) (hs : Handles) : List Token → Option (Bool × Handles × List Token)
  | .version major minor :: ts =>
    if versioned || major != 1 || !(minor == 1 || minor == 2) then none
    else directives? true hs ts
  | .tagHandle handle uri :: ts =>
    if hs.any (fun h => h.1 == handle) then none
    else directives? versioned (hs ++ [(handle, uri)]) ts
  | ts => some (versioned, hs, ts)

/-- Whether the tokens go on with what cannot start the content of a document. -/
def atDocumentEnd : List Token → Bool
  | [] => true
  | .version .. :: _ | .tagHandle .. :: _ | .documentStart :: _ | .documentEnd :: _ => true
  | _ => false

/-- The root of a text: of nothing for an empty text, otherwise of its single document. -/
def document? (ts : List Token) : Option (Option (Node (List Char))) :=
  let fuel := 2 * ts.length + 2
  let root? : Phrase (Node (List Char)) :=
    match ts with
    | .version .. :: _ | .tagHandle .. :: _ | .documentStart :: _ =>
      match directives? false [] ts with
      | some (_, hs, .documentStart :: ts) =>
        if atDocumentEnd ts then some (.empty, ts) else Node.read? (hs ++ standardHandles) fuel .block ts
      | _ => none
    | ts => Node.read? standardHandles fuel .block ts
  if ts.isEmpty then some none
  else
    match root? with
    | some (root, ts) =>
      if (ts.dropWhile (· == .documentEnd)).isEmpty then some (some root) else none
    | none => none

/-- The root of a text. -/
def root? (text : String) : Option (Option (Node (List Char))) :=
  (normalize? text.toList).bind fun cs => (tokens? cs).bind document?

end Covenant.Yaml
