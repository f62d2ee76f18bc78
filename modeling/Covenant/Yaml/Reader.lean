import Covenant.Yaml.Node.Grammar
import Covenant.Yaml.Plain

/-!
# Reading YAML text

* `Node.resolveAliases?`: aliases and anchors by number; every alias needs an anchor before it;
* `Node.value?`: the value of a node, with tags applied and aliases followed;
* `Yaml.read?`: the value of a text with at most one document.

An anchor is numbered by how many names there were before it, so that a name used again may take the number
of another one. An alias stands for the last node with its number in the whole document.
-/

namespace Covenant.Yaml

open Covenant.Text

/-! ## Aliases -/

/-- The anchors seen so far with their numbers. -/
abbrev Names : Type := List (List Char × Nat)

/-- The names after an anchor: a name used again gets a new number. -/
def Names.define (ns : Names) (a : List Char) : Names :=
  (a, ns.length) :: ns.filter (fun n => n.1 != a)

/-- The properties of a node with its anchor numbered, and the names from there on. -/
def numberAnchor (p : Properties (List Char)) (ns : Names) : Properties Nat × Names :=
  match p.anchor with
  | none => (⟨none, p.tag⟩, ns)
  | some a => (⟨some ns.length, p.tag⟩, ns.define a)

namespace Node

mutual
/-- The node with numbers for anchors and aliases, and the names from there on. -/
def resolveAliases? (ns : Names) : Node (List Char) → Option (Node Nat × Names)
  | .scalar p text plain =>
    let (p, ns) := numberAnchor p ns
    some (.scalar p text plain, ns)
  | .alias a => (ns.find? (fun n => n.1 == a)).map fun n => (.alias n.2, ns)
  | .sequence p items =>
    let (p, ns) := numberAnchor p ns
    (resolveItems? ns items).map fun (items, ns) => (.sequence p items, ns)
  | .mapping p entries =>
    let (p, ns) := numberAnchor p ns
    (resolveEntries? ns entries).map fun (entries, ns) => (.mapping p entries, ns)
def resolveItems? (ns : Names) : List (Node (List Char)) → Option (List (Node Nat) × Names)
  | [] => some ([], ns)
  | n :: rest =>
    match resolveAliases? ns n with
    | none => none
    | some (n, ns) => (resolveItems? ns rest).map fun (rest, ns) => (n :: rest, ns)
def resolveEntries? (ns : Names) :
    List (Node (List Char) × Node (List Char)) → Option (List (Node Nat × Node Nat) × Names)
  | [] => some ([], ns)
  | (k, v) :: rest =>
    match resolveAliases? ns k with
    | none => none
    | some (k, ns) =>
      match resolveAliases? ns v with
      | none => none
      | some (v, ns) => (resolveEntries? ns rest).map fun (rest, ns) => ((k, v) :: rest, ns)
end

end Node

/-! ## Tags -/

/-- A tag with an exclamation mark in front, without that mark unless it stands alone. -/
def ownTag? (tag : List UInt8) : Option String :=
  match tag with
  | [] => none
  | b :: bs =>
    if b = 0x21 then (decode? (if bs.isEmpty then [b] else bs)).map String.ofList else none

/-- The octets of a core tag. -/
def coreTag (name : String) : List UInt8 :=
  encode ("tag:yaml.org,2002:" ++ name).toList

/-- The value of a scalar whose tag is no own one. A core tag demands one of its spellings; behind any other
tag there is a string. -/
def scalarValue? (tag : Option (List UInt8)) (text : List Char) (plain : Bool) : Option Yaml :=
  match tag with
  | none => if plain then ofPlain? text else some (.string (String.ofList text))
  | some t =>
    if t = coreTag "bool" then (boolWord? text).map .bool
    else if t = coreTag "int" then
      match (integer? text).map integerSize with
      | some (.held i h) => some (.number (.integer i h))
      | _ => none
    else if t = coreTag "float" then (float? text).map .number
    else if t = coreTag "null" then (if isNullWord text then some .null else none)
    else if t.head? == some 0x21 && plain then ofPlain? text
    else some (.string (String.ofList text))

/-! ## Values -/

/-- What the values of a document depend on: the nodes behind the aliases, and how many of them may be
followed. -/
structure Targets where
  nodes : List (Nat × Node Nat)
  most : Nat

/-- The node behind an alias, and the count of aliases followed. -/
def Targets.follow? (ts : Targets) (a used : Nat) : Option (Node Nat × Nat) :=
  if ts.most ≤ used then none
  else (ts.nodes.reverse.find? (fun n => n.1 == a)).map fun n => (n.2, used + 1)

/-- A result with the count of aliases followed. -/
abbrev Counted (α : Type) : Type := StateT Nat Option α

/-- The value inside an own tag, if the node has one that counts. -/
def withTag (tagged : Bool) (tag : Option (List UInt8)) (value : Bool → Counted Yaml) : Counted Yaml :=
  match tagged, tag.bind ownTag? with
  | false, some t => fun used => (value true used).map fun (v, used) => (.tagged t v, used)
  | tagged, _ => value tagged

/-- The value of a node with at most `depth` collections inside each other. Inside an own tag, further tags
of the node and of its keys do not count. -/
def Node.value? (ts : Targets) (depth : Nat) (tagged : Bool) (n : Node Nat) : Counted Yaml := fun used =>
  let target? : Option (Node Nat × Bool × Nat) :=
    match n with
    | .alias a => (ts.follow? a used).map fun (n, used) => (n, false, used)
    | n => some (n, tagged, used)
  match target? with
  | none => none
  | some (n, tagged, used) =>
    match n with
    | .alias _ => none
    | .scalar p text plain =>
      withTag tagged p.tag (fun tagged => fun used =>
        (scalarValue? (if tagged then none else p.tag) text plain).map (·, used)) used
    | .sequence p items =>
      match depth with
      | 0 => none
      | depth + 1 =>
        withTag tagged p.tag (fun _ => do
          return .sequence (← items.mapM (Node.value? ts depth false))) used
    | .mapping p entries =>
      match depth with
      | 0 => none
      | depth + 1 =>
        withTag tagged p.tag (fun tagged => do
          let entries ← entries.mapM fun (k, v) => do
            let k ← Node.value? ts depth tagged k
            let v ← Node.value? ts depth false v
            return (k, v)
          if distinctKeys entries then return .mapping entries else failure) used

/-- How deep collections may be nested. -/
def nestingLimit : Nat := 128

/-- How many aliases may be followed for each node of a document. -/
def aliasesPerNode : Nat := 100

/-- The value of a text. A text without a document stands for null. -/
def read? (text : String) : Option Yaml :=
  match root? text with
  | none => none
  | some none => some .null
  | some (some root) =>
    match root.resolveAliases? [] with
    | none => none
    | some (root, _) =>
      (root.value? ⟨root.anchored, aliasesPerNode * root.size⟩ nestingLimit false 0).map Prod.fst

end Covenant.Yaml
