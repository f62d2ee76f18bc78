import Covenant.Yaml.Token

/-!
# YAML nodes

The tree of a document as it is written: scalars with their text, collections, and aliases for nodes that
have an anchor.

* `Properties`: anchor and tag of a node;
* `Node`: the tree, over the type of its anchors;
* `Node.size`: the number of nodes, collections counted at both of their ends;
* `Node.anchored`: the nodes that have an anchor, in document order.
-/

namespace Covenant.Yaml

/-- Anchor and tag of a node. The tag is held as octets. -/
structure Properties (α : Type) where
  anchor : Option α
  tag : Option (List UInt8)

namespace Properties

def none : Properties α := ⟨.none, .none⟩

def isEmpty (p : Properties α) : Bool := p.anchor.isNone && p.tag.isNone

end Properties

/-- A node of a document. -/
inductive Node (α : Type) where
  /-- A scalar; plain ones may stand for other values than strings. -/
  | scalar (p : Properties α) (text : List Char) (plain : Bool)
  | sequence (p : Properties α) (items : List (Node α))
  | mapping (p : Properties α) (entries : List (Node α × Node α))
  | alias (name : α)

namespace Node

/-- The node that stands where nothing is written. -/
def empty : Node α := .scalar .none [] true

mutual
/-- The number of scalars, aliases, and starts and ends of collections. -/
def size : Node α → Nat
  | .scalar .. => 1
  | .alias _ => 1
  | .sequence _ items => 2 + sizeItems items
  | .mapping _ entries => 2 + sizeEntries entries
def sizeItems : List (Node α) → Nat
  | [] => 0
  | n :: ns => n.size + sizeItems ns
def sizeEntries : List (Node α × Node α) → Nat
  | [] => 0
  | (k, v) :: es => k.size + v.size + sizeEntries es
end

/-- The anchor of a node. -/
def anchor? : Node α → Option α
  | .scalar p .. => p.anchor
  | .sequence p _ => p.anchor
  | .mapping p _ => p.anchor
  | .alias _ => none

/-- The node itself, if it has an anchor. -/
def ownAnchor (n : Node α) : List (α × Node α) :=
  match n.anchor? with
  | some a => [(a, n)]
  | none => []

mutual
/-- The nodes with an anchor, a collection before its parts. -/
def anchored : Node α → List (α × Node α)
  | .scalar p text plain => ownAnchor (.scalar p text plain)
  | .alias _ => []
  | .sequence p items => ownAnchor (.sequence p items) ++ anchoredItems items
  | .mapping p entries => ownAnchor (.mapping p entries) ++ anchoredEntries entries
def anchoredItems : List (Node α) → List (α × Node α)
  | [] => []
  | n :: ns => n.anchored ++ anchoredItems ns
def anchoredEntries : List (Node α × Node α) → List (α × Node α)
  | [] => []
  | (k, v) :: es => k.anchored ++ v.anchored ++ anchoredEntries es
end

end Node

end Covenant.Yaml
