/-!
# Searching and replacing

* `containsText`: whether a text occurs in another one;
* `replaceAll`: a text with all occurrences of a pattern replaced, from left to right.
-/

namespace Covenant.Text

/-- Whether a text occurs in another one. -/
def containsText (pattern : List Char) : List Char → Bool
  | [] => pattern.isEmpty
  | c :: cs => pattern.isPrefixOf (c :: cs) || containsText pattern cs

/-- Replaces the occurrences of a pattern that is not empty. The first `skip` characters belong to an
occurrence already replaced. -/
def replaceFrom (pattern by' : List Char) (skip : Nat) : List Char → List Char
  | [] => []
  | c :: cs =>
    match skip with
    | skip + 1 => replaceFrom pattern by' skip cs
    | 0 =>
      if pattern.isPrefixOf (c :: cs) then by' ++ replaceFrom pattern by' (pattern.length - 1) cs
      else c :: replaceFrom pattern by' 0 cs

/-- A text with all occurrences of a pattern replaced. -/
def replaceAll (pattern by' : List Char) (cs : List Char) : List Char :=
  replaceFrom pattern by' 0 cs

example : replaceAll ['a', 'b'] ['x'] ['a', 'b', 'c', 'a', 'b'] = ['x', 'c', 'x'] := by decide

end Covenant.Text
