/-!
# Blank characters

The characters with the Unicode property `White_Space`, and trimming by them.

* `isBlank`: membership in the property;
* `trim`: a text without the blank characters at both of its ends;
* `isBlankText`: whether a text holds blank characters only.
-/

namespace Covenant.Text

/-- The code points with the property `White_Space`. -/
def isBlank (c : Char) : Bool :=
  let n := c.toNat
  (9 ≤ n && n ≤ 13) || n = 0x20 || n = 0x85 || n = 0xA0 || n = 0x1680 ||
    (0x2000 ≤ n && n ≤ 0x200A) || n = 0x2028 || n = 0x2029 || n = 0x202F || n = 0x205F || n = 0x3000

/-- The characters of a list from the first one that is not blank. -/
def trimFront (cs : List Char) : List Char :=
  cs.dropWhile isBlank

/-- A list of characters without the blank ones at both ends. -/
def trimList (cs : List Char) : List Char :=
  (trimFront (trimFront cs).reverse).reverse

example : trimList [' ', 'a', ' ', 'b', '\t'] = ['a', ' ', 'b'] := by decide

/-- A text without the blank characters at both ends. -/
def trim (s : String) : String :=
  String.ofList (trimList s.toList)

/-- Whether a text holds blank characters only. -/
def isBlankText (s : String) : Bool :=
  s.toList.all isBlank

end Covenant.Text
