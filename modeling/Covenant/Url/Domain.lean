import Covenant.Text.Case
import Covenant.Text.Split
import Covenant.Url.Punycode

/-!
# Domain names

Domain names in the form in which they are looked up: lower case, each label that is not ASCII as Punycode
behind the mark `xn--`.

* `Domain.fold`: what a character of a name stands for: letter case and width aside, and without the
  characters that are not shown;
* `Domain.ascii?`: the name in ASCII. Letters beyond Latin, Greek and Cyrillic are taken as they are.
-/

namespace Covenant.Domain

open Covenant.Text

/-- The characters of ASCII that no domain name has. -/
def isForbidden (c : Char) : Bool :=
  c.toNat ≤ 0x20 || c.toNat = 0x7F || "%#/:<>?@[\\]^\x60\x7b|\x7d".toList.contains c

/-- Characters beyond ASCII that no domain name has: controls, blanks, marks of direction, characters for
private use, and code points that are no characters. -/
def isDisallowed (c : Char) : Bool :=
  let n := c.toNat
  (0x80 ≤ n && n ≤ 0xA0) || (0x2000 ≤ n && n ≤ 0x200A) || n = 0x200E || n = 0x200F ||
    (0x2028 ≤ n && n ≤ 0x202F) || n = 0x205F || (0x2066 ≤ n && n ≤ 0x206F) || n = 0x3000 ||
    (0xE000 ≤ n && n ≤ 0xF8FF) || (0xFDD0 ≤ n && n ≤ 0xFDEF) || (0xFFF9 ≤ n && n ≤ 0xFFFF) ||
    (0x10000 ≤ n && 0xFFFE ≤ n % 0x10000) || 0xF0000 ≤ n

/-- Characters that are not shown and left out. -/
def isHidden (c : Char) : Bool :=
  let n := c.toNat
  n = 0xAD || n = 0x200B || n = 0x2060 || n = 0xFEFF || (0xFE00 ≤ n && n ≤ 0xFE0F)

/-- The lower case of a letter of the Latin, Greek and Cyrillic alphabets. -/
def lower (c : Char) : Char :=
  let n := c.toNat
  if n < 0x80 then lowerAscii c
  else if (0xC0 ≤ n && n ≤ 0xDE && n ≠ 0xD7) || (0x391 ≤ n && n ≤ 0x3A9 && n ≠ 0x3A2) ||
      (0x410 ≤ n && n ≤ 0x42F) then Char.ofNat (n + 0x20)
  else if 0x400 ≤ n && n ≤ 0x40F then Char.ofNat (n + 0x50)
  else if n = 0x178 then 'ÿ'
  else if n = 0x1E9E then 'ß'
  else if ((0x100 ≤ n && n ≤ 0x12E) || (0x14A ≤ n && n ≤ 0x176) || (0x460 ≤ n && n ≤ 0x480) ||
      (0x48A ≤ n && n ≤ 0x4BE) || (0x4D0 ≤ n && n ≤ 0x52E) || (0x1E00 ≤ n && n ≤ 0x1E94) ||
      (0x1EA0 ≤ n && n ≤ 0x1EFE)) && n % 2 = 0 then Char.ofNat (n + 1)
  else if ((0x139 ≤ n && n ≤ 0x147) || (0x179 ≤ n && n ≤ 0x17D)) && n % 2 = 1 then Char.ofNat (n + 1)
  else c

/-- What a character of a name stands for. -/
def fold (c : Char) : List Char :=
  let n := c.toNat
  if isHidden c then []
  else if n = 0x3002 || n = 0xFF0E || n = 0xFF61 then ['.']
  else if 0xFF01 ≤ n && n ≤ 0xFF5E then [lowerAscii (Char.ofNat (n - 0xFEE0))]
  else [lower c]

/-- The mark of an encoded label. -/
def mark : List Char := ['x', 'n', '-', '-']

/-- A label in ASCII. One that is marked as encoded has to be the encoding of a text beyond ASCII. -/
def labelAscii? (label : List Char) : Option (List Char) :=
  if label.all (·.toNat < 0x80) then
    if mark.isPrefixOf label then
      match Punycode.decode? (label.drop 4) with
      | some cs =>
        if cs.all (·.toNat < 0x80) || cs.any isDisallowed then none else some label
      | none => none
    else some label
  else some (mark ++ Punycode.encode label)

/-- The name in ASCII. -/
def ascii? (cs : List Char) : Option (List Char) :=
  let folded := cs.flatMap fold
  if folded.any (fun c => isForbidden c || isDisallowed c) then none
  else ((splitAt '.' folded).mapM labelAscii?).map (joinWith '.')

end Covenant.Domain
