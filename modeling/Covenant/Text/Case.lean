/-!
# Letter case of ASCII words

Case mapping as far as it can produce an ASCII word.

* `upperAscii`: the upper case of a character whose upper case is ASCII text, which includes a few
  letters outside ASCII (`ı`, `ſ`, `ß` and the Latin ligatures);
* `upperWord`: the upper case of a text, other characters standing for themselves;
* `lowerAscii`: the lower case of the ASCII letters;
* `sameIgnoringCase`: equality of texts up to the case of ASCII letters.

A text whose full upper case is an ASCII word has that word as its `upperWord`, and no other text has.
-/

namespace Covenant.Text

/-- The upper case of a character, where it is ASCII text; any other character is kept. -/
def upperAscii (c : Char) : List Char :=
  if 'a' ≤ c ∧ c ≤ 'z' then [Char.ofNat (c.toNat - 32)]
  else match c with
    | 'ı' => ['I']
    | 'ſ' => ['S']
    | 'ß' => ['S', 'S']
    | 'ﬀ' => ['F', 'F']
    | 'ﬁ' => ['F', 'I']
    | 'ﬂ' => ['F', 'L']
    | 'ﬃ' => ['F', 'F', 'I']
    | 'ﬄ' => ['F', 'F', 'L']
    | 'ﬅ' => ['S', 'T']
    | 'ﬆ' => ['S', 'T']
    | c => [c]

/-- A text in upper case, as far as the result is ASCII. -/
def upperWord (s : String) : String :=
  String.ofList (s.toList.flatMap upperAscii)

/-- The lower case of an ASCII letter; any other character is kept. -/
def lowerAscii (c : Char) : Char :=
  if 'A' ≤ c ∧ c ≤ 'Z' then Char.ofNat (c.toNat + 32) else c

theorem toNat_lowerAscii {c : Char} (h : 'A' ≤ c ∧ c ≤ 'Z') : (lowerAscii c).toNat = c.toNat + 32 := by
  have hle : c.toNat ≤ 90 := h.2
  have hvalid : (c.toNat + 32).isValidChar := .inl (by omega)
  rw [lowerAscii, if_pos h, Char.ofNat, dif_pos hvalid]
  rfl

/-- A text with its ASCII letters in lower case. -/
def lowerText (s : String) : String :=
  String.ofList (s.toList.map lowerAscii)

/-- Equality of texts up to the case of ASCII letters. -/
def sameIgnoringCase (s t : String) : Bool :=
  lowerText s == lowerText t

/-- The letters and digits of ASCII. -/
def isAlphanumeric (c : Char) : Bool :=
  ('a' ≤ c && c ≤ 'z') || ('A' ≤ c && c ≤ 'Z') || ('0' ≤ c && c ≤ '9')

/-- The decimal digits of ASCII. -/
def isDigit (c : Char) : Bool :=
  '0' ≤ c && c ≤ '9'

example : upperWord "poﬆ" = "POST" := by decide

end Covenant.Text
