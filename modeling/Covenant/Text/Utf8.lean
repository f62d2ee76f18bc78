/-!
# UTF-8

Text as octets. A character takes one to four octets; each character has one form only.

* `encode`: the octets of a text;
* `decodeSteps`: the characters of octets, with a gap for each stretch that is no character;
* `decode?`: the text of octets that are all well formed;
* `decodeLossy`: the text with U+FFFD in each gap.
-/

namespace Covenant.Text

/-- The octets of a character. -/
def encodeChar (c : Char) : List UInt8 :=
  let n := c.toNat
  if n < 0x80 then [n.toUInt8]
  else if n < 0x800 then [(0xC0 + n / 0x40).toUInt8, (0x80 + n % 0x40).toUInt8]
  else if n < 0x10000 then
    [(0xE0 + n / 0x1000).toUInt8, (0x80 + n / 0x40 % 0x40).toUInt8, (0x80 + n % 0x40).toUInt8]
  else
    [(0xF0 + n / 0x40000).toUInt8, (0x80 + n / 0x1000 % 0x40).toUInt8,
      (0x80 + n / 0x40 % 0x40).toUInt8, (0x80 + n % 0x40).toUInt8]

/-- The octets of a text. -/
def encode (cs : List Char) : List UInt8 :=
  cs.flatMap encodeChar

@[simp] theorem encode_cons (c : Char) (cs : List Char) : encode (c :: cs) = encodeChar c ++ encode cs := by
  simp [encode]

/-! ## Decoding -/

/-- A character whose first octets are read: how many are owed, the range of the next one, and the bits
read so far. -/
structure Pending where
  owed : Nat
  least : Nat
  greatest : Nat
  bits : Nat

/-- The character of a first octet if it is complete, or what it leaves pending. The ranges leave out
longer forms than needed, surrogates, and numbers beyond U+10FFFF. -/
def beginChar (b : UInt8) : List (Option Char) × Option Pending :=
  let n := b.toNat
  if n < 0x80 then ([some (Char.ofNat n)], none)
  else if n < 0xC2 then ([none], none)
  else if n < 0xE0 then ([], some ⟨1, 0x80, 0xBF, n - 0xC0⟩)
  else if n = 0xE0 then ([], some ⟨2, 0xA0, 0xBF, 0⟩)
  else if n = 0xED then ([], some ⟨2, 0x80, 0x9F, 0xD⟩)
  else if n < 0xF0 then ([], some ⟨2, 0x80, 0xBF, n - 0xE0⟩)
  else if n = 0xF0 then ([], some ⟨3, 0x90, 0xBF, 0⟩)
  else if n < 0xF4 then ([], some ⟨3, 0x80, 0xBF, n - 0xF0⟩)
  else if n = 0xF4 then ([], some ⟨3, 0x80, 0x8F, 4⟩)
  else ([none], none)

/-- What an octet adds to the decoded text. One that cannot continue the pending character ends it as a
gap and begins anew. -/
def decodeStep (q : Option Pending) (b : UInt8) : List (Option Char) × Option Pending :=
  match q with
  | none => beginChar b
  | some p =>
    let n := b.toNat
    if p.least ≤ n ∧ n ≤ p.greatest then
      let bits := 0x40 * p.bits + (n - 0x80)
      if p.owed ≤ 1 then ([some (Char.ofNat bits)], none)
      else ([], some ⟨p.owed - 1, 0x80, 0xBF, bits⟩)
    else
      let (out, q) := beginChar b
      (none :: out, q)

/-- The characters of octets, with a gap for each stretch that is no character. -/
def decodeSteps (q : Option Pending) : List UInt8 → List (Option Char)
  | [] => match q with
    | none => []
    | some _ => [none]
  | b :: bs =>
    let (out, q) := decodeStep q b
    out ++ decodeSteps q bs

/-- The text of octets, all of which are well formed. -/
def decode? (bs : List UInt8) : Option (List Char) :=
  (decodeSteps none bs).mapM id

/-- The text of octets, with U+FFFD for each stretch that is not well formed. -/
def decodeLossy (bs : List UInt8) : List Char :=
  (decodeSteps none bs).map (·.getD (Char.ofNat 0xFFFD))

example : decode? [0x61, 0xC3, 0xA9] = some ['a', 'é'] := by decide
example : decode? [0xC0, 0x80] = none := by decide

end Covenant.Text
