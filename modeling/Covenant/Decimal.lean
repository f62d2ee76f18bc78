import Covenant.Binary64
import Covenant.Text.Case

/-!
# Decimal text

Natural numbers and doubles as decimal digits.

* `naturalOf?`: the value of a text of decimal digits;
* `digits`: the decimal digits of a natural number;
* `nearest?`: the double nearest to `± n * 10 ^ k`, `none` beyond the finite range;
* `Scientific`: a decimal numeral split into sign, digits and exponent, with the reader `readFloat?`.
-/

namespace Covenant.Decimal

open Covenant.Text

/-- The value of a decimal digit. -/
def digitValue (c : Char) : Nat := c.toNat - 48

/-- The value of a list of digits that follow a number already read. -/
def accumulate (n : Nat) (cs : List Char) : Nat :=
  cs.foldl (fun n c => 10 * n + digitValue c) n

/-- The value of a non-empty list of digits. -/
def naturalOf? (cs : List Char) : Option Nat :=
  if cs.isEmpty || !cs.all isDigit then none else some (accumulate 0 cs)

/-- An unsigned numeral with an optional plus sign, up to the given bound. -/
def unsigned? (bound : Nat) (s : String) : Option Nat :=
  let body := match s.toList with
    | '+' :: cs => cs
    | cs => cs
  (naturalOf? body).filter (· ≤ bound)

/-- A numeral with an optional sign, within the given bounds. -/
def signed? (low high : Int) (s : String) : Option Int :=
  let value : Option Int := match s.toList with
    | '+' :: cs => (naturalOf? cs).map Int.ofNat
    | '-' :: cs => (naturalOf? cs).map (fun n => -Int.ofNat n)
    | cs => (naturalOf? cs).map Int.ofNat
  value.filter (fun i => decide (low ≤ i ∧ i ≤ high))

/-- The integers of 64 bits with a sign. -/
abbrev Int64Value : Type := { i : Int // -0x8000000000000000 ≤ i ∧ i < 0x8000000000000000 }

/-- A numeral with an optional sign, of at most 64 bits with the sign. -/
def int64? (s : String) : Option Int64Value :=
  (signed? (-0x8000000000000000) 0x7FFFFFFFFFFFFFFF s).bind fun i =>
    if h : -0x8000000000000000 ≤ i ∧ i < 0x8000000000000000 then some ⟨i, h⟩ else none

/-- The decimal digits of a natural number. -/
def digits (n : Nat) : List Char := Nat.toDigits 10 n

/-- A natural number as text. -/
def ofNat (n : Nat) : String := String.ofList (digits n)

/-- An integer as text. -/
def ofInt (i : Int) : String :=
  if i < 0 then "-" ++ ofNat i.natAbs else ofNat i.natAbs

/-- The double nearest to `± n * 10 ^ k`. A magnitude of more than 310 places is beyond the finite
range, and one that starts after 330 zeros rounds to zero. -/
def nearest? (negative : Bool) (n : Nat) (k : Int) : Option Binary64 :=
  if n = 0 then some (.zero negative)
  else
    let places : Int := (digits n).length + k
    if 310 < places then none
    else if places < -330 then some (.zero negative)
    else Binary64.ofRatio? negative (n * Nat.pow 10 k.toNat) (Nat.pow 10 (-k).toNat)

/-! ## Numerals with fraction and exponent -/

/-- The numeral `± n * 10 ^ k`. -/
structure Scientific where
  negative : Bool
  coefficient : Nat
  exponent : Int

/-- The nearest double. -/
def Scientific.toBinary64? (x : Scientific) : Option Binary64 :=
  nearest? x.negative x.coefficient x.exponent

/-- The exponent after `e` or `E`: digits with an optional sign, up to the end of the text. -/
def exponent? (cs : List Char) : Option Int :=
  match cs with
  | [] => some 0
  | c :: cs =>
    if c = 'e' ∨ c = 'E' then
      match cs with
      | '+' :: cs => (naturalOf? cs).map Int.ofNat
      | '-' :: cs => (naturalOf? cs).map (fun n => -Int.ofNat n)
      | cs => (naturalOf? cs).map Int.ofNat
    else none

/-- An unsigned numeral: digits with at most one point among them, then an optional exponent. -/
def unsignedScientific? (negative : Bool) (cs : List Char) : Option Scientific :=
  let whole := cs.takeWhile isDigit
  let (fraction, rest) := match cs.dropWhile isDigit with
    | '.' :: r => (r.takeWhile isDigit, r.dropWhile isDigit)
    | r => ([], r)
  if whole.isEmpty && fraction.isEmpty then none
  else (exponent? rest).map fun e =>
    ⟨negative, accumulate 0 (whole ++ fraction), e - fraction.length⟩

/-- A numeral with an optional sign. -/
def scientific? (cs : List Char) : Option Scientific :=
  match cs with
  | '+' :: cs => unsignedScientific? false cs
  | '-' :: cs => unsignedScientific? true cs
  | cs => unsignedScientific? false cs

/-- The finite double that a text writes as a numeral. -/
def readFloat? (s : String) : Option Binary64 :=
  (scientific? s.toList).bind Scientific.toBinary64?

end Covenant.Decimal
