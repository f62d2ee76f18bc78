/-!
# Finite numbers of the format binary64

A finite double is held as the dyadic rational that it denotes: a sign, a mantissa below `2 ^ 53` and
the exponent of its last place. Each value has one such form, the two zeros apart.

* `Binary64`: the canonical form, with its bounds as proofs;
* `ofRatio?`: the number nearest to a quotient of naturals, a tie going to the even mantissa, and
  `none` beyond the largest finite number;
* `ofInt`: the number nearest to an integer;
* `sameValue`: equality of the denoted rationals, so that the two zeros are the same.
-/

namespace Covenant

/-- A finite binary64 number `± mantissa * 2 ^ exponent`. -/
structure Binary64 where
  negative : Bool
  mantissa : Nat
  /-- Exponent of the last place. -/
  exponent : Int
  mantissa_lt : mantissa < 0x20000000000000
  le_exponent : -1074 ≤ exponent
  exponent_le : exponent ≤ 971
  /-- Only the least exponent leaves the leading place empty. -/
  normal : exponent = -1074 ∨ 0x10000000000000 ≤ mantissa
deriving DecidableEq

namespace Binary64

/-- The zero of a sign. -/
def zero (negative : Bool) : Binary64 :=
  ⟨negative, 0, -1074, by decide, by decide, by decide, Or.inl rfl⟩

/-- The number with the given mantissa and exponent, where they are canonical. -/
def ofParts? (negative : Bool) (m : Nat) (e : Int) : Option Binary64 :=
  if h : m < 0x20000000000000 ∧ -1074 ≤ e ∧ e ≤ 971 ∧ (e = -1074 ∨ 0x10000000000000 ≤ m) then
    some ⟨negative, m, e, h.1, h.2.1, h.2.2.1, h.2.2.2⟩
  else none

def isZero (x : Binary64) : Bool := x.mantissa == 0

/-- The number with the given sign. -/
def withSign (x : Binary64) (negative : Bool) : Binary64 :=
  { x with negative := negative }

/-- Equality of the denoted values: the zeros are equal, all else is equal in canonical form only. -/
def sameValue (x y : Binary64) : Bool :=
  (x.isZero && y.isZero) || decide (x = y)

theorem sameValue_self (x : Binary64) : x.sameValue x = true := by
  simp [sameValue]

theorem sameValue_comm (x y : Binary64) : x.sameValue y = y.sameValue x := by
  simp only [sameValue, Bool.and_comm (x := x.isZero), eq_comm (a := x)]

/-! ## Rounding a quotient -/

/-- Numerator and denominator of `num / den / 2 ^ e`. -/
def scaled (num den : Nat) (e : Int) : Nat × Nat :=
  (num * Nat.pow 2 (-e).toNat, den * Nat.pow 2 e.toNat)

/-- The natural number nearest to `num / den`, a tie going to the even one. -/
def roundQuotient (num den : Nat) : Nat :=
  let q := num / den
  let r := num % den
  if 2 * r < den then q else if den < 2 * r then q + 1 else q + q % 2

/-- The least exponent, not below `-1074`, at which the quotient has fewer than 54 binary places. -/
def lastPlace (num den : Nat) : Int :=
  let guess : Int := num.log2 - den.log2 - 53
  let s := scaled num den guess
  max (-1074) (if s.1 / s.2 < 0x20000000000000 then guess else guess + 1)

/-- The number nearest to `± num / den`, ties to the even mantissa; `none` beyond the finite range.
A carry into place 54 moves the exponent by one. -/
def ofRatio? (negative : Bool) (num den : Nat) : Option Binary64 :=
  if num = 0 then some (zero negative)
  else
    let e := lastPlace num den
    let s := scaled num den e
    let m := roundQuotient s.1 s.2
    if m = 0x20000000000000 then ofParts? negative 0x10000000000000 (e + 1) else ofParts? negative m e

/-- The number nearest to an integer. Integers of at most 64 places are well inside the range. -/
def ofInt (i : Int) : Binary64 :=
  (ofRatio? (decide (i < 0)) i.natAbs 1).getD (zero false)

/-- Numerator and denominator of the magnitude. -/
def ratio (x : Binary64) : Nat × Nat :=
  (x.mantissa * Nat.pow 2 x.exponent.toNat, Nat.pow 2 (-x.exponent).toNat)

/-- The rounded product of a magnitude with a quotient of naturals. -/
def scaleBy? (x : Binary64) (num den : Nat) : Option Binary64 :=
  ofRatio? x.negative (x.ratio.1 * num) (x.ratio.2 * den)

example : ofRatio? false 1 2 = ofParts? false 0x10000000000000 (-53) := by decide
example : ofRatio? false 0x20000000000001 1 = ofRatio? false 0x20000000000000 1 := by decide

end Binary64

end Covenant
