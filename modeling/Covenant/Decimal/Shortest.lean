import Covenant.Decimal

/-!
# Shortest decimal text of a double

The digits of a double are the fewest that read back as it, and of those the ones nearest to it, a tie
going to the even last digit. How the digits are laid out is a record of its own.

* `interval`: the numbers that round to a double, in quarters of its last place;
* `shortest`: coefficient and exponent of the shortest decimal in that interval;
* `Layout`: where positional notation ends and how an exponent is signed;
* `Layout.text`: the written form.
-/

namespace Covenant.Decimal

/-- The numbers that round to a double of positive magnitude, in quarters of the last place. -/
structure Interval where
  low : Nat
  high : Nat
  /-- Whether the ends belong to it. -/
  closed : Bool

/-- Half a place to either side, and a quarter below a power of two; a tie goes to an even mantissa. -/
def interval (x : Binary64) : Interval where
  low := if x.mantissa = 0x10000000000000 ∧ x.exponent ≠ -1074 then 4 * x.mantissa - 1 else 4 * x.mantissa - 2
  high := 4 * x.mantissa + 2
  closed := x.mantissa % 2 == 0

/-- The place of the leading digit: the least `t` with the magnitude below `10 ^ t`. -/
def leadingPlace (x : Binary64) : Int :=
  let r := x.ratio
  ((digits (r.1 * Nat.pow 10 340 / r.2)).length : Int) - 340

/-- The factors that turn quarters of the last place of `x`, and multiples of `10 ^ p`, into one unit. -/
def commonUnits (x : Binary64) (p : Int) : Nat × Nat :=
  let q := x.exponent - 2
  (Nat.pow 2 q.toNat * Nat.pow 10 (-p).toNat, Nat.pow 10 p.toNat * Nat.pow 2 (-q).toNat)

/-- Of the two neighbours of `x` on the grid `10 ^ p` that round to `x`, the nearer one. -/
def neighbour? (x : Binary64) (p : Int) : Option Nat :=
  let (a, b) := commonUnits x p
  let i := interval x
  let within (d : Nat) : Bool :=
    if i.closed then i.low * a ≤ d * b && d * b ≤ i.high * a
    else i.low * a < d * b && d * b < i.high * a
  let v := 4 * x.mantissa * a
  let d := v / b
  let below := v - d * b
  let above := (d + 1) * b - v
  match within d, within (d + 1) with
  | true, true =>
    if below < above then some d else if above < below then some (d + 1) else some (d + d % 2)
  | true, false => some d
  | false, true => some (d + 1)
  | false, false => none

/-- The digits of a coefficient without its trailing zeros, and the exponent that makes up for them. -/
def stripZeros (n : Nat) (p : Int) : List Char × Int :=
  let ds := digits n
  let kept := (ds.reverse.dropWhile (· == '0')).reverse
  (kept, p + (ds.length - kept.length : Nat))

/-- Digits and exponent of the shortest decimal that rounds to a non-zero double. Seventeen digits
always suffice. -/
def shortest (x : Binary64) : List Char × Int :=
  let t := leadingPlace x
  let found := (List.range 17).findSome? fun n =>
    let p := t - (n + 1 : Nat)
    (neighbour? x p).map (stripZeros · p)
  found.getD (['0'], 0)

/-! ## Layout -/

/-- How the digits of a double are laid out. -/
structure Layout where
  /-- Least number of places before the point that is written positionally; negative ones count the
  zeros after it. -/
  leastPlaces : Int
  /-- Greatest number of places before the point that is written positionally. -/
  mostPlaces : Int
  /-- Whether a positive exponent has a sign. -/
  plus : Bool

/-- Digits with a point after the given number of places. -/
def positional (ds : List Char) (places : Int) : List Char :=
  if places ≤ 0 then ['0', '.'] ++ List.replicate (-places).toNat '0' ++ ds
  else
    let n := places.toNat
    if ds.length ≤ n then ds ++ List.replicate (n - ds.length) '0' ++ ['.', '0']
    else ds.take n ++ ['.'] ++ ds.drop n

/-- One digit, the others after a point, and an exponent. -/
def exponential (plus : Bool) (ds : List Char) (places : Int) : List Char :=
  let e := places - 1
  let mantissa := match ds with
    | [] => ['0']
    | [d] => [d]
    | d :: ds => d :: '.' :: ds
  let sign := if e < 0 then ['-'] else if plus then ['+'] else []
  mantissa ++ ['e'] ++ sign ++ digits e.natAbs

/-- The text of a double. -/
def Layout.text (l : Layout) (x : Binary64) : String :=
  let sign := if x.negative then ['-'] else []
  let (ds, p) := if x.isZero then (['0'], 0) else shortest x
  let places := p + ds.length
  let body :=
    if l.leastPlaces ≤ places ∧ places ≤ l.mostPlaces then positional ds places
    else exponential l.plus ds places
  String.ofList (sign ++ body)

end Covenant.Decimal
