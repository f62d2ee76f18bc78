import Covenant.Decimal
import Covenant.Yaml

/-!
# What plain scalars stand for

A scalar without quotes may stand for null, a truth value or a number. All else is a string.

* `nullWord?`, `boolWord?`, `integer?`, `float?`: the spellings of each kind;
* `leadingZero`: digits that start with a zero are a string;
* `ofPlain?`: the value of a plain scalar, `none` for an integer that needs more than 64 bits and has
  at most 128.
-/

namespace Covenant.Yaml

open Covenant.Text Covenant.Decimal

/-- The words for null. -/
def isNullWord (cs : List Char) : Bool :=
  ["null", "Null", "NULL", "~"].any (fun w => w.toList == cs)

/-- The words for truth values. -/
def boolWord? (cs : List Char) : Option Bool :=
  if ["true", "True", "TRUE"].any (fun w => w.toList == cs) then some true
  else if ["false", "False", "FALSE"].any (fun w => w.toList == cs) then some false
  else none

/-- A text without a sign in front. -/
def dropSign : List Char → List Char
  | '+' :: cs => cs
  | '-' :: cs => cs
  | cs => cs

/-- Digits that start with a zero and are more than one. -/
def leadingZero (cs : List Char) : Bool :=
  match dropSign cs with
  | '0' :: c :: cs => (c :: cs).all isDigit
  | _ => false

/-! ## Integers -/

/-- The value of a digit of a radix up to 16. -/
def radixDigit? (radix : Nat) (c : Char) : Option Nat :=
  let value : Option Nat :=
    if '0' ≤ c ∧ c ≤ '9' then some (c.toNat - 48)
    else if 'a' ≤ c ∧ c ≤ 'f' then some (c.toNat - 87)
    else if 'A' ≤ c ∧ c ≤ 'F' then some (c.toNat - 55)
    else none
  value.filter (· < radix)

/-- The number of a text of one or more digits of a radix. -/
def radixNumber? (radix : Nat) (cs : List Char) : Option Nat :=
  if cs.isEmpty then none
  else cs.foldlM (fun n c => (radixDigit? radix c).map (radix * n + ·)) 0

/-- The number of digits behind the mark of their radix. -/
def markedNumber? : List Char → Option Nat
  | '0' :: 'x' :: cs => radixNumber? 16 cs
  | '0' :: 'o' :: cs => radixNumber? 8 cs
  | '0' :: 'b' :: cs => radixNumber? 2 cs
  | _ => none

/-- The integer of a text: decimal or marked digits with an optional sign. -/
def integer? (cs : List Char) : Option Int :=
  let magnitude? (ds : List Char) : Option Nat :=
    match markedNumber? ds with
    | some n => some n
    | none => if leadingZero cs then none else radixNumber? 10 ds
  match cs with
  | '+' :: ds => (magnitude? ds).map Int.ofNat
  | '-' :: ds => (magnitude? ds).map (fun n => -Int.ofNat n)
  | ds => (magnitude? ds).map Int.ofNat

/-! ## Numbers with fraction or exponent -/

/-- The number of a text that is not an integer: a decimal numeral, an infinity or not-a-number. -/
def float? (cs : List Char) : Option Number :=
  let words (ws : List String) (cs : List Char) : Bool := ws.any (fun w => w.toList == cs)
  let infinity := [".inf", ".Inf", ".INF"]
  match cs with
  | '+' :: ds =>
    if words infinity ds then some (.infinite false)
    else (unsignedScientific? false ds).bind fun x => x.toBinary64?.map .double
  | '-' :: ds =>
    if words infinity ds then some (.infinite true)
    else (unsignedScientific? true ds).bind fun x => x.toBinary64?.map .double
  | ds =>
    if words infinity ds then some (.infinite false)
    else if words [".nan", ".NaN", ".NAN"] ds then some .nan
    else (unsignedScientific? false ds).bind fun x => x.toBinary64?.map .double

/-! ## Values -/

/-- How an integer is taken. -/
inductive IntegerSize where
  | held (i : Int) (fits : Json.Fits i)
  /-- It has more than 64 bits, at most 128. -/
  | tooLarge
  /-- It has more than 128 bits and counts as a double. -/
  | double

/-- How an integer is taken. -/
def integerSize (i : Int) : IntegerSize :=
  if h : Json.Fits i then .held i h
  else if -0x80000000000000000000000000000000 ≤ i ∧ i < 0x100000000000000000000000000000000 then .tooLarge
  else .double

/-- The value of a text that is neither null, truth value nor integer. -/
def floatOrText (cs : List Char) : Yaml :=
  if leadingZero cs then .string (String.ofList cs)
  else
    match float? cs with
    | some x => .number x
    | none => .string (String.ofList cs)

/-- The value of a plain scalar. -/
def ofPlain? (cs : List Char) : Option Yaml :=
  if cs.isEmpty || isNullWord cs then some .null
  else
    match boolWord? cs with
    | some b => some (.bool b)
    | none =>
      match (integer? cs).map integerSize with
      | some (.held i h) => some (.number (.integer i h))
      | some .tooLarge => none
      | _ => some (floatOrText cs)

end Covenant.Yaml
