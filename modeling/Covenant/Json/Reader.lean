import Covenant.Json

/-!
# Reading JSON text

The reader accepts one value with blanks around it. Objects keep the order of their fields, a repeated
name its last value at its first place. Values nested deeper than a given limit are refused.

* `Json.Numeral.toNumber?`: an integer literal of at most 64 bits stays an integer; any other literal,
  `-0` among them, is a double, made from the leading digits that fit in 64 bits and a power of ten, each
  rounded before they are multiplied or divided;
* `Json.read?`: the value of a text, up to a nesting limit.
-/

namespace Covenant.Json

open Covenant.Text Covenant.Decimal

/-- The blanks between tokens. -/
def skipBlanks (cs : List Char) : List Char :=
  cs.dropWhile (fun c => c = ' ' || c = '\n' || c = '\t' || c = '\r')

/-! ## Numbers -/

/-- A number literal, split into its parts. -/
structure Numeral where
  negative : Bool
  whole : List Char
  /-- Digits after the point, if there is one. -/
  fraction : Option (List Char)
  /-- Sign and digits after the exponent mark, if there is one. -/
  exponent : Option (Bool × List Char)

/-- Appends digits to a number as long as it stays below `2 ^ 64`; the first digit that does not fit and
all after it are returned. -/
def extend (n : Nat) : List Char → Nat × List Char
  | [] => (n, [])
  | c :: cs =>
    let n' := 10 * n + digitValue c
    if n' < 0x10000000000000000 then extend n' cs else (n, c :: cs)

/-- A double times a power of ten. An exponent beyond 308 overflows, one below -308 is taken in steps. -/
def timesPowerOfTen? : Nat → Binary64 → Int → Option Binary64
  | 0, _, _ => none
  | steps + 1, x, k =>
    if k.natAbs ≤ 308 then
      let p := (nearest? false 1 k.natAbs).getD (.zero false)
      if 0 ≤ k then x.scaleBy? p.ratio.1 p.ratio.2 else x.scaleBy? p.ratio.2 p.ratio.1
    else if x.isZero then some x
    else if 0 < k then none
    else
      let p := (nearest? false 1 308).getD (.zero false)
      (x.scaleBy? p.ratio.2 p.ratio.1).bind (timesPowerOfTen? steps · (k + 308))

/-- The double of a literal. Three steps by `10 ^ 308` take any coefficient to zero. An exponent
of more than 31 bits is out of range unless the coefficient is zero or the exponent negative. -/
def Numeral.toDouble? (l : Numeral) : Option Binary64 :=
  let (n, extra) := extend 0 l.whole
  let digits := l.fraction.getD []
  let (n, extra') := extend n digits
  let k : Int := (extra.length : Int) - (digits.length - extra'.length : Nat)
  let sign (x : Binary64) : Binary64 := x.withSign l.negative
  match l.exponent with
  | none => (timesPowerOfTen? 4 (.ofInt n) k).map sign
  | some (negative, es) =>
    let e := accumulate 0 es
    if 0x80000000 ≤ e then
      if n ≠ 0 ∧ !negative then none else some (sign (.zero false))
    else (timesPowerOfTen? 4 (.ofInt n) (if negative then k - e else k + e)).map sign

/-- The number of a literal: an integer where it is one of at most 64 bits and not `-0`. -/
def Numeral.toNumber? (l : Numeral) : Option Number :=
  let integer? : Option Number :=
    if l.fraction.isSome || l.exponent.isSome then none
    else
      let n := accumulate 0 l.whole
      if l.negative then
        if n = 0 then none else Number.ofInt? (-n)
      else Number.ofInt? n
  match integer? with
  | some n => some n
  | none => l.toDouble?.map .double

/-- The whole part of a literal: a zero, or digits that do not start with one. -/
def readWhole? (cs : List Char) : Option (List Char × List Char) :=
  let ds := cs.takeWhile isDigit
  match ds with
  | [] => none
  | '0' :: _ :: _ => none
  | _ => some (ds, cs.dropWhile isDigit)

/-- The digits after a point, at least one. -/
def readFraction? (cs : List Char) : Option (Option (List Char) × List Char) :=
  match cs with
  | '.' :: r =>
    let ds := r.takeWhile isDigit
    if ds.isEmpty then none else some (some ds, r.dropWhile isDigit)
  | r => some (none, r)

/-- The exponent of a literal, with at least one digit. -/
def readExponent? (cs : List Char) : Option (Option (Bool × List Char) × List Char) :=
  match cs with
  | [] => some (none, [])
  | c :: r =>
    if c = 'e' ∨ c = 'E' then
      let (negative, r) := match r with
        | '+' :: r => (false, r)
        | '-' :: r => (true, r)
        | r => (false, r)
      let ds := r.takeWhile isDigit
      if ds.isEmpty then none else some (some (negative, ds), r.dropWhile isDigit)
    else some (none, c :: r)

/-- A number literal at the front of a text. -/
def readNumber? (cs : List Char) : Option (Number × List Char) := do
  let (negative, r) := match cs with
    | '-' :: r => (true, r)
    | r => (false, r)
  let (whole, r) ← readWhole? r
  let (fraction, r) ← readFraction? r
  let (exponent, r) ← readExponent? r
  let n ← Numeral.toNumber? ⟨negative, whole, fraction, exponent⟩
  return (n, r)

/-! ## Strings -/

/-- The value of a hexadecimal digit. -/
def hexValue? (c : Char) : Option Nat :=
  if '0' ≤ c ∧ c ≤ '9' then some (c.toNat - 48)
  else if 'a' ≤ c ∧ c ≤ 'f' then some (c.toNat - 87)
  else if 'A' ≤ c ∧ c ≤ 'F' then some (c.toNat - 55)
  else none

/-- Four hexadecimal digits. -/
def hexQuad? (a b c d : Char) : Option Nat := do
  return (← hexValue? a) * 4096 + (← hexValue? b) * 256 + (← hexValue? c) * 16 + (← hexValue? d)

/-- The character of a one-letter escape. -/
def simpleEscape? (c : Char) : Option Char :=
  match c with
  | '\x22' => some '\x22'
  | '\\' => some '\\'
  | '/' => some '/'
  | 'b' => some '\x08'
  | 'f' => some '\x0c'
  | 'n' => some '\n'
  | 'r' => some '\r'
  | 't' => some '\t'
  | _ => none

/-- The rest of a string after its opening quote. Characters above U+FFFF may be escaped as a pair of
surrogates; a surrogate without its partner is refused, as are control characters. -/
def readString? : List Char → Option (List Char × List Char)
  | [] => none
  | '\x22' :: r => some ([], r)
  | '\\' :: 'u' :: a :: b :: c :: d :: r =>
    match hexQuad? a b c d with
    | none => none
    | some n =>
      if 0xD800 ≤ n ∧ n < 0xDC00 then
        match r with
        | '\\' :: 'u' :: a :: b :: c :: d :: r =>
          match hexQuad? a b c d with
          | none => none
          | some m =>
            if 0xDC00 ≤ m ∧ m < 0xE000 then
              (readString? r).map fun (s, rest) =>
                (Char.ofNat (0x10000 + (n - 0xD800) * 0x400 + (m - 0xDC00)) :: s, rest)
            else none
        | _ => none
      else if 0xDC00 ≤ n ∧ n < 0xE000 then none
      else (readString? r).map fun (s, rest) => (Char.ofNat n :: s, rest)
  | '\\' :: e :: r =>
    match simpleEscape? e with
    | none => none
    | some c => (readString? r).map fun (s, rest) => (c :: s, rest)
  | c :: r =>
    if c.toNat < 0x20 || c = '\\' then none
    else (readString? r).map fun (s, rest) => (c :: s, rest)

/-! ## Values -/

/-- The rest of a text after a word. -/
def afterWord? (word : List Char) (cs : List Char) : Option (List Char) :=
  if word.isPrefixOf cs then some (cs.drop word.length) else none

mutual
/-- A value at the front of a text, with at most `depth` arrays and objects inside each other. Every
call spends one unit of fuel and at least one character. -/
def readValue? (fuel depth : Nat) (cs : List Char) : Option (Json × List Char) :=
  match fuel with
  | 0 => none
  | fuel + 1 =>
    match skipBlanks cs with
    | [] => none
    | 'n' :: r => (afterWord? ['u', 'l', 'l'] r).map ((Json.null, ·))
    | 't' :: r => (afterWord? ['r', 'u', 'e'] r).map ((Json.bool true, ·))
    | 'f' :: r => (afterWord? ['a', 'l', 's', 'e'] r).map ((Json.bool false, ·))
    | '\x22' :: r => (readString? r).map fun (s, rest) => (Json.string (String.ofList s), rest)
    | '[' :: r =>
      match depth with
      | 0 => none
      | depth + 1 =>
        match skipBlanks r with
        | ']' :: rest => some (.array [], rest)
        | r => (readItems? fuel depth r).map fun (items, rest) => (Json.array items, rest)
    | '\x7b' :: r =>
      match depth with
      | 0 => none
      | depth + 1 =>
        match skipBlanks r with
        | '\x7d' :: rest => some (.object [], rest)
        | r => (readFields? fuel depth [] r).map fun (fields, rest) => (Json.object fields, rest)
    | c :: r => (readNumber? (c :: r)).map fun (n, rest) => (Json.number n, rest)
/-- The items of an array up to its closing bracket. -/
def readItems? (fuel depth : Nat) (cs : List Char) : Option (List Json × List Char) :=
  match fuel with
  | 0 => none
  | fuel + 1 =>
    match readValue? fuel depth cs with
    | none => none
    | some (v, r) =>
      match skipBlanks r with
      | ']' :: rest => some ([v], rest)
      | ',' :: rest => (readItems? fuel depth rest).map fun (vs, rest) => (v :: vs, rest)
      | _ => none
/-- The fields of an object up to its closing brace, set one after the other. -/
def readFields? (fuel depth : Nat) (fields : List (String × Json)) (cs : List Char) :
    Option (List (String × Json) × List Char) :=
  match fuel with
  | 0 => none
  | fuel + 1 =>
    match skipBlanks cs with
    | '\x22' :: r =>
      match readString? r with
      | none => none
      | some (k, r) =>
        match skipBlanks r with
        | ':' :: r =>
          match readValue? fuel depth r with
          | none => none
          | some (v, r) =>
            let fields := insert fields (String.ofList k) v
            match skipBlanks r with
            | '\x7d' :: rest => some (fields, rest)
            | ',' :: rest => readFields? fuel depth fields rest
            | _ => none
        | _ => none
    | _ => none
end

/-- The value of a text with at most `limit` arrays and objects inside each other. -/
def read? (limit : Nat) (text : String) : Option Json :=
  let cs := text.toList
  match readValue? (cs.length + 1) limit cs with
  | some (v, rest) => if (skipBlanks rest).isEmpty then some v else none
  | none => none

/-- The nesting that documents and response bodies may have. -/
def standardLimit : Nat := 127

end Covenant.Json
