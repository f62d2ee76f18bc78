import Covenant.Decimal

/-!
# Points in time

* `Date`: a day of the Gregorian calendar, extended to all years, and its number counted from 1970-01-01;
* `Timestamp`: seconds since the start of 1970 in universal time, with a fraction;
* `Timestamp.read?`: a point in time in the notation of RFC 3339, with any offset;
* `Timestamp.text`, `Timestamp.secondsText`: the notation in universal time;
* `Timestamp.millisecondsSince`: the time that has passed.
-/

namespace Covenant

open Covenant.Text

/-! ## The calendar -/

/-- A day of the Gregorian calendar. -/
structure Date where
  year : Int
  month : Nat
  day : Nat
deriving DecidableEq

namespace Date

/-- Days from the first of March to the first day of a month, the year starting with March. -/
def daysBefore (month : Nat) : Nat := (153 * ((month + 9) % 12) + 2) / 5

/-- The number of a day, that of 1970-01-01 being zero. The calendar repeats after 400 years. -/
def toDays (d : Date) : Int :=
  let year := if d.month ≤ 2 then d.year - 1 else d.year
  let y := year % 400
  year / 400 * 146097 + (365 * y + y / 4 - y / 100) + (daysBefore d.month + d.day - 1 : Nat) - 719468

/-- The day of a number. -/
def ofDays (n : Int) : Date :=
  let n := n + 719468
  let inEra := (n % 146097).toNat
  let y := (inEra - inEra / 1460 + inEra / 36524 - inEra / 146096) / 365
  let inYear := inEra - (365 * y + y / 4 - y / 100)
  let fromMarch := (5 * inYear + 2) / 153
  let month := if fromMarch < 10 then fromMarch + 3 else fromMarch - 9
  let year := n / 146097 * 400 + y
  ⟨if month ≤ 2 then year + 1 else year, month, inYear - daysBefore month + 1⟩

/-- Whether the month has the day. -/
def isValid (d : Date) : Bool := 1 ≤ d.month && d.month ≤ 12 && 1 ≤ d.day && ofDays d.toDays == d

example : (⟨2000, 2, 29⟩ : Date).toDays = 11016 := by decide
example : ofDays 11016 = ⟨2000, 2, 29⟩ := by decide
example : (⟨1900, 2, 29⟩ : Date).isValid = false := by decide

end Date

/-! ## Points in time -/

/-- Seconds since the start of 1970 in universal time. In a leap second the fraction exceeds one second. -/
structure Timestamp where
  seconds : Int
  nanoseconds : Nat
deriving DecidableEq

namespace Timestamp

/-! ### Reading -/

/-- A number of exactly so many digits, and the rest of the text. -/
def number? (width : Nat) (cs : List Char) : Option (Nat × List Char) :=
  let ds := cs.take width
  if ds.length = width then (Decimal.naturalOf? ds).map (·, cs.drop width) else none

/-- The text behind one of some characters. -/
def skip? (allowed : List Char) : List Char → Option (List Char)
  | c :: cs => if allowed.contains c then some cs else none
  | [] => none

/-- Nanoseconds behind a point; digits from the tenth on are dropped. -/
def fraction? : List Char → Option (Nat × List Char)
  | '.' :: cs =>
    let ds := cs.takeWhile isDigit
    let kept := ds.take 9
    (Decimal.naturalOf? kept).map fun n => (n * Nat.pow 10 (9 - kept.length), cs.dropWhile isDigit)
  | cs => some (0, cs)

/-- The offset from universal time, in seconds, at the end of the text. -/
def offset? : List Char → Option Int
  | ['Z'] => some 0
  | ['z'] => some 0
  | sign :: cs => do
    let (hours, cs) ← number? 2 cs
    let cs ← skip? [':'] cs
    let (minutes, cs) ← number? 2 cs
    if hours < 24 ∧ minutes < 60 ∧ cs = [] then
      let seconds : Int := 3600 * hours + 60 * minutes
      match sign with
      | '+' => some seconds
      | '-' => some (-seconds)
      | _ => none
    else none
  | [] => none

/-- The point in time that a text denotes. -/
def read? (s : String) : Option Timestamp := do
  let (year, cs) ← number? 4 s.toList
  let cs ← skip? ['-'] cs
  let (month, cs) ← number? 2 cs
  let cs ← skip? ['-'] cs
  let (day, cs) ← number? 2 cs
  let cs ← skip? ['T', 't', ' '] cs
  let (hour, cs) ← number? 2 cs
  let cs ← skip? [':'] cs
  let (minute, cs) ← number? 2 cs
  let cs ← skip? [':'] cs
  let (second, cs) ← number? 2 cs
  let (nanoseconds, cs) ← fraction? cs
  let offset ← offset? cs
  let date : Date := ⟨year, month, day⟩
  if date.isValid && hour < 24 && minute < 60 && second ≤ 60 then
    let leap := if second = 60 then 1 else 0
    let ofDay : Nat := 3600 * hour + 60 * minute + (second - leap)
    some ⟨86400 * date.toDays + ofDay - offset, nanoseconds + leap * 1000000000⟩
  else none

/-! ### Writing -/

/-- A number with zeros in front up to a width. -/
def padded (width n : Nat) : List Char :=
  let ds := Decimal.digits n
  List.replicate (width - ds.length) '0' ++ ds

/-- A year; one of more than four digits or before year zero has a sign. -/
def yearText (year : Int) : List Char :=
  if 0 ≤ year ∧ year < 10000 then padded 4 year.toNat
  else (if year < 0 then '-' else '+') :: padded 4 year.natAbs

/-- Date and time of day up to the second. -/
def secondsChars (t : Timestamp) : List Char :=
  let date := Date.ofDays (t.seconds / 86400)
  let ofDay := (t.seconds % 86400).toNat
  let second := ofDay % 60 + t.nanoseconds / 1000000000
  yearText date.year ++ '-' :: padded 2 date.month ++ '-' :: padded 2 date.day ++
    'T' :: padded 2 (ofDay / 3600) ++ ':' :: padded 2 (ofDay / 60 % 60) ++ ':' :: padded 2 second

/-- The fraction of a second, in thousands as far as it needs them. -/
def fractionChars (t : Timestamp) : List Char :=
  let n := t.nanoseconds % 1000000000
  if n = 0 then []
  else if n % 1000000 = 0 then '.' :: padded 3 (n / 1000000)
  else if n % 1000 = 0 then '.' :: padded 6 (n / 1000)
  else '.' :: padded 9 n

/-- Date and time of day in universal time, up to the second. -/
def secondsText (t : Timestamp) : String := String.ofList t.secondsChars

/-- The point in time with its fraction, in universal time. -/
def text (t : Timestamp) : String := String.ofList (t.secondsChars ++ t.fractionChars ++ ['Z'])

/-! ### Differences -/

/-- Whole milliseconds from an earlier point in time, and none from a later one. -/
def millisecondsSince (earlier later : Timestamp) : UInt64 :=
  let nanoseconds (t : Timestamp) : Int := 1000000000 * t.seconds + t.nanoseconds
  .ofNat ((nanoseconds later - nanoseconds earlier).toNat / 1000000)

end Timestamp

end Covenant
