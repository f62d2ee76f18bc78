/-!
# Punycode

Texts beyond ASCII as ASCII text: the ASCII characters first, then for each other character, from the least
code point up, how far it lies from the one before, as a number of variable length.

* `Punycode.encode`: the text without a label's mark;
* `Punycode.decode?`: the text that was encoded.
-/

namespace Covenant.Punycode

/-- The character of a digit: letters, then decimal digits. -/
def digitChar (d : Nat) : Char := Char.ofNat (if d < 26 then 97 + d else 22 + d)

/-- The digit of a character. -/
def digitValue? (c : Char) : Option Nat :=
  let n := c.toNat
  if 97 ≤ n ∧ n ≤ 122 then some (n - 97)
  else if 65 ≤ n ∧ n ≤ 90 then some (n - 65)
  else if 48 ≤ n ∧ n ≤ 57 then some (n - 22)
  else none

/-- The least digit that does not end a number, at a place. -/
def threshold (bias place : Nat) : Nat :=
  if place ≤ bias then 1 else min 26 (place - bias)

theorem threshold_pos (bias place : Nat) : 1 ≤ threshold bias place := by
  unfold threshold
  split <;> omega

/-- How often a distance is divided by 35, and what is left of it. -/
def shrink (delta : Nat) : Nat × Nat :=
  if 455 < delta then
    let (times, rest) := shrink (delta / 35)
    (times + 1, rest)
  else (0, delta)
termination_by delta
decreasing_by exact Nat.div_lt_self (by omega) (by omega)

/-- The bias after a distance, with the number of characters then placed. -/
def adapt (delta placed : Nat) (first : Bool) : Nat :=
  let delta := if first then delta / 700 else delta / 2
  let (times, rest) := shrink (delta + delta / placed)
  36 * times + 36 * rest / (rest + 38)

/-! ## Encoding -/

/-- A distance as a number of variable length. -/
def distance (bias place n : Nat) : List Char :=
  let t := threshold bias place
  if n < t then [digitChar n]
  else digitChar (t + (n - t) % (36 - t)) :: distance bias (place + 36) ((n - t) / (36 - t))
termination_by n
decreasing_by
  have h := threshold_pos bias place
  exact Nat.lt_of_le_of_lt (Nat.div_le_self _ _) (by omega)

/-- What is written so far, and where the next distance starts. -/
structure Progress where
  written : List Char
  delta : Nat
  bias : Nat
  placed : Nat

/-- Passes a character while those of a code point are placed. -/
def pass (basic code : Nat) (p : Progress) (c : Char) : Progress :=
  if c.toNat < code then { p with delta := p.delta + 1 }
  else if c.toNat = code then
    { written := p.written ++ distance p.bias 36 p.delta
      delta := 0
      bias := adapt p.delta (p.placed + 1) (p.placed == basic)
      placed := p.placed + 1 }
  else p

/-- Places the characters of several code points, which come in rising order from `start` on. -/
def placeAll (cs : List Char) (basic start : Nat) (p : Progress) : List Nat → Progress
  | [] => p
  | code :: codes =>
    let p := { p with delta := p.delta + (code - start) * (p.placed + 1) }
    let p := cs.foldl (pass basic code) p
    placeAll cs basic (code + 1) { p with delta := p.delta + 1 } codes

/-- A text as ASCII text. -/
def encode (cs : List Char) : List Char :=
  let basic := cs.filter (·.toNat < 0x80)
  let codes := ((cs.filter (0x80 ≤ ·.toNat)).map Char.toNat).eraseDups.mergeSort
  let head := if basic.isEmpty then [] else basic ++ ['-']
  head ++ (placeAll cs basic.length 0x80 ⟨[], 0, 72, basic.length⟩ codes).written

/-! ## Decoding -/

/-- The distance at the start of a text, added to a position, and the text behind it. -/
def readDistance? (bias place weight position : Nat) : List Char → Option (Nat × List Char)
  | [] => none
  | c :: cs => (digitValue? c).bind fun d =>
    let t := threshold bias place
    if d < t then some (position + d * weight, cs)
    else readDistance? bias (place + 36) (weight * (36 - t)) (position + d * weight) cs

/-- Places the characters that a text of distances describes; at most one for each of its characters. -/
def placeDistances? (fuel bias code position : Nat) (placed cs : List Char) : Option (List Char) :=
  match fuel, cs with
  | _, [] => some placed
  | 0, _ => none
  | fuel + 1, cs => (readDistance? bias 36 1 position cs).bind fun (next, rest) =>
    let count := placed.length + 1
    let code := code + next / count
    if code.isValidChar then
      let at' := next % count
      placeDistances? fuel (adapt (next - position) count (position == 0)) code (at' + 1)
        (placed.insertIdx at' (Char.ofNat code)) rest
    else none

/-- The text that was encoded. The ASCII characters stand before the last hyphen. -/
def decode? (cs : List Char) : Option (List Char) :=
  let tail := (cs.reverse.takeWhile (· ≠ '-')).reverse
  let basic := cs.take (cs.length - tail.length - 1)
  placeDistances? cs.length 72 0x80 0 basic tail

example : encode "bücher".toList = "bcher-kva".toList := by decide +kernel
example : decode? "bcher-kva".toList = some "bücher".toList := by decide +kernel

end Covenant.Punycode
