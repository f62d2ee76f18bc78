/-!
# Random choices

Randomness is a sequence of integers. A choice among `n` possibilities takes the next integer modulo `n`,
so that each choice can have each outcome.

* `Source`: the sequence and how much of it is used, constant or from a seed;
* `Rand`: a computation that makes choices;
* `Rand.below`: a choice among `n` possibilities.
-/

namespace Covenant

/-- A sequence of integers with the number of those already used. -/
structure Source where
  draws : Nat → Int
  used : Nat

namespace Source

/-- The source whose every choice is the first possibility. -/
def least : Source := ⟨fun _ => 0, 0⟩

/-- The source whose every choice is the last possibility. -/
def greatest : Source := ⟨fun _ => -1, 0⟩

/-- A word in which each bit depends on all bits of another. -/
def mix (z : UInt64) : UInt64 :=
  let z := (z ^^^ (z >>> 30)) * 0xBF58476D1CE4E5B9
  let z := (z ^^^ (z >>> 27)) * 0x94D049BB133111EB
  z ^^^ (z >>> 31)

/-- A source whose choices look irregular. -/
def ofSeed (seed : UInt64) : Source :=
  ⟨fun n => Int.ofNat (mix (seed + (UInt64.ofNat n + 1) * 0x9E3779B97F4A7C15)).toNat, 0⟩

/-- The source after one use. -/
def advance (s : Source) : Source := { s with used := s.used + 1 }

end Source

/-- A computation that makes random choices. -/
abbrev Rand (α : Type) : Type := StateM Source α

namespace Rand

/-- A choice among `n + 1` possibilities. -/
def below (n : Nat) : Rand (Fin (n + 1)) := fun s =>
  (Fin.ofNat (n + 1) (s.draws s.used % (n + 1 : Int)).toNat, s.advance)

/-- Several choices, one after the other. -/
def times (n : Nat) (choice : Rand α) : Rand (List α) := fun s =>
  match n with
  | 0 => ([], s)
  | n + 1 =>
    let first := choice s
    let rest := times n choice first.2
    (first.1 :: rest.1, rest.2)

theorem length_times (n : Nat) (choice : Rand α) (s : Source) : (times n choice s).1.length = n := by
  induction n generalizing s with
  | zero => rfl
  | succ n ih => simp [times, ih]

/-- The integer of the range between the bounds that a choice selects. -/
def between (low high : Int) : Rand Int := fun s =>
  let k := below (high - low).toNat s
  (low + k.1.val, k.2)

theorem between_mem {low high : Int} (h : low ≤ high) (s : Source) :
    low ≤ (between low high s).1 ∧ (between low high s).1 ≤ high := by
  have hk := (below (high - low).toNat s).1.isLt
  simp only [between]
  omega

end Rand

end Covenant
