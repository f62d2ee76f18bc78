import Covenant.Decimal
import Mathlib.Data.Option.Basic

/-!
# Numerals

The texts that are read as numbers.

* `Digits`: decimal digits, at least one, with their value;
* `UnsignedNumeral`, `SignedNumeral`: digits with an optional plus sign, and with an optional sign;
* `unsigned?_eq_some_iff`, `int64?_eq_some_iff`: the readers accept these, up to their bounds, and nothing else;
* `digits_injective`, `digits_digits`: different numbers are written differently, each by digits of its value.
-/

namespace Covenant.Decimal

open Covenant.Text

/-- Decimal digits, at least one, with their value. -/
structure Digits (cs : List Char) (n : Nat) : Prop where
  ne_nil : cs ≠ []
  digit : ∀ c ∈ cs, isDigit c = true
  value : accumulate 0 cs = n

theorem naturalOf?_eq_some_iff {cs : List Char} {n : Nat} : naturalOf? cs = some n ↔ Digits cs n := by
  rw [naturalOf?]
  constructor
  · intro h
    split at h
    · cases h
    · rename_i hno
      have hsplit : cs ≠ [] ∧ ∀ c ∈ cs, isDigit c = true := by simpa using hno
      exact ⟨hsplit.1, hsplit.2, Option.some.inj h⟩
  · intro h
    have hall : cs.all isDigit = true := List.all_eq_true.2 h.digit
    rw [hall, List.isEmpty_eq_false_iff.2 h.ne_nil, h.value]
    rfl

/-- A numeral without a sign, or with a plus sign. -/
inductive UnsignedNumeral : String → Nat → Prop
  | bare {cs : List Char} {n : Nat} : Digits cs n → UnsignedNumeral (String.ofList cs) n
  | plus {cs : List Char} {n : Nat} : Digits cs n → UnsignedNumeral (String.ofList ('+' :: cs)) n

/-- A numeral with an optional sign. -/
inductive SignedNumeral : String → Int → Prop
  | bare {cs : List Char} {n : Nat} : Digits cs n → SignedNumeral (String.ofList cs) n
  | plus {cs : List Char} {n : Nat} : Digits cs n → SignedNumeral (String.ofList ('+' :: cs)) n
  | minus {cs : List Char} {n : Nat} : Digits cs n → SignedNumeral (String.ofList ('-' :: cs)) (-n)

/-- Digits start with no sign. -/
theorem Digits.ne_sign {cs : List Char} {n : Nat} (h : Digits cs n) (c : Char) (hc : isDigit c = false)
    (rest : List Char) : cs ≠ c :: rest := by
  intro hcs
  have hdigit := h.digit c (by simp [hcs])
  rw [hc] at hdigit
  cases hdigit

theorem unsigned?_eq_some_iff {bound n : Nat} {s : String} :
    unsigned? bound s = some n ↔ UnsignedNumeral s n ∧ n ≤ bound := by
  rw [unsigned?, Option.filter_eq_some_iff, naturalOf?_eq_some_iff, decide_eq_true_eq]
  refine and_congr_left fun _ => ?_
  constructor
  · intro h
    split at h
    · rename_i cs hs
      rw [← String.ofList_toList (s := s), hs]
      exact .plus h
    · rw [← String.ofList_toList (s := s)]
      exact .bare h
  · intro h
    cases h with
    | bare h =>
      rw [String.toList_ofList]
      split
      · exact absurd rfl (h.ne_sign '+' (by decide) _)
      · exact h
    | plus h =>
      rw [String.toList_ofList]
      exact h

theorem signed?_eq_some_iff {low high i : Int} {s : String} :
    signed? low high s = some i ↔ SignedNumeral s i ∧ low ≤ i ∧ i ≤ high := by
  rw [signed?, Option.filter_eq_some_iff, decide_eq_true_eq]
  refine and_congr_left fun _ => ?_
  constructor
  · intro h
    split at h
    · rename_i cs hs
      obtain ⟨n, hn, rfl⟩ := Option.map_eq_some_iff.1 h
      rw [← String.ofList_toList (s := s), hs]
      exact .plus (naturalOf?_eq_some_iff.1 hn)
    · rename_i cs hs
      obtain ⟨n, hn, rfl⟩ := Option.map_eq_some_iff.1 h
      rw [← String.ofList_toList (s := s), hs]
      exact .minus (naturalOf?_eq_some_iff.1 hn)
    · obtain ⟨n, hn, rfl⟩ := Option.map_eq_some_iff.1 h
      rw [← String.ofList_toList (s := s)]
      exact .bare (naturalOf?_eq_some_iff.1 hn)
  · intro h
    cases h with
    | bare h =>
      rw [String.toList_ofList]
      split
      · exact absurd rfl (h.ne_sign '+' (by decide) _)
      · exact absurd rfl (h.ne_sign '-' (by decide) _)
      · rw [naturalOf?_eq_some_iff.2 h]
        rfl
    | plus h =>
      rw [String.toList_ofList]
      exact Option.map_eq_some_iff.2 ⟨_, naturalOf?_eq_some_iff.2 h, rfl⟩
    | minus h =>
      rw [String.toList_ofList]
      exact Option.map_eq_some_iff.2 ⟨_, naturalOf?_eq_some_iff.2 h, rfl⟩

theorem int64?_eq_some_iff {s : String} {i : Int64Value} : int64? s = some i ↔ SignedNumeral s i.val := by
  have hrange := i.property
  rw [int64?, Option.bind_eq_some_iff]
  constructor
  · intro h
    obtain ⟨j, hj, h⟩ := h
    split at h
    · cases h
      exact (signed?_eq_some_iff.1 hj).1
    · cases h
  · intro h
    refine ⟨i.val, signed?_eq_some_iff.2 ⟨h, by omega, by omega⟩, ?_⟩
    rw [dif_pos hrange]

/-! ## Written numbers -/

theorem isDigit_of_mem_digits {c : Char} {n : Nat} (h : c ∈ digits n) : c.isDigit = true :=
  Nat.isDigit_of_mem_toDigits (by decide) (by decide) h

theorem digits_injective {m n : Nat} (h : digits m = digits n) : m = n := by
  have hvalue := congrArg (fun cs => Nat.ofDigitChars 10 cs 0) h
  simpa only [digits, Nat.ofDigitChars_toDigits (by decide : 1 < 10) (Nat.le_refl 10)] using hvalue

/-- Digits have the value that they are written for. -/
theorem digits_digits (n : Nat) : Digits (digits n) n where
  ne_nil := Nat.toDigits_ne_nil
  digit c hc := by
    have hdigit := isDigit_of_mem_digits hc
    simp only [Char.isDigit, Bool.and_eq_true, decide_eq_true_eq] at hdigit
    simp only [isDigit, Bool.and_eq_true, decide_eq_true_eq]
    exact hdigit
  value := by
    show Nat.ofDigitChars 10 (Nat.toDigits 10 n) 0 = n
    exact Nat.ofDigitChars_toDigits (by decide : 1 < 10) (Nat.le_refl 10)

end Covenant.Decimal
