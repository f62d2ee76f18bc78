import Covenant.Proofs.Conformance
import Covenant.Proofs.Rounding

/-!
# Equality of numbers

Integers are compared exactly, all else through the nearest doubles. An integer beyond `2 ^ 53` may lie
between two doubles, and is then accepted for the nearest one.

* `Json.Number.value`: the rational that a number denotes;
* `Json.Number.RoundsTo`: an integer that no double denotes, and the double nearest to it;
* `Json.Number.same_iff`: the numbers that are the same without denoting the same rational;
* `Json.Number.not_same_of_same_iff`: the integers that are the same as one double, but not as each other;
* `compare_numbers`: the comparison of two numbers;
* `compare_numbers_inGap`: a double that is accepted for the integer after it.
-/

namespace Covenant

namespace Json.Number

/-- The rational that a number denotes. -/
def value : Number → ℚ
  | .integer i _ => i
  | .double x => x.value

/-- An integer that no double denotes, and the double nearest to it. -/
def RoundsTo (m n : Number) : Prop :=
  ∃ i x, m.toInt? = some i ∧ n = .double x ∧ (∀ y : Binary64, y.value ≠ i) ∧ x.Nearest i

/-! ## Conversions to doubles -/

/-- An integer of 64 places is converted to the double nearest to it. -/
theorem value_ofInt_eq_iff {i : ℤ} (h : Fits i) {x : Binary64} :
    (Binary64.ofInt i).value = x.value ↔ x.Nearest i := by
  have hlog : i.natAbs.log2 < 1023 := by
    by_cases hzero : i.natAbs = 0
    · simp [hzero]
    · have hlt : i.natAbs.log2 < 65 := (Nat.log2_lt hzero).2 (by obtain ⟨hlow, hhigh⟩ := h; omega)
      omega
  have hnear := Binary64.nearest_ofInt hlog
  exact ⟨hnear.of_value_eq, hnear.value_unique⟩

/-- Only an integer beyond `2 ^ 53` is rounded. -/
theorem RoundsTo.lt_natAbs {m n : Number} (h : m.RoundsTo n) : ∃ i, m.toInt? = some i ∧ 2 ^ 53 < i.natAbs := by
  obtain ⟨i, x, hm, -, hnone, -⟩ := h
  refine ⟨i, hm, ?_⟩
  by_contra hle
  obtain ⟨y, hy⟩ := Binary64.exists_value_eq_int (not_lt.1 hle)
  exact hnone y hy

/-! ## Equality -/

theorem same_integer (i j : ℤ) (hi : Fits i) (hj : Fits j) :
    (integer i hi).same (.integer j hj) = (i == j) := rfl

theorem same_double (m : Number) (x : Binary64) : m.same (.double x) = m.toBinary64.sameValue x := by
  cases m <;> rfl

theorem double_same (x : Binary64) (n : Number) : (double x).same n = x.sameValue n.toBinary64 := rfl

theorem same_comm (m n : Number) : m.same n = n.same m := by
  cases m with
  | integer i hi =>
    cases n with
    | integer j hj => rw [same_integer, same_integer, Bool.beq_comm]
    | double y => rw [same_double, double_same, Binary64.sameValue_comm]
  | double x => rw [same_double, double_same, Binary64.sameValue_comm]

theorem same_integer_double_iff {i : ℤ} (h : Fits i) (x : Binary64) :
    (integer i h).same (.double x) = true ↔ x.Nearest i := by
  rw [same_double, Binary64.sameValue_iff]
  exact value_ofInt_eq_iff h

theorem roundsTo_integer_double_iff {i : ℤ} {h : Fits i} {x : Binary64} :
    (integer i h).RoundsTo (.double x) ↔ (∀ y : Binary64, y.value ≠ i) ∧ x.Nearest i := by
  simp [RoundsTo, toInt?]

@[simp] theorem not_double_roundsTo (x : Binary64) (n : Number) : ¬ (double x).RoundsTo n := by
  rintro ⟨i, y, h, -⟩
  cases h

@[simp] theorem not_roundsTo_integer (m : Number) {i : ℤ} (h : Fits i) : ¬ m.RoundsTo (.integer i h) := by
  rintro ⟨j, y, -, h, -⟩
  cases h

/-- Numbers are the same if they denote the same rational, or if one is rounded to the other. -/
theorem same_iff {m n : Number} : m.same n = true ↔ m.value = n.value ∨ m.RoundsTo n ∨ n.RoundsTo m := by
  cases m with
  | integer i hi =>
    cases n with
    | integer j hj => simp [same_integer, value]
    | double y =>
      rw [same_integer_double_iff, Binary64.nearest_iff, roundsTo_integer_double_iff, value, value,
        eq_comm (a := y.value)]
      simp
  | double x =>
    cases n with
    | integer j hj =>
      rw [same_comm, same_integer_double_iff, Binary64.nearest_iff, roundsTo_integer_double_iff, value, value]
      simp
    | double y =>
      rw [double_same, toBinary64, Binary64.sameValue_iff, value, value]
      simp

theorem value_toBinary64_of_same {m n : Number} (h : m.same n = true) :
    m.toBinary64.value = n.toBinary64.value := by
  cases n with
  | double x => rwa [same_double, Binary64.sameValue_iff] at h
  | integer j hj =>
    cases m with
    | double x => rwa [double_same, Binary64.sameValue_iff] at h
    | integer i hi =>
      obtain rfl : i = j := eq_of_beq h
      rfl

/-- Only two integers can be the same as a double without being the same as each other. -/
theorem not_same_of_same_iff {l m n : Number} :
    l.same m = true ∧ m.same n = true ∧ l.same n = false ↔
      ∃ i j hi hj x, i ≠ j ∧ l = .integer i hi ∧ m = .double x ∧ n = .integer j hj ∧ x.Nearest i ∧ x.Nearest j := by
  constructor
  · rintro ⟨hlm, hmn, hln⟩
    have hvalue := (value_toBinary64_of_same hlm).trans (value_toBinary64_of_same hmn)
    -- The conversions agree, so it is the exact comparison that tells the outer numbers apart.
    cases l with
    | double x =>
      have hsame : (double x).same n = true := Binary64.sameValue_iff.2 hvalue
      rw [hsame] at hln
      cases hln
    | integer i hi =>
      cases n with
      | double x =>
        have hsame : (integer i hi).same (.double x) = true := Binary64.sameValue_iff.2 hvalue
        rw [hsame] at hln
        cases hln
      | integer j hj =>
        cases m with
        | integer k hk =>
          obtain rfl : i = k := eq_of_beq hlm
          rw [hmn] at hln
          cases hln
        | double x =>
          rw [same_comm] at hmn
          exact ⟨i, j, hi, hj, x, beq_eq_false_iff_ne.1 hln, rfl, rfl, rfl, (same_integer_double_iff hi x).1 hlm,
            (same_integer_double_iff hj x).1 hmn⟩
  · rintro ⟨i, j, hi, hj, x, hne, rfl, rfl, rfl, hxi, hxj⟩
    refine ⟨(same_integer_double_iff hi x).2 hxi, ?_, ?_⟩
    · rw [same_comm]
      exact (same_integer_double_iff hj x).2 hxj
    · rw [same_integer]
      exact beq_eq_false_iff_ne.2 hne

end Json.Number

/-- A comparison of two numbers finds nothing exactly if they are the same. -/
theorem compare_number_eq_ok_nil_iff (d : Diff) {m n : Json.Number} :
    d.compare (.number m) (.number n) = .ok [] ↔ m.same n = true := by
  cases h : m.same n <;> simp [Diff.compare, Diff.compareAt, Wildcard.ofJson?, leafMatches, h]

/-- Two numbers are accepted for each other exactly if they denote the same rational, or if one is an integer
beyond `2 ^ 53` that no double denotes and the other one the double nearest to it. So a number accepts itself,
and acceptance goes both ways; but it does not go on from integer to double to integer, where a double is
nearest to two integers. -/
theorem compare_numbers (d : Diff) :
    (∀ m n, d.compare (.number m) (.number n) = .ok [] ↔ m.value = n.value ∨ m.RoundsTo n ∨ n.RoundsTo m) ∧
    (∀ m n : Json.Number, m.RoundsTo n → ∃ i, m.toInt? = some i ∧ 2 ^ 53 < i.natAbs) ∧
    (∀ m, d.compare (.number m) (.number m) = .ok []) ∧
    (∀ m n, d.compare (.number m) (.number n) = .ok [] ↔ d.compare (.number n) (.number m) = .ok []) ∧
    ∀ l m n, (d.compare (.number l) (.number m) = .ok [] ∧ d.compare (.number m) (.number n) = .ok [] ∧
        d.compare (.number l) (.number n) ≠ .ok []) ↔
      ∃ i j hi hj x, i ≠ j ∧ l = .integer i hi ∧ m = .double x ∧ n = .integer j hj ∧
        x.Nearest i ∧ x.Nearest j := by
  simp only [ne_eq, compare_number_eq_ok_nil_iff, Bool.not_eq_true]
  refine ⟨fun m n => Json.Number.same_iff, fun m n => Json.Number.RoundsTo.lt_natAbs, Json.Number.same_self, ?_, ?_⟩
  · intro m n
    rw [Json.Number.same_comm]
  · intro l m n
    exact Json.Number.not_same_of_same_iff

/-- The double `2 ^ 53`, the integer that it denotes and the one after it. -/
def firstGap : Json.Number :=
  .double ⟨false, 0x10000000000000, 1, by decide, by decide, by decide, by decide⟩

def beforeGap : Json.Number := .integer 0x20000000000000 (by decide)

def inGap : Json.Number := .integer 0x20000000000001 (by decide)

/-- The double is accepted for an integer that it does not denote, and for another one, which is not accepted for
the first. -/
theorem compare_numbers_inGap :
    Diff.standard.compare (.number inGap) (.number firstGap) = .ok [] ∧ inGap.value ≠ firstGap.value ∧
    Diff.standard.compare (.number firstGap) (.number beforeGap) = .ok [] ∧
    Diff.standard.compare (.number inGap) (.number beforeGap) ≠ .ok [] := by
  have hgap : firstGap.value = 2 ^ 53 := by
    simp only [firstGap, Json.Number.value, Binary64.value, Binary64.magnitude, Binary64.signed_false]
    norm_num
  refine ⟨rfl, ?_, rfl, ?_⟩
  · rw [hgap, inGap, Json.Number.value]
    norm_num
  · intro h
    cases h

end Covenant
