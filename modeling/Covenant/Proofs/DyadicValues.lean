import Covenant.Binary64
import Mathlib.Algebra.Order.Field.Power
import Mathlib.Algebra.Order.Ring.Abs
import Mathlib.Data.Rat.Lemmas
import Mathlib.Tactic.Linarith
import Mathlib.Tactic.NormNum
import Mathlib.Tactic.Positivity
import Mathlib.Tactic.Ring

/-!
# The rationals that doubles denote

* `Binary64.magnitude`, `Binary64.value`: what a double denotes;
* `Binary64.magnitude_injective`: the canonical form is determined by the magnitude;
* `Binary64.sameValue_iff`: doubles are the same exactly if they denote the same rational;
* `Binary64.exists_value_eq_int`: the integers up to `2 ^ 53` are denoted by doubles.
-/

namespace Covenant.Binary64

/-! ## Values -/

/-- The magnitude of a double. -/
def magnitude (x : Binary64) : ℚ := x.mantissa * 2 ^ x.exponent

/-- A magnitude with a sign. -/
def signed (negative : Bool) (r : ℚ) : ℚ := if negative then -r else r

/-- The rational that a double denotes. -/
def value (x : Binary64) : ℚ := signed x.negative x.magnitude

@[simp] theorem signed_false (r : ℚ) : signed false r = r := rfl

@[simp] theorem signed_true (r : ℚ) : signed true r = -r := rfl

theorem signed_injective (negative : Bool) {q r : ℚ} (h : signed negative q = signed negative r) : q = r := by
  cases negative with
  | false => exact h
  | true => exact neg_injective h

theorem abs_signed (negative : Bool) {r : ℚ} (h : 0 ≤ r) : |signed negative r| = r := by
  cases negative with
  | false => exact abs_of_nonneg h
  | true => rw [signed_true, abs_neg, abs_of_nonneg h]

theorem abs_signed_sub (negative : Bool) (r t : ℚ) : |signed negative r - signed negative t| = |r - t| := by
  cases negative with
  | false => rfl
  | true => rw [signed_true, signed_true, neg_sub_neg, abs_sub_comm]

theorem abs_signed_not_sub (negative : Bool) {r t : ℚ} (hr : 0 ≤ r) (ht : 0 ≤ t) :
    |signed (!negative) r - signed negative t| = r + t := by
  cases negative with
  | false =>
    show |-r - t| = r + t
    rw [abs_of_nonpos (by linarith)]
    ring
  | true =>
    show |r - -t| = r + t
    rw [sub_neg_eq_add, abs_of_nonneg (by linarith)]

theorem two_zpow_pos (e : ℤ) : (0 : ℚ) < 2 ^ e := zpow_pos (by norm_num) e

theorem magnitude_nonneg (x : Binary64) : 0 ≤ x.magnitude :=
  mul_nonneg (Nat.cast_nonneg _) (two_zpow_pos _).le

@[simp] theorem abs_value (x : Binary64) : |x.value| = x.magnitude :=
  abs_signed _ x.magnitude_nonneg

@[simp] theorem value_withSign (x : Binary64) (negative : Bool) :
    (x.withSign negative).value = signed negative x.magnitude := rfl

/-- A magnitude does not reach the leading place of a greater exponent. -/
theorem magnitude_lt_lead (x : Binary64) {e : ℤ} (h : x.exponent < e) : x.magnitude < 2 ^ 52 * 2 ^ e := by
  have hmantissa : (x.mantissa : ℚ) < 2 ^ 53 := by exact_mod_cast x.mantissa_lt
  have hplace : (2 : ℚ) ^ (x.exponent + 1) ≤ 2 ^ e := zpow_le_zpow_right₀ (by norm_num) (by omega)
  calc x.magnitude = x.mantissa * 2 ^ x.exponent := rfl
    _ < 2 ^ 53 * 2 ^ x.exponent := mul_lt_mul_of_pos_right hmantissa (two_zpow_pos _)
    _ = 2 ^ 52 * 2 ^ (x.exponent + 1) := by
      rw [zpow_add_one₀ (by norm_num : (2 : ℚ) ≠ 0)]
      ring
    _ ≤ 2 ^ 52 * 2 ^ e := mul_le_mul_of_nonneg_left hplace (by norm_num)

/-- A double of a greater exponent has a greater magnitude: its leading place is not empty. -/
theorem magnitude_lt_of_exponent_lt {x y : Binary64} (h : x.exponent < y.exponent) :
    x.magnitude < y.magnitude := by
  have hnormal : 2 ^ 52 ≤ y.mantissa := by
    have := x.le_exponent
    exact y.normal.resolve_left (by omega)
  have hlead : (2 : ℚ) ^ 52 ≤ y.mantissa := by exact_mod_cast hnormal
  exact (x.magnitude_lt_lead h).trans_le (mul_le_mul_of_nonneg_right hlead (two_zpow_pos _).le)

/-- The canonical form is determined by the magnitude. -/
theorem magnitude_injective {x y : Binary64} (h : x.magnitude = y.magnitude) :
    x.mantissa = y.mantissa ∧ x.exponent = y.exponent := by
  have hexponent : x.exponent = y.exponent := by
    rcases lt_trichotomy x.exponent y.exponent with hlt | heq | hgt
    · exact absurd h (magnitude_lt_of_exponent_lt hlt).ne
    · exact heq
    · exact absurd h.symm (magnitude_lt_of_exponent_lt hgt).ne
  rw [magnitude, magnitude, hexponent] at h
  have hmantissa : (x.mantissa : ℚ) = y.mantissa := mul_right_cancel₀ (two_zpow_pos _).ne' h
  exact ⟨by exact_mod_cast hmantissa, hexponent⟩

theorem magnitude_eq_zero_iff {x : Binary64} : x.magnitude = 0 ↔ x.isZero = true := by
  rw [magnitude, mul_eq_zero, or_iff_left (two_zpow_pos _).ne', isZero, beq_iff_eq, Nat.cast_eq_zero]

theorem value_of_isZero {x : Binary64} (h : x.isZero = true) : x.value = 0 := by
  rw [value, magnitude_eq_zero_iff.2 h]
  cases x.negative <;> simp

@[simp] theorem value_zero (negative : Bool) : (zero negative).value = 0 :=
  value_of_isZero rfl

theorem mantissa_eq_of_value_eq {x y : Binary64} (h : x.value = y.value) : x.mantissa = y.mantissa := by
  have hmagnitude : x.magnitude = y.magnitude := by rw [← abs_value, h, abs_value]
  exact (magnitude_injective hmagnitude).1

/-- Doubles of one sign and magnitude are equal. -/
theorem eq_of_magnitude_eq {x y : Binary64} (hsign : x.negative = y.negative)
    (h : x.magnitude = y.magnitude) : x = y := by
  obtain ⟨hmantissa, hexponent⟩ := magnitude_injective h
  cases x
  cases y
  simp only [Binary64.mk.injEq]
  exact ⟨hsign, hmantissa, hexponent⟩

/-- Doubles are the same exactly if they denote the same rational. -/
theorem sameValue_iff {x y : Binary64} : x.sameValue y = true ↔ x.value = y.value := by
  rw [sameValue, Bool.or_eq_true, Bool.and_eq_true, decide_eq_true_eq]
  constructor
  · rintro (⟨hx, hy⟩ | rfl)
    · rw [value_of_isZero hx, value_of_isZero hy]
    · rfl
  · intro h
    by_cases hsign : x.negative = y.negative
    · right
      refine eq_of_magnitude_eq hsign ?_
      rw [value, value, hsign] at h
      exact signed_injective _ h
    · left
      -- Of opposite signs, only zeros are equal.
      have hsum := abs_signed_not_sub y.negative x.magnitude_nonneg y.magnitude_nonneg
      rw [value, value, Bool.eq_not_iff.2 hsign] at h
      rw [h, sub_self, abs_zero] at hsum
      have hx := x.magnitude_nonneg
      have hy := y.magnitude_nonneg
      exact ⟨magnitude_eq_zero_iff.1 (by linarith), magnitude_eq_zero_iff.1 (by linarith)⟩

/-! ## Integers among the doubles -/

/-- A natural number of at most 53 places is a magnitude: its places are moved up to the first one. -/
theorem exists_magnitude_eq {n : ℕ} (h : n ≤ 2 ^ 53) : ∃ x : Binary64, x.magnitude = n := by
  by_cases hzero : n = 0
  · exact ⟨zero false, by rw [hzero, magnitude_eq_zero_iff.2 rfl, Nat.cast_zero]⟩
  by_cases hcarry : n = 2 ^ 53
  · refine ⟨⟨false, 0x10000000000000, 1, by decide, by decide, by decide, by decide⟩, ?_⟩
    rw [hcarry, magnitude]
    norm_num
  · have hlog : n.log2 < 53 := (Nat.log2_lt hzero).2 (by omega)
    have hlow := Nat.log2_self_le hzero
    have hhigh := Nat.lt_log2_self (n := n)
    have hsum : n.log2 + (52 - n.log2) = 52 := by omega
    have hlead : 2 ^ 52 ≤ n * 2 ^ (52 - n.log2) := by
      calc 2 ^ 52 = 2 ^ n.log2 * 2 ^ (52 - n.log2) := by rw [← pow_add, hsum]
        _ ≤ n * 2 ^ (52 - n.log2) := Nat.mul_le_mul_right _ hlow
    have hplaces : n * 2 ^ (52 - n.log2) < 2 ^ 53 := by
      calc n * 2 ^ (52 - n.log2) < 2 ^ (n.log2 + 1) * 2 ^ (52 - n.log2) :=
            Nat.mul_lt_mul_of_pos_right hhigh (Nat.two_pow_pos _)
        _ = 2 ^ 53 := by rw [← pow_add, Nat.add_right_comm, hsum]
    refine ⟨⟨false, n * 2 ^ (52 - n.log2), -(52 - n.log2 : ℕ), hplaces, by omega, by omega, .inr hlead⟩, ?_⟩
    rw [magnitude, Nat.cast_mul, Nat.cast_pow, Nat.cast_ofNat, zpow_neg, zpow_natCast, mul_assoc,
      mul_inv_cancel₀ (by positivity), mul_one]

/-- The rational of an integer, by sign and magnitude. -/
theorem int_eq_signed (i : ℤ) : (i : ℚ) = signed (decide (i < 0)) i.natAbs := by
  by_cases hneg : i < 0
  · have habs : i = -(i.natAbs : ℤ) := by omega
    rw [decide_eq_true hneg, signed_true, ← Int.cast_natCast, ← Int.cast_neg, ← habs]
  · have habs : i = (i.natAbs : ℤ) := by omega
    rw [decide_eq_false hneg, signed_false, ← Int.cast_natCast, ← habs]

theorem exists_value_eq_int {i : ℤ} (h : i.natAbs ≤ 2 ^ 53) : ∃ x : Binary64, x.value = i := by
  obtain ⟨x, hx⟩ := exists_magnitude_eq h
  exact ⟨x.withSign (decide (i < 0)), by rw [value_withSign, hx, int_eq_signed]⟩

end Covenant.Binary64
