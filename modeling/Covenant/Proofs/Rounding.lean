import Covenant.Proofs.DyadicValues
import Mathlib.Tactic.FieldSimp

/-!
# Rounding to the nearest double

* `Binary64.Nearest`: a double nearest to a rational, ties going to the even mantissa;
* `Binary64.Nearest.value_unique`: what is nearest to a rational is determined up to the sign of zero;
* `Binary64.nearest_of_ofRatio?`: the rounding of a quotient is nearest to it;
* `Binary64.nearest_ofInt`: an integer of at most 1023 places is rounded to the double nearest to it.
-/

namespace Covenant.Binary64

/-! ## Nearest doubles -/

/-- A double as near to a rational as any is, its mantissa even where another one is as near. -/
structure Nearest (x : Binary64) (q : ℚ) : Prop where
  le (y : Binary64) : |x.value - q| ≤ |y.value - q|
  even (y : Binary64) : y.value ≠ x.value → |y.value - q| = |x.value - q| → Even x.mantissa

theorem Nearest.of_value_eq {x y : Binary64} {q : ℚ} (h : x.Nearest q) (heq : x.value = y.value) :
    y.Nearest q := by
  constructor
  · intro z
    rw [← heq]
    exact h.le z
  · intro z hne htie
    rw [← heq] at hne htie
    rw [← mantissa_eq_of_value_eq heq]
    exact h.even z hne htie

/-- Nothing is nearer to the value of a double than the double itself. -/
theorem nearest_value_iff {x y : Binary64} : x.Nearest y.value ↔ x.value = y.value := by
  constructor
  · intro h
    have hle := h.le y
    rw [sub_self, abs_zero] at hle
    exact sub_eq_zero.1 (abs_nonpos_iff.1 hle)
  · intro h
    refine Nearest.of_value_eq ⟨fun z => ?_, fun z hne htie => ?_⟩ h.symm
    · rw [sub_self, abs_zero]
      exact abs_nonneg _
    · rw [sub_self, abs_zero, abs_eq_zero, sub_eq_zero] at htie
      exact absurd htie hne

/-- A double nearest to a rational denotes it, unless no double does. -/
theorem nearest_iff {x : Binary64} {q : ℚ} :
    x.Nearest q ↔ x.value = q ∨ (∀ y : Binary64, y.value ≠ q) ∧ x.Nearest q := by
  constructor
  · intro h
    by_cases hdenoted : ∃ y : Binary64, y.value = q
    · left
      obtain ⟨y, rfl⟩ := hdenoted
      exact nearest_value_iff.1 h
    · exact .inr ⟨not_exists.1 hdenoted, h⟩
  · rintro (rfl | ⟨-, h⟩)
    · exact nearest_value_iff.2 rfl
    · exact h

/-! ## Uniqueness -/

/-- The double with the next mantissa. -/
def withNextMantissa (x : Binary64) (h : x.mantissa + 1 < 0x20000000000000) : Binary64 :=
  { x with
    mantissa := x.mantissa + 1
    mantissa_lt := h
    normal := x.normal.imp_right Nat.le_succ_of_le }

theorem magnitude_withNextMantissa (x : Binary64) (h : x.mantissa + 1 < 0x20000000000000) :
    (x.withNextMantissa h).magnitude = (x.mantissa + 1 : ℕ) * 2 ^ x.exponent := rfl

theorem magnitude_lt_withNextMantissa (x : Binary64) (h : x.mantissa + 1 < 0x20000000000000) :
    x.magnitude < (x.withNextMantissa h).magnitude := by
  have hmantissa : (x.mantissa : ℚ) < (x.mantissa + 1 : ℕ) := by exact_mod_cast Nat.lt_succ_self _
  rw [magnitude_withNextMantissa, magnitude]
  exact mul_lt_mul_of_pos_right hmantissa (two_zpow_pos _)

/-- Between two magnitudes of even mantissas there is another one: that of the next mantissa. -/
theorem exists_magnitude_between {x y : Binary64} (hx : Even x.mantissa) (hy : Even y.mantissa)
    (h : x.magnitude < y.magnitude) : ∃ z : Binary64, x.magnitude < z.magnitude ∧ z.magnitude < y.magnitude := by
  have hfits : x.mantissa + 1 < 0x20000000000000 := by
    have hlt := x.mantissa_lt
    obtain ⟨k, hk⟩ := hx
    omega
  refine ⟨x.withNextMantissa hfits, x.magnitude_lt_withNextMantissa hfits, ?_⟩
  rcases lt_trichotomy x.exponent y.exponent with hexponent | hexponent | hexponent
  · exact magnitude_lt_of_exponent_lt hexponent
  · rw [magnitude, magnitude, hexponent] at h
    have hmantissa : x.mantissa < y.mantissa := by
      exact_mod_cast lt_of_mul_lt_mul_right h (two_zpow_pos _).le
    -- Both mantissas are even, so the second one is not the next after the first.
    have hnext : x.mantissa + 1 < y.mantissa := by
      obtain ⟨k, hk⟩ := hx
      obtain ⟨l, hl⟩ := hy
      omega
    rw [magnitude_withNextMantissa, magnitude, hexponent]
    exact mul_lt_mul_of_pos_right (by exact_mod_cast hnext) (two_zpow_pos _)
  · exact absurd h (magnitude_lt_of_exponent_lt hexponent).not_gt

theorem exists_value_between {x y : Binary64} (hx : Even x.mantissa) (hy : Even y.mantissa)
    (h : x.value < y.value) : ∃ z : Binary64, x.value < z.value ∧ z.value < y.value := by
  rcases le_or_gt 0 x.value with hpos | hneg
  · have hxmag : x.magnitude = x.value := by rw [← abs_value, abs_of_nonneg hpos]
    have hymag : y.magnitude = y.value := by rw [← abs_value, abs_of_nonneg (hpos.trans h.le)]
    obtain ⟨z, hz⟩ := exists_magnitude_between hx hy (by rwa [hxmag, hymag])
    refine ⟨z.withSign false, ?_⟩
    rwa [value_withSign, signed_false, ← hxmag, ← hymag]
  · rcases le_or_gt y.value 0 with hneg' | hpos
    · have hxmag : x.magnitude = -x.value := by rw [← abs_value, abs_of_neg hneg]
      have hymag : y.magnitude = -y.value := by rw [← abs_value, abs_of_nonpos hneg']
      obtain ⟨z, hz⟩ := exists_magnitude_between hy hx (by rw [hxmag, hymag]; linarith)
      refine ⟨z.withSign true, ?_⟩
      rw [value_withSign, signed_true]
      constructor
      · linarith [hz.2]
      · linarith [hz.1]
    · refine ⟨zero false, ?_⟩
      rw [value_zero]
      exact ⟨hneg, hpos⟩

/-- What lies strictly between two rationals is nearer to their midpoint. -/
theorem abs_sub_lt_of_between {a b c q : ℚ} (ha : a < c) (hb : c < b) (h : |a - q| = |b - q|) :
    |c - q| < |a - q| := by
  have hmid : q = (a + b) / 2 := by
    rcases abs_eq_abs.1 h with heq | heq
    · linarith
    · linarith
  subst hmid
  rw [abs_of_nonpos (by linarith : a - (a + b) / 2 ≤ 0), abs_lt]
  constructor
  · linarith
  · linarith

theorem Nearest.value_unique {x y : Binary64} {q : ℚ} (hx : x.Nearest q) (hy : y.Nearest q) :
    x.value = y.value := by
  have htie : |x.value - q| = |y.value - q| := le_antisymm (hx.le y) (hy.le x)
  -- Of two different nearest doubles both mantissas are even, and a nearer double is between them.
  have hnlt : ∀ {a b : Binary64}, a.Nearest q → b.Nearest q → |a.value - q| = |b.value - q| →
      ¬ a.value < b.value := by
    intro a b ha hb htie hlt
    obtain ⟨c, hac, hcb⟩ := exists_value_between (ha.even b hlt.ne' htie.symm) (hb.even a hlt.ne htie) hlt
    exact absurd (ha.le c) (abs_sub_lt_of_between hac hcb htie).not_ge
  rcases lt_trichotomy x.value y.value with hlt | heq | hgt
  · exact absurd hlt (hnlt hx hy htie)
  · exact heq
  · exact absurd hgt (hnlt hy hx htie.symm)

/-! ## Naturals nearest to a quotient -/

theorem ratio_eq_add (num : ℕ) {den : ℕ} (hden : 0 < den) :
    (num : ℚ) / den = (num / den : ℕ) + (num % den : ℕ) / den := by
  have hpos : (0 : ℚ) < den := by exact_mod_cast hden
  have hdiv : (den : ℚ) * (num / den : ℕ) + (num % den : ℕ) = num := by exact_mod_cast Nat.div_add_mod num den
  rw [← hdiv, add_div, mul_div_cancel_left₀ _ hpos.ne']

/-- The rounded quotient is at most a half away, and even where it is a half away. -/
theorem abs_roundQuotient_sub_le (num : ℕ) {den : ℕ} (hden : 0 < den) :
    |(roundQuotient num den : ℚ) - num / den| ≤ 1 / 2 ∧
      (|(roundQuotient num den : ℚ) - num / den| = 1 / 2 → Even (roundQuotient num den)) := by
  have hpos : (0 : ℚ) < den := by exact_mod_cast hden
  have hrest : (0 : ℚ) ≤ (num % den : ℕ) / den := by positivity
  rw [ratio_eq_add num hden, roundQuotient]
  rcases lt_trichotomy (2 * (num % den)) den with hlt | heq | hgt
  · have hhalf : ((num % den : ℕ) : ℚ) / den < 1 / 2 := by
      rw [div_lt_iff₀ hpos]
      have : (2 : ℚ) * (num % den : ℕ) < den := by exact_mod_cast hlt
      linarith
    rw [if_pos hlt, sub_add_cancel_left, abs_neg, abs_of_nonneg hrest]
    exact ⟨hhalf.le, fun h => absurd h hhalf.ne⟩
  · have hhalf : ((num % den : ℕ) : ℚ) / den = 1 / 2 := by
      rw [div_eq_iff hpos.ne']
      have : (2 : ℚ) * (num % den : ℕ) = den := by exact_mod_cast heq
      linarith
    rw [if_neg heq.not_lt, if_neg heq.not_gt, hhalf]
    rcases Nat.mod_two_eq_zero_or_one (num / den) with heven | hodd
    · rw [heven]
      norm_num
      exact Nat.even_iff.2 heven
    · rw [hodd]
      norm_num
      exact (Nat.odd_iff.2 hodd).add_one
  · have hhalf : 1 / 2 < ((num % den : ℕ) : ℚ) / den := by
      rw [lt_div_iff₀ hpos]
      have : (den : ℚ) < 2 * (num % den : ℕ) := by exact_mod_cast hgt
      linarith
    have hone : ((num % den : ℕ) : ℚ) / den < 1 := by
      rw [div_lt_one hpos]
      exact_mod_cast Nat.mod_lt num hden
    rw [if_neg hgt.not_gt, if_pos hgt, Nat.cast_add_one, add_sub_add_left_eq_sub, abs_of_pos (by linarith)]
    exact ⟨by linarith, fun h => by linarith⟩

/-- Every other natural number is a half away at least. -/
theorem half_le_abs_sub {k m : ℕ} {t : ℚ} (h : |(m : ℚ) - t| ≤ 1 / 2) (hne : k ≠ m) : 1 / 2 ≤ |(k : ℚ) - t| := by
  have hone : (1 : ℚ) ≤ |(k : ℚ) - m| := by
    have : (1 : ℤ) ≤ |(k : ℤ) - m| := Int.one_le_abs (sub_ne_zero.2 (by exact_mod_cast hne))
    exact_mod_cast this
  have htriangle : |(k : ℚ) - m| ≤ |(k : ℚ) - t| + |(m : ℚ) - t| := by
    rw [abs_sub_comm (m : ℚ) t]
    exact abs_sub_le _ _ _
  linarith

/-! ## The last place -/

theorem scaled_snd_pos (num : ℕ) {den : ℕ} (hden : 0 < den) (e : ℤ) : 0 < (scaled num den e).2 :=
  Nat.mul_pos hden (Nat.pow_pos Nat.two_pos)

theorem scaled_ratio (num den : ℕ) (e : ℤ) :
    ((scaled num den e).1 : ℚ) / (scaled num den e).2 = num / den / 2 ^ e := by
  have hplace : (2 : ℚ) ^ e = 2 ^ e.toNat / 2 ^ (-e).toNat := by
    rw [← zpow_natCast, ← zpow_natCast, ← zpow_sub₀ (by norm_num)]
    congr 1
    omega
  simp only [scaled, Nat.pow_eq, Nat.cast_mul, Nat.cast_pow, Nat.cast_ofNat, hplace]
  field_simp

/-- The places of the parts of a quotient bound it up to a factor of two. -/
theorem ratio_lt_two_zpow (num : ℕ) {den : ℕ} (hden : den ≠ 0) :
    (num : ℚ) / den < 2 ^ ((num.log2 : ℤ) - den.log2 + 1) := by
  have hnum : (num : ℚ) < 2 ^ ((num.log2 : ℤ) + 1) := by
    have := Nat.lt_log2_self (n := num)
    exact_mod_cast this
  have hlow : (2 : ℚ) ^ (den.log2 : ℤ) ≤ den := by
    have := Nat.log2_self_le hden
    exact_mod_cast this
  have hpos : (0 : ℚ) < den := by exact_mod_cast Nat.pos_of_ne_zero hden
  rw [div_lt_iff₀ hpos]
  calc (num : ℚ) < 2 ^ ((num.log2 : ℤ) + 1) := hnum
    _ = 2 ^ ((num.log2 : ℤ) - den.log2 + 1) * 2 ^ (den.log2 : ℤ) := by
      rw [← zpow_add₀ (by norm_num)]
      congr 1
      omega
    _ ≤ 2 ^ ((num.log2 : ℤ) - den.log2 + 1) * den := mul_le_mul_of_nonneg_left hlow (two_zpow_pos _).le

theorem two_zpow_lt_ratio {num den : ℕ} (hnum : num ≠ 0) (hden : den ≠ 0) :
    2 ^ ((num.log2 : ℤ) - den.log2 - 1) < (num : ℚ) / den := by
  have hlow : (2 : ℚ) ^ (num.log2 : ℤ) ≤ num := by
    have := Nat.log2_self_le hnum
    exact_mod_cast this
  have hhigh : (den : ℚ) < 2 ^ ((den.log2 : ℤ) + 1) := by
    have := Nat.lt_log2_self (n := den)
    exact_mod_cast this
  have hpos : (0 : ℚ) < den := by exact_mod_cast Nat.pos_of_ne_zero hden
  rw [lt_div_iff₀ hpos]
  calc 2 ^ ((num.log2 : ℤ) - den.log2 - 1) * (den : ℚ)
      < 2 ^ ((num.log2 : ℤ) - den.log2 - 1) * 2 ^ ((den.log2 : ℤ) + 1) :=
        mul_lt_mul_of_pos_left hhigh (two_zpow_pos _)
    _ = 2 ^ (num.log2 : ℤ) := by
      rw [← zpow_add₀ (by norm_num)]
      congr 1
      omega
    _ ≤ num := hlow

/-- The exponents of last places for a magnitude: at most 53 places are left, and the first one of them is
empty at the least exponent only. -/
structure PlacesOf (t : ℚ) (e : ℤ) : Prop where
  le : -1074 ≤ e
  lt : t < 2 ^ 53 * 2 ^ e
  lead : e = -1074 ∨ 2 ^ 52 * 2 ^ e ≤ t

theorem PlacesOf.max {t : ℚ} {e : ℤ} (hlt : t < 2 ^ 53 * 2 ^ e) (hlead : 2 ^ 52 * 2 ^ e ≤ t) :
    PlacesOf t (max (-1074) e) := by
  refine ⟨le_max_left _ _, ?_, ?_⟩
  · have hplace : (2 : ℚ) ^ e ≤ 2 ^ (Max.max (-1074) e) := zpow_le_zpow_right₀ (by norm_num) (le_max_right _ _)
    exact hlt.trans_le (mul_le_mul_of_nonneg_left hplace (by norm_num))
  · rcases le_total e (-1074) with hsmall | hlarge
    · exact Or.inl (max_eq_left hsmall)
    · exact Or.inr (by rwa [max_eq_right hlarge])

theorem lastPlace_spec {num den : ℕ} (hnum : num ≠ 0) (hden : den ≠ 0) :
    PlacesOf ((num : ℚ) / den) (lastPlace num den) := by
  have hbelow := ratio_lt_two_zpow num hden
  have habove := two_zpow_lt_ratio hnum hden
  have hratio := scaled_ratio num den (num.log2 - den.log2 - 53)
  have hpos := scaled_snd_pos num (Nat.pos_of_ne_zero hden) (num.log2 - den.log2 - 53)
  rw [lastPlace]
  generalize hguess : ((num.log2 : ℤ) - den.log2 - 53) = guess at hratio hpos
  have hcheck : (scaled num den guess).1 / (scaled num den guess).2 < 0x20000000000000 ↔
      (num : ℚ) / den < 2 ^ 53 * 2 ^ guess := by
    rw [← div_lt_iff₀ (two_zpow_pos _), ← hratio, Nat.div_lt_iff_lt_mul hpos, div_lt_iff₀ (by exact_mod_cast hpos)]
    norm_cast
  have htwo : (2 : ℚ) ≠ 0 := by norm_num
  -- One of two exponents fits, as the logarithms leave the first place open.
  have hplaces : ∀ k : ℕ, (2 : ℚ) ^ k * 2 ^ guess = 2 ^ (guess + k) := fun k => by
    rw [zpow_add₀ htwo, zpow_natCast, mul_comm]
  by_cases hfits : (num : ℚ) / den < 2 ^ 53 * 2 ^ guess
  · simp only [if_pos (hcheck.2 hfits)]
    refine PlacesOf.max hfits ?_
    rw [hplaces]
    have hexp : guess + (52 : ℕ) = (num.log2 : ℤ) - den.log2 - 1 := by omega
    rw [hexp]
    exact habove.le
  · simp only [if_neg (mt hcheck.1 hfits)]
    refine PlacesOf.max ?_ ?_
    · have hexp : 2 ^ 53 * (2 : ℚ) ^ (guess + 1) = 2 ^ ((num.log2 : ℤ) - den.log2 + 1) := by
        rw [zpow_add_one₀ htwo, mul_comm _ (2 : ℚ), ← mul_assoc, ← pow_succ, hplaces]
        congr 1
        omega
      rwa [hexp]
    · rw [zpow_add_one₀ htwo, mul_comm _ (2 : ℚ), ← mul_assoc, ← pow_succ]
      exact not_lt.1 hfits

/-! ## Rounding a quotient -/

/-- A magnitude is a number of places, or it does not reach the first place. -/
theorem magnitude_eq_places_or_lt (y : Binary64) (e : ℤ) :
    (∃ k : ℕ, y.magnitude = k * 2 ^ e) ∨ e ≠ -1074 ∧ y.magnitude < 2 ^ 52 * 2 ^ e := by
  rcases le_or_gt e y.exponent with hle | hlt
  · left
    refine ⟨y.mantissa * 2 ^ (y.exponent - e).toNat, ?_⟩
    have hexp : y.exponent = ((y.exponent - e).toNat : ℤ) + e := by omega
    rw [magnitude, Nat.cast_mul, Nat.cast_pow, Nat.cast_ofNat, mul_assoc, ← zpow_natCast, ← zpow_add₀ (by norm_num),
      ← hexp]
  · right
    have hle := y.le_exponent
    exact ⟨by omega, y.magnitude_lt_lead hlt⟩

theorem abs_places_sub (k : ℚ) (t : ℚ) (e : ℤ) : |k * 2 ^ e - t| = |k - t / 2 ^ e| * 2 ^ e := by
  have hpos := two_zpow_pos e
  rw [← abs_of_pos hpos, ← abs_mul, abs_of_pos hpos, sub_mul, div_mul_cancel₀ _ hpos.ne']

/-- Rounding the number of places gives the nearest magnitude. -/
theorem nearest_places {t : ℚ} {e : ℤ} {m : ℕ} (hplaces : PlacesOf t e) (hle : |(m : ℚ) - t / 2 ^ e| ≤ 1 / 2)
    (heven : |(m : ℚ) - t / 2 ^ e| = 1 / 2 → Even m) (y : Binary64) :
    |m * 2 ^ e - t| ≤ |y.magnitude - t| ∧
      (y.magnitude ≠ m * 2 ^ e → |y.magnitude - t| = |m * 2 ^ e - t| → Even m) := by
  have hpos := two_zpow_pos e
  rcases magnitude_eq_places_or_lt y e with ⟨k, hk⟩ | ⟨hleast, hlt⟩
  · rw [hk, abs_places_sub, abs_places_sub]
    by_cases hkm : k = m
    · subst hkm
      exact ⟨le_rfl, fun hne => absurd rfl hne⟩
    · have hhalf := half_le_abs_sub hle hkm
      refine ⟨mul_le_mul_of_nonneg_right (hle.trans hhalf) hpos.le, fun _ htie => heven ?_⟩
      exact le_antisymm hle (hhalf.trans_eq (mul_right_cancel₀ hpos.ne' htie))
  · -- Such a magnitude is farther away than the first place, which is itself a number of places.
    have hlead := hplaces.lead.resolve_left hleast
    have hfirst : |m * 2 ^ e - t| ≤ |2 ^ 52 * 2 ^ e - t| := by
      rw [abs_places_sub, abs_places_sub]
      refine mul_le_mul_of_nonneg_right ?_ hpos.le
      by_cases hm : 2 ^ 52 = m
      · rw [← hm]
        norm_num
      · exact hle.trans (by exact_mod_cast half_le_abs_sub hle hm)
    have hfar : |2 ^ 52 * 2 ^ e - t| < |y.magnitude - t| := by
      rw [abs_of_nonpos (by linarith), abs_of_neg (by linarith)]
      linarith
    exact ⟨(hfirst.trans_lt hfar).le, fun _ htie => absurd htie (hfirst.trans_lt hfar).ne'⟩

/-- A nearest magnitude with a sign is nearest to the rational of that sign. -/
theorem nearest_signed {x : Binary64} {t : ℚ} (ht : 0 ≤ t)
    (hle : ∀ y : Binary64, |x.magnitude - t| ≤ |y.magnitude - t|)
    (heven : ∀ y : Binary64, y.magnitude ≠ x.magnitude → |y.magnitude - t| = |x.magnitude - t| → Even x.mantissa) :
    x.Nearest (signed x.negative t) := by
  have hx : |x.value - signed x.negative t| = |x.magnitude - t| := abs_signed_sub _ _ _
  have hzero : (zero false).magnitude = 0 := magnitude_eq_zero_iff.2 rfl
  have hnear : |x.magnitude - t| ≤ t := by
    have hle := hle (zero false)
    rwa [hzero, zero_sub, abs_neg, abs_of_nonneg ht] at hle
  constructor
  · intro y
    rw [hx]
    by_cases hsign : y.negative = x.negative
    · rw [value, hsign, abs_signed_sub]
      exact hle y
    · rw [value, Bool.eq_not_iff.2 hsign, abs_signed_not_sub _ y.magnitude_nonneg ht]
      linarith [y.magnitude_nonneg]
  · intro y hne htie
    rw [hx] at htie
    by_cases hsign : y.negative = x.negative
    · rw [value, hsign, abs_signed_sub] at htie
      refine heven y (fun heq => hne ?_) htie
      rw [value, value, hsign, heq]
    · -- Of the other sign only zero can be as near, and it is a magnitude of either sign.
      rw [value, Bool.eq_not_iff.2 hsign, abs_signed_not_sub _ y.magnitude_nonneg ht] at htie
      have hy : y.magnitude = 0 := le_antisymm (by linarith) y.magnitude_nonneg
      have hyvalue : y.value = 0 := value_of_isZero (magnitude_eq_zero_iff.1 hy)
      refine heven (zero false) (fun heq => hne ?_) ?_
      · rw [hzero] at heq
        rw [hyvalue, value_of_isZero (magnitude_eq_zero_iff.1 heq.symm)]
      · rw [hzero, zero_sub, abs_neg, abs_of_nonneg ht, ← htie, hy, zero_add]

theorem ofParts?_eq_some {negative : Bool} {m : ℕ} {e : ℤ} {x : Binary64}
    (h : ofParts? negative m e = some x) : x.negative = negative ∧ x.mantissa = m ∧ x.exponent = e := by
  rw [ofParts?] at h
  split at h
  · cases h
    exact ⟨rfl, rfl, rfl⟩
  · cases h

/-- A rounded quotient has the rounded number of places, also where they carry into place 54. -/
theorem ofRatio?_eq_some {negative : Bool} {num den : ℕ} {x : Binary64} {e : ℤ} {m : ℕ} (hnum : num ≠ 0)
    (he : lastPlace num den = e) (hm : roundQuotient (scaled num den e).1 (scaled num den e).2 = m)
    (h : ofRatio? negative num den = some x) :
    x.negative = negative ∧ x.magnitude = m * 2 ^ e ∧ (Even m → Even x.mantissa) := by
  simp only [ofRatio?, if_neg hnum, he, hm] at h
  split at h
  · case isTrue hcarry =>
      obtain ⟨hsign, hmantissa, hexponent⟩ := ofParts?_eq_some h
      refine ⟨hsign, ?_, fun _ => ?_⟩
      · rw [magnitude, hmantissa, hexponent, hcarry, zpow_add_one₀ (by norm_num)]
        norm_num
        ring
      · rw [hmantissa]
        decide
  · obtain ⟨hsign, hmantissa, hexponent⟩ := ofParts?_eq_some h
    refine ⟨hsign, ?_, fun heven => ?_⟩
    · rw [magnitude, hmantissa, hexponent]
    · rwa [hmantissa]

/-- The rounding of a quotient is nearest to it. -/
theorem nearest_of_ofRatio? {negative : Bool} {num den : ℕ} {x : Binary64} (hden : den ≠ 0)
    (h : ofRatio? negative num den = some x) : x.Nearest (signed negative (num / den)) := by
  by_cases hnum : num = 0
  · subst hnum
    rw [ofRatio?, if_pos rfl, Option.some.injEq] at h
    subst h
    have hzero : signed negative (((0 : ℕ) : ℚ) / den) = (zero negative).value := by cases negative <;> simp
    rw [hzero]
    exact nearest_value_iff.2 rfl
  · have hround := abs_roundQuotient_sub_le (scaled num den (lastPlace num den)).1
      (scaled_snd_pos num (Nat.pos_of_ne_zero hden) (lastPlace num den))
    rw [scaled_ratio] at hround
    obtain ⟨hsign, hmagnitude, heven⟩ := ofRatio?_eq_some hnum rfl rfl h
    have hnear := nearest_places (lastPlace_spec hnum hden) hround.1 hround.2
    rw [← hmagnitude] at hnear
    rw [← hsign]
    exact nearest_signed (by positivity) (fun y => (hnear y).1) fun y hne htie => heven ((hnear y).2 hne htie)

/-! ## Rounding an integer -/

theorem PlacesOf.roundedPlaces {t : ℚ} {e : ℤ} {m : ℕ} (h : PlacesOf t e) (hle : |(m : ℚ) - t / 2 ^ e| ≤ 1 / 2) :
    m ≤ 2 ^ 53 ∧ (e = -1074 ∨ 2 ^ 52 ≤ m) := by
  obtain ⟨hlow, hhigh⟩ := abs_le.1 hle
  constructor
  · have hlt : t / 2 ^ e < 2 ^ 53 := (div_lt_iff₀ (two_zpow_pos e)).2 h.lt
    have hm : (m : ℚ) < (2 ^ 53 + 1 : ℕ) := by
      push_cast
      linarith
    exact Nat.lt_succ_iff.1 (by exact_mod_cast hm)
  · refine h.lead.imp_right fun hlead => ?_
    have hle : 2 ^ 52 ≤ t / 2 ^ e := (le_div_iff₀ (two_zpow_pos e)).2 hlead
    have hm : ((2 ^ 52 : ℕ) : ℚ) < (m + 1 : ℕ) := by
      push_cast
      linarith
    exact Nat.lt_succ_iff.1 (by exact_mod_cast hm)

/-- A quotient whose last place leaves room for a carry is rounded to a double. -/
theorem exists_ofRatio?_eq_some (negative : Bool) {num den : ℕ} (hden : den ≠ 0) (hplace : lastPlace num den ≤ 970) :
    ∃ x, ofRatio? negative num den = some x := by
  by_cases hnum : num = 0
  · exact ⟨zero negative, by rw [ofRatio?, if_pos hnum]⟩
  · have hplaces := lastPlace_spec hnum hden
    have hround := (abs_roundQuotient_sub_le (scaled num den (lastPlace num den)).1
      (scaled_snd_pos num (Nat.pos_of_ne_zero hden) (lastPlace num den))).1
    rw [scaled_ratio] at hround
    obtain ⟨hm, hlead⟩ := hplaces.roundedPlaces hround
    have hleast := hplaces.le
    simp only [ofRatio?, if_neg hnum]
    split
    · exact ⟨_, dif_pos ⟨by decide, by omega, by omega, Or.inr le_rfl⟩⟩
    · case isFalse hcarry => exact ⟨_, dif_pos ⟨by omega, hleast, by omega, by omega⟩⟩

/-- An integer of at most 1023 places is rounded to the double nearest to it. -/
theorem nearest_ofInt {i : ℤ} (h : i.natAbs.log2 < 1023) : (ofInt i).Nearest i := by
  have hplace : lastPlace i.natAbs 1 ≤ 970 := by
    have hone : Nat.log2 1 = 0 := by decide
    simp only [lastPlace, hone]
    omega
  obtain ⟨x, hx⟩ := exists_ofRatio?_eq_some (decide (i < 0)) one_ne_zero hplace
  have hnear := nearest_of_ofRatio? one_ne_zero hx
  rw [Nat.cast_one, div_one, ← int_eq_signed] at hnear
  rwa [ofInt, hx, Option.getD_some]

end Covenant.Binary64
