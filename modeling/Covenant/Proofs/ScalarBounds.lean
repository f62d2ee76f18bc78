import Covenant.Proofs.Generation
import Covenant.Proofs.SchemaForms
import Mathlib.Tactic.Ring

/-!
# Values that honour their schema

A schema of numbers may declare bounds, one of strings bounds of their length.

* `OpenApi.declaredBound?`, `OpenApi.declaredLength?`: the bounds that a schema declares;
* `OpenApi.Honours`: a number is within the declared bounds;
* `OpenApi.exampleFor_scalar`: the example of a scalar schema that lists no values is a generated one;
* `Rand.between_least`, `Rand.between_greatest`: both ends of a range are drawn;
* `OpenApi.scalars_honour_bounds`: generated strings honour declared lengths. Generated numbers honour declared
  bounds unless one of these lies beyond the default of the other, which then takes its place.
-/

namespace Covenant

open Decimal

/-! ## Ends of a range -/

namespace Rand

theorem between_least (low high : Int) : (between low high .least).1 = low := by
  simp [between, below, Source.least]

theorem neg_one_emod (n : Nat) : (-1 : Int) % (n + 1) = n := by
  have hsplit : (-1 : Int) = n + (n + 1) * -1 := by ring
  rw [hsplit, Int.add_mul_emod_self_left]
  exact Int.emod_eq_of_lt (by omega) (by omega)

theorem between_greatest {low high : Int} (h : low ≤ high) : (between low high .greatest).1 = high := by
  have hdraw : ((-1 : Int) % ((high - low).toNat + 1)).toNat = (high - low).toNat := by
    rw [neg_one_emod]
    rfl
  have hlast : (below (high - low).toNat .greatest).1.val = (high - low).toNat := by
    simp only [below, Source.greatest, hdraw, Fin.val_ofNat]
    exact Nat.mod_eq_of_lt (Nat.lt_succ_self _)
  simp only [between, hlast]
  omega

end Rand

namespace OpenApi

/-! ## Declared bounds -/

/-- The integer of 64 bits that a schema declares under a key. -/
def declaredBound? (schema : Json) (key : String) : Option Int := (schema.get? key).bind Json.toInt64?

/-- The length that a schema declares under a key. -/
def declaredLength? (schema : Json) (key : String) : Option Nat := (schema.get? key).bind Json.toNat?

/-- A number is within the bounds that a schema declares. -/
def Honours (schema : Json) (i : Int) : Prop :=
  (∀ low ∈ declaredBound? schema "minimum", low ≤ i) ∧ ∀ high ∈ declaredBound? schema "maximum", i ≤ high

/-- The bound that counts, declared or not. -/
def lowEnd (schema : Json) : Int := (declaredBound? schema "minimum").getD defaultLow.val

def highEnd (schema : Json) : Int := (declaredBound? schema "maximum").getD defaultHigh.val

theorem val_numberBound (schema : Json) (key : String) (default : Int64Value) :
    (numberBound schema key default).val = (declaredBound? schema key).getD default.val := by
  rw [numberBound, declaredBound?]
  cases schema.get? key with
  | none => rfl
  | some v =>
    cases v with
    | number n =>
      cases n with
      | integer i fits =>
        by_cases hi : i < 0x8000000000000000
        · simp [Json.toInt?, Json.toInt64?, Json.Number.toInt?, Option.filter, hi, fits.1]
        · simp [Json.toInt?, Json.toInt64?, Json.Number.toInt?, Option.filter, hi]
      | double x => rfl
    | _ => rfl

/-! ## Scalar schemas -/

/-- The schema of a scalar, with the kind of that. -/
def IsScalar (schema : Json) (w : Wildcard) : Prop :=
  ∃ type, formOf schema = .scalar type ∧ scalarKind? type = some w

/-- The example of a scalar schema that lists no values is a generated one. -/
theorem exampleFor_scalar (doc : Json) {schema : Json} {w : Wildcard} (hscalar : IsScalar schema w)
    (hchoice : firstChoice? schema = none) (s : Source) :
    exampleFor doc .generated schema s =
      .ok (some ((scalarGenerator w schema).generate s).1, ((scalarGenerator w schema).generate s).2) := by
  obtain ⟨type, hform, hkind⟩ := hscalar
  have hsample : scalar type schema .generated s =
      (some ((scalarGenerator w schema).generate s).1, ((scalarGenerator w schema).generate s).2) := by
    rw [scalar, hkind]
    simp only [hchoice]
    rfl
  rw [exampleFor_of_scalar doc hform, Loading.ofRand, hsample]

/-! ## Numbers -/

section

variable (doc : Json) {schema : Json}

/-- The bounds of a generator for numbers are the ends in order. -/
theorem bounds_scalarGenerator (schema : Json) : ∃ b, scalarGenerator .anyNumber schema = .number b ∧
    b.low.val = min (lowEnd schema) (highEnd schema) ∧ b.high.val = max (lowEnd schema) (highEnd schema) := by
  refine ⟨_, rfl, ?_⟩
  rw [lowEnd, highEnd, ← val_numberBound, ← val_numberBound]
  exact Generator.ofEnds_eq_iff.1 rfl

theorem exists_number (hscalar : IsScalar schema .anyNumber) (hchoice : firstChoice? schema = none)
    (s : Source) :
    ∃ i fits s', exampleFor doc .generated schema s = .ok (some (.number (.integer i fits)), s') ∧
      i = (Rand.between (min (lowEnd schema) (highEnd schema)) (max (lowEnd schema) (highEnd schema)) s).1 := by
  obtain ⟨b, hb, hlow, hhigh⟩ := bounds_scalarGenerator schema
  have hexample := exampleFor_scalar doc hscalar hchoice s
  rw [hb] at hexample
  exact ⟨_, _, _, hexample, by rw [← hlow, ← hhigh]⟩

/-- Both ends honour what is declared if they are in order. -/
theorem honours_of_ends {i : Int} (hlow : lowEnd schema ≤ i) (hhigh : i ≤ highEnd schema) :
    Honours schema i := by
  refine ⟨fun low hdeclared => ?_, fun high hdeclared => ?_⟩
  · rwa [lowEnd, hdeclared] at hlow
  · rwa [highEnd, hdeclared] at hhigh

/-- If the ends are in the wrong order, one of them does not honour what is declared. -/
theorem not_honours_of_ends (hends : highEnd schema < lowEnd schema) :
    ¬ Honours schema (highEnd schema) ∨ ¬ Honours schema (lowEnd schema) := by
  cases hlow : declaredBound? schema "minimum" with
  | some low =>
    left
    intro hhonours
    have hless := hhonours.1 low hlow
    have hend : lowEnd schema = low := by rw [lowEnd, hlow, Option.getD_some]
    omega
  | none =>
    right
    intro hhonours
    cases hhigh : declaredBound? schema "maximum" with
    | some high =>
      have hless := hhonours.2 high hhigh
      have hend : highEnd schema = high := by rw [highEnd, hhigh, Option.getD_some]
      omega
    | none =>
      rw [lowEnd, highEnd, hlow, hhigh] at hends
      exact absurd hends (by decide)

/-- Whatever is drawn is within the declared bounds exactly if the ends are in order. -/
theorem honours_iff (hscalar : IsScalar schema .anyNumber) (hchoice : firstChoice? schema = none) :
    (∀ s i fits s', exampleFor doc .generated schema s = .ok (some (.number (.integer i fits)), s') →
      Honours schema i) ↔ lowEnd schema ≤ highEnd schema := by
  constructor
  · intro hall
    by_contra hends
    have hends : highEnd schema < lowEnd schema := by omega
    have hboth (s : Source) : Honours schema (Rand.between (highEnd schema) (lowEnd schema) s).1 := by
      obtain ⟨i, fits, s', hexample, hi⟩ := exists_number doc hscalar hchoice s
      rw [min_eq_right hends.le, max_eq_left hends.le] at hi
      exact hi ▸ hall s i fits s' hexample
    have hleast := hboth .least
    have hgreatest := hboth .greatest
    rw [Rand.between_least] at hleast
    rw [Rand.between_greatest hends.le] at hgreatest
    rcases not_honours_of_ends hends with hnot | hnot
    · exact hnot hleast
    · exact hnot hgreatest
  · intro hends s i fits s' hexample
    obtain ⟨j, fits', s'', hexample', hj⟩ := exists_number doc hscalar hchoice s
    rw [hexample'] at hexample
    cases hexample
    rw [min_eq_left hends, max_eq_right hends] at hj
    have hrange := Rand.between_mem hends s
    exact honours_of_ends (hj ▸ hrange.1) (hj ▸ hrange.2)

/-! ## Strings -/

/-- The length of a generated string honours declared lengths, up to the greatest length of all. -/
theorem stringLength_spec
    (hdeclared : ∀ least ∈ declaredLength? schema "minLength", ∀ most ∈ declaredLength? schema "maxLength",
      least ≤ most) :
    (∀ least ∈ declaredLength? schema "minLength", least ≤ maxLength → least ≤ stringLength schema) ∧
    ∀ most ∈ declaredLength? schema "maxLength", stringLength schema ≤ most := by
  have hlength : stringLength schema =
      min (max ((declaredLength? schema "maxLength").elim
        ((declaredLength? schema "minLength").getD defaultLength)
        (min ((declaredLength? schema "minLength").getD defaultLength)))
        ((declaredLength? schema "minLength").getD 0)) maxLength := rfl
  rw [hlength]
  cases hleast : declaredLength? schema "minLength" with
  | none =>
    refine ⟨nofun, fun most hmost => ?_⟩
    rw [hmost]
    simp only [Option.elim_some, Option.getD_none]
    omega
  | some least =>
    refine ⟨fun n hn hmax => ?_, fun most hmost => ?_⟩
    · cases hn
      simp only [Option.getD_some]
      omega
    · have hle := hdeclared least hleast most hmost
      rw [hmost]
      simp only [Option.elim_some, Option.getD_some]
      omega

theorem exists_string (hscalar : IsScalar schema .anyString) (hchoice : firstChoice? schema = none)
    (hformat : (schema.get? "format").bind Json.toText? ≠ some "uuid") (s : Source) :
    ∃ t s', exampleFor doc .generated schema s = .ok (some (.string t), s') ∧
      t.length = stringLength schema := by
  have hexample := exampleFor_scalar doc hscalar hchoice s
  rw [scalarGenerator, if_neg hformat] at hexample
  have hproduces := Generator.produces_generate (.string (stringLength schema) (Nat.min_le_right _ _)) s
  generalize Generator.generate (.string (stringLength schema) (Nat.min_le_right _ _)) s = drawn
    at hexample hproduces
  obtain ⟨v, s'⟩ := drawn
  cases hproduces with
  | string _ hlength _ =>
    refine ⟨_, s', hexample, ?_⟩
    rw [String.length_ofList, hlength]

/-! ## Both -/

/-- A scalar schema without listed values. For one of numbers, whatever is drawn, a number between its two ends is
generated, and all numbers that can be drawn honour the declared bounds exactly if these ends are in order: each
end is the declared bound, or the default (1 and 9999999) where none is declared, so that a single declared bound
is honoured exactly as far as it does not cross the default of the other side. For one of strings other than
identifiers, a string is generated whose length honours the declared lengths, if these do not contradict each
other and the least one is within the greatest length of all. -/
theorem scalars_honour_bounds (hchoice : firstChoice? schema = none) :
    (IsScalar schema .anyNumber →
      (∀ s, ∃ i fits s', exampleFor doc .generated schema s = .ok (some (.number (.integer i fits)), s') ∧
        min (lowEnd schema) (highEnd schema) ≤ i ∧ i ≤ max (lowEnd schema) (highEnd schema)) ∧
      ((∀ s i fits s', exampleFor doc .generated schema s = .ok (some (.number (.integer i fits)), s') →
        Honours schema i) ↔ lowEnd schema ≤ highEnd schema)) ∧
    (IsScalar schema .anyString → (schema.get? "format").bind Json.toText? ≠ some "uuid" →
      (∀ least ∈ declaredLength? schema "minLength", ∀ most ∈ declaredLength? schema "maxLength", least ≤ most) →
      ∀ s, ∃ t s', exampleFor doc .generated schema s = .ok (some (.string t), s') ∧
        (∀ least ∈ declaredLength? schema "minLength", least ≤ maxLength → least ≤ t.length) ∧
        ∀ most ∈ declaredLength? schema "maxLength", t.length ≤ most) := by
  refine ⟨fun hscalar => ⟨fun s => ?_, honours_iff doc hscalar hchoice⟩, fun hscalar hformat hdeclared s => ?_⟩
  · obtain ⟨i, fits, s', hexample, hi⟩ := exists_number doc hscalar hchoice s
    have hends : min (lowEnd schema) (highEnd schema) ≤ max (lowEnd schema) (highEnd schema) :=
      le_trans (min_le_left _ _) (le_max_left _ _)
    have hrange := Rand.between_mem hends s
    exact ⟨i, fits, s', hexample, hi ▸ hrange⟩
  · obtain ⟨t, s', hexample, hlength⟩ := exists_string doc hscalar hchoice hformat s
    exact ⟨t, s', hexample, hlength ▸ stringLength_spec hdeclared⟩

end

/-- Integers from 5 to 7. -/
def narrowSchema : Json :=
  .object [("type", .string "integer"), ("minimum", .ofNat 5), ("maximum", .ofNat 7)]

/-- Strings of three or four characters. -/
def shortSchema : Json :=
  .object [("type", .string "string"), ("minLength", .ofNat 3), ("maxLength", .ofNat 4)]

theorem scalars_honour_bounds_narrow :
    firstChoice? narrowSchema = none ∧ firstChoice? shortSchema = none ∧
    (∀ s, ∃ i fits s', exampleFor .null .generated narrowSchema s = .ok (some (.number (.integer i fits)), s') ∧
      5 ≤ i ∧ i ≤ 7 ∧ Honours narrowSchema i) ∧
    ∀ s, ∃ t s', exampleFor .null .generated shortSchema s = .ok (some (.string t), s') ∧
      3 ≤ t.length ∧ t.length ≤ 4 := by
  have hnumber : IsScalar narrowSchema .anyNumber := ⟨"integer", rfl, rfl⟩
  have hstring : IsScalar shortSchema .anyString := ⟨"string", rfl, rfl⟩
  obtain ⟨hdrawn, hhonours⟩ := (scalars_honour_bounds .null (rfl : firstChoice? narrowSchema = none)).1 hnumber
  have hlengths := (scalars_honour_bounds .null (rfl : firstChoice? shortSchema = none)).2 hstring nofun
  refine ⟨rfl, rfl, fun s => ?_, fun s => ?_⟩
  · obtain ⟨i, fits, s', hexample, hlow, hhigh⟩ := hdrawn s
    exact ⟨i, fits, s', hexample, hlow, hhigh, hhonours.2 (by decide) s i fits s' hexample⟩
  · have hdeclared : ∀ least ∈ declaredLength? shortSchema "minLength",
        ∀ most ∈ declaredLength? shortSchema "maxLength", least ≤ most := by
      intro least hleast most hmost
      cases hleast
      cases hmost
      decide
    obtain ⟨t, s', hexample, hleast, hmost⟩ := hlengths hdeclared s
    exact ⟨t, s', hexample, hleast 3 rfl (by decide), hmost 4 rfl⟩

/-- A least integer beyond the default greatest one, and no other bound. -/
def beyondSchema : Json := .object [("type", .string "integer"), ("minimum", .ofNat 9223372036854775807)]

/-- A single declared bound is given up for the default that it crosses. -/
theorem scalars_honour_bounds_crossed :
    declaredBound? beyondSchema "minimum" = some 9223372036854775807 ∧
    declaredBound? beyondSchema "maximum" = none ∧
    ∃ i fits s', exampleFor .null .generated beyondSchema .least = .ok (some (.number (.integer i fits)), s') ∧
      i = 9999999 ∧ ¬ Honours beyondSchema i := by
  obtain ⟨i, fits, s', hexample, hi⟩ :=
    exists_number .null (⟨"integer", rfl, rfl⟩ : IsScalar beyondSchema .anyNumber) rfl .least
  rw [Rand.between_least] at hi
  have hvalue : i = 9999999 := hi.trans (by decide)
  refine ⟨rfl, rfl, i, fits, s', hexample, hvalue, fun hhonours => ?_⟩
  have hbound := hhonours.1 9223372036854775807 rfl
  omega

end OpenApi

end Covenant
