import Covenant.Proofs.Octets
import Covenant.Url.Percent

/-!
# Percent encoding and the octets behind it

* `decode_octets`, `decode_cons`, `decode_percent`: what a text starts with decides its first octets;
* `mem_decode`, `not_mem_octets`: characters that are no part of an encoded octet;
* `encodeChar_cases`: how a character is written in encoded form;
* `decode_flatMap`: a text has the same octets before and after some of its characters are encoded.
-/

namespace Covenant.Percent

open Covenant.Text

/-! ## The first octets of a text -/

theorem decode_octet (b : UInt8) (cs : List Char) : decode (octet b ++ cs) = b :: decode cs := by
  have hb : b.toNat < 256 := b.toNat_lt
  have hhigh : hexValue? (hexChar (b.toNat / 16)) = some (b.toNat / 16) := hexValue?_hexChar (by omega)
  have hlow : hexValue? (hexChar (b.toNat % 16)) = some (b.toNat % 16) := hexValue?_hexChar (by omega)
  show decode ('%' :: hexChar (b.toNat / 16) :: hexChar (b.toNat % 16) :: cs) = _
  rw [decode, hhigh, hlow]
  simp [Nat.div_add_mod]

/-- Encoded octets are read back, whatever follows. -/
theorem decode_octets (bs : List UInt8) (cs : List Char) :
    decode (bs.flatMap octet ++ cs) = bs ++ decode cs := by
  induction bs with
  | nil => rfl
  | cons b bs ih => rw [List.flatMap_cons, List.append_assoc, decode_octet, ih, List.cons_append]

theorem decode_cons {c : Char} (h : c ≠ '%') (cs : List Char) :
    decode (c :: cs) = Text.encodeChar c ++ decode cs := by
  rw [decode]
  simp [h]

/-- Two hexadecimal digits behind a percent sign are an octet. -/
theorem decode_percent_digits {a b : Char} {x y : Nat} (ha : hexValue? a = some x) (hb : hexValue? b = some y)
    (cs : List Char) : decode ('%' :: a :: b :: cs) = (16 * x + y).toUInt8 :: decode cs := by
  rw [decode, ha, hb]

/-- Any other percent sign stands for itself. -/
theorem decode_percent {cs : List Char}
    (h : ∀ a b ds, cs = a :: b :: ds → hexValue? a = none ∨ hexValue? b = none) :
    decode ('%' :: cs) = 0x25 :: decode cs := by
  match cs with
  | [] => rfl
  | [a] => rfl
  | a :: b :: ds =>
    rw [decode]
    obtain ha | hb := h a b ds rfl
    · rw [ha]
    · rw [hb]
      cases hexValue? a <;> rfl

/-- A character that is no part of an encoded octet keeps its octets. -/
theorem mem_decode {c : Char} {cs : List Char} (hc : c ∈ cs) (hmark : c ≠ '%') (hdigit : hexValue? c = none)
    {b : UInt8} (hb : b ∈ Text.encodeChar c) : b ∈ decode cs := by
  fun_induction decode cs with
  | case1 => simp at hc
  | case2 d e cs x y hd he ih =>
    have hcd : c ≠ d := by grind
    have hce : c ≠ e := by grind
    simp only [List.mem_cons, hmark, hcd, hce, false_or] at hc
    exact List.mem_cons_of_mem _ (ih hc)
  | case3 d e cs hno ih =>
    exact List.mem_cons_of_mem _ (ih ((List.mem_cons.1 hc).resolve_left hmark))
  | case4 d cs hno ih =>
    rw [List.mem_append]
    obtain rfl | hc := List.mem_cons.1 hc
    · exact .inl hb
    · exact .inr (ih hc)

/-- Encoded octets consist of percent signs and hexadecimal digits. -/
theorem not_mem_octets {c : Char} (hmark : c ≠ '%') (hdigit : hexValue? c = none) (bs : List UInt8) :
    c ∉ bs.flatMap octet := by
  have hhex {n : Nat} (hn : n < 16) : c ≠ hexChar n := by
    intro heq
    rw [heq, hexValue?_hexChar hn] at hdigit
    exact absurd hdigit (by simp)
  intro hc
  obtain ⟨b, -, hb⟩ := List.mem_flatMap.1 hc
  have hlt : b.toNat < 256 := b.toNat_lt
  simp only [octet, List.mem_cons, hmark, hhex (show b.toNat / 16 < 16 by omega),
    hhex (show b.toNat % 16 < 16 by omega), List.not_mem_nil, or_false] at hb

/-! ## Texts in encoded form -/

/-- A way to write characters: each stands for itself, or its octets do where it is no part of an encoded
octet. What a character stands for is given by `f`. -/
def Spells (f : Char → Char) (g : Char → List Char) : Prop :=
  ∀ c, g c = [f c] ∨ f c ≠ '%' ∧ hexValue? (f c) = none ∧ g c = (Text.encodeChar (f c)).flatMap octet

/-- A character is kept or written by its octets. -/
theorem encodeChar_cases (keep : Char → Bool) (c : Char) :
    keep c = true ∧ encodeChar keep c = [c] ∨ encodeChar keep c = (Text.encodeChar c).flatMap octet := by
  rw [encodeChar]
  by_cases hkept : (decide (c.toNat < 0x80) && keep c) = true
  · exact .inl ⟨(Bool.and_eq_true_iff.1 hkept).2, if_pos hkept⟩
  · exact .inr (if_neg hkept)

theorem exists_encodeChar (c : Char) : ∃ b bs, Text.encodeChar c = b :: bs := by
  rw [Text.encodeChar]
  split_ifs <;> exact ⟨_, _, rfl⟩

theorem isEmpty_encode (keep : Char → Bool) (cs : List Char) : (encode keep cs).isEmpty = cs.isEmpty := by
  cases cs with
  | nil => rfl
  | cons c cs =>
    obtain ⟨-, hself⟩ | hoctets := encodeChar_cases keep c
    · simp [encode, hself]
    · obtain ⟨b, bs, hbs⟩ := exists_encodeChar c
      simp [encode, hoctets, hbs, octet]

variable {f : Char → Char} {g : Char → List Char}

/-- A text and the way it is written start with the same hexadecimal digit, or neither starts with one. -/
theorem Spells.digit (hg : Spells f g) (cs : List Char) :
    (∃ c ds, cs = c :: ds ∧ (hexValue? (f c)).isSome ∧ g c = [f c]) ∨
      (∀ c ds, cs.map f = c :: ds → hexValue? c = none) ∧
        ∀ c ds, cs.flatMap g = c :: ds → hexValue? c = none := by
  cases cs with
  | nil => exact .inr (by simp)
  | cons c cs =>
    obtain hself | ⟨hmark, hdigit, hoctets⟩ := hg c
    · cases hvalue : hexValue? (f c) with
      | some x => exact .inl ⟨c, cs, rfl, by simp [hvalue], hself⟩
      | none =>
        rw [List.flatMap_cons, hself]
        grind
    · obtain ⟨b, bs, hbs⟩ := exists_encodeChar (f c)
      rw [List.flatMap_cons, hoctets, hbs]
      refine .inr ⟨by grind, fun d ds hd => ?_⟩
      obtain rfl : '%' = d := (List.cons.inj hd).1
      rfl

/-- What a percent sign stands for is decided by the two characters behind it, and these are written alike. -/
theorem Spells.decode_percent (hg : Spells f g) {cs : List Char}
    (hbehind : ∀ ds : List Char, ds.length ≤ cs.length → decode (ds.flatMap g) = decode (ds.map f)) :
    decode ('%' :: cs.flatMap g) = decode ('%' :: cs.map f) := by
  obtain ⟨a, ds, rfl, ha, hga⟩ | ⟨hmap, hwritten⟩ := hg.digit cs
  · obtain ⟨x, hx⟩ := Option.isSome_iff_exists.1 ha
    obtain ⟨b, es, rfl, hb, hgb⟩ | ⟨hmap, hwritten⟩ := hg.digit ds
    · obtain ⟨y, hy⟩ := Option.isSome_iff_exists.1 hb
      have hrest : decode (es.flatMap g) = decode (es.map f) := hbehind es (by simp; omega)
      simp [hga, hgb, decode_percent_digits hx hy, hrest]
    · rw [Percent.decode_percent, Percent.decode_percent, hbehind _ (Nat.le_refl _)]
      · intro a' b es heq
        exact .inr (hmap b es (List.cons.inj heq).2)
      · intro a' b es heq
        rw [List.flatMap_cons, hga] at heq
        exact .inr (hwritten b es (List.cons.inj heq).2)
  · rw [Percent.decode_percent, Percent.decode_percent, hbehind cs (Nat.le_refl _)]
    · exact fun a b ds heq => .inl (hmap a (b :: ds) heq)
    · exact fun a b ds heq => .inl (hwritten a (b :: ds) heq)

/-- The octets of a text are those of the way it is written. -/
theorem decode_flatMap (hg : Spells f g) (cs : List Char) : decode (cs.flatMap g) = decode (cs.map f) := by
  match cs with
  | [] => rfl
  | c :: cs =>
    rw [List.flatMap_cons, List.map_cons]
    obtain hself | ⟨hmark, -, hoctets⟩ := hg c
    · rw [hself, List.singleton_append]
      by_cases hmark : f c = '%'
      · rw [hmark, hg.decode_percent fun ds hds => decode_flatMap hg ds]
      · rw [decode_cons hmark, decode_cons hmark, decode_flatMap hg cs]
    · rw [hoctets, decode_octets, decode_cons hmark, decode_flatMap hg cs]
termination_by cs.length
decreasing_by
  · exact Nat.lt_succ_of_le hds
  · exact Nat.lt_succ_self _
  · exact Nat.lt_succ_self _

end Covenant.Percent
