import Covenant.Proofs.PercentOctets
import Covenant.Url

/-!
# Pairs in queries

Form data that is read back as what was written, whatever the texts are.

* `Text.splitAt_flatMap`, `Text.splitFirst?_flatMap`: a text is cut at the same separators before and after its other
  characters are encoded;
* `Form.decodePair_encodePair`: a pair is read back from its text;
* `Form.decode_append`: pairs that are appended come behind those that are there;
* `Url.decode_encodeQuery`: the encoding of a query leaves its pairs as they are.
-/

namespace Covenant

open Covenant.Text

/-! ## Separators

Each character is written by `g`. The separator is written as it is, and no other character brings one in. -/

namespace Text

variable {sep : Char} {g : Char → List Char} (hsep : g sep = [sep]) (hother : ∀ c, c ≠ sep → sep ∉ g c)

include hother in
theorem not_mem_flatMap {cs : List Char} (h : sep ∉ cs) : sep ∉ cs.flatMap g := by
  intro hmem
  obtain ⟨c, hc, hg⟩ := List.mem_flatMap.1 hmem
  exact hother c (fun heq => h (heq ▸ hc)) hg

include hsep in
theorem joinWith_flatMap (ps : List (List Char)) :
    (joinWith sep ps).flatMap g = joinWith sep (ps.map (List.flatMap g)) := by
  induction ps with
  | nil => rfl
  | cons p ps ih =>
    cases ps with
    | nil => rfl
    | cons q qs =>
      rw [joinWith, List.flatMap_append, List.flatMap_cons, hsep, ih]
      · rfl
      · exact List.cons_ne_nil q qs

include hsep hother in
/-- The parts of an encoded text are the parts of the text, encoded. -/
theorem splitAt_flatMap (cs : List Char) :
    splitAt sep (cs.flatMap g) = (splitAt sep cs).map (List.flatMap g) := by
  have hparts : ∀ p ∈ (splitAt sep cs).map (List.flatMap g), sep ∉ p := by
    intro p hp
    obtain ⟨q, hq, rfl⟩ := List.mem_map.1 hp
    exact not_mem_flatMap hother (not_mem_of_mem_splitAt hq)
  have hne : (splitAt sep cs).map (List.flatMap g) ≠ [] := by simp [splitAt_ne_nil]
  rw [← splitAt_joinWith hne hparts, ← joinWith_flatMap hsep, joinWith_splitAt]

include hsep hother in
theorem splitFirst?_flatMap (cs : List Char) :
    splitFirst? sep (cs.flatMap g) =
      (splitFirst? sep cs).map fun x => (x.1.flatMap g, x.2.flatMap g) := by
  cases hcs : splitFirst? sep cs with
  | none => exact splitFirst?_eq_none_iff.2 (not_mem_flatMap hother (splitFirst?_eq_none_iff.1 hcs))
  | some x =>
    obtain ⟨hno, hparts⟩ := splitFirst?_eq_some_iff.1 hcs
    exact splitFirst?_eq_some_iff.2 ⟨not_mem_flatMap hother hno, by simp [hparts, hsep]⟩

end Text

namespace Form

/-! ## Names and values -/

/-- What a character of a name or value stands for. -/
def spaced (c : Char) : Char := if c = '+' then ' ' else c

theorem decodePart_eq (cs : List Char) :
    decodePart cs = String.ofList (decodeLossy (Percent.decode (cs.map spaced))) := rfl

theorem map_spaced {cs : List Char} (h : '+' ∉ cs) : cs.map spaced = cs := by
  refine (List.map_congr_left fun c hc => ?_).trans (List.map_id cs)
  exact if_neg fun heq : c = '+' => h (heq ▸ hc)

theorem map_spaced_octets (bs : List UInt8) : (bs.flatMap Percent.octet).map spaced = bs.flatMap Percent.octet :=
  map_spaced (Percent.not_mem_octets (by decide) (by decide) bs)

/-- A character is a plus for a space, stands for itself, or is written by its octets. -/
theorem encodeChar_cases (c : Char) :
    c = ' ' ∧ encodeChar c = ['+'] ∨ keeps c = true ∧ encodeChar c = [c] ∨
      encodeChar c = (Text.encodeChar c).flatMap Percent.octet := by
  rw [encodeChar]
  by_cases hspace : c = ' '
  · exact .inl ⟨hspace, if_pos hspace⟩
  · rw [if_neg hspace]
    exact .inr (Percent.encodeChar_cases keeps c)

/-- A character is read back from what it is written as, whatever follows. -/
theorem decode_encodeChar (c : Char) (cs : List Char) :
    Percent.decode ((encodeChar c).map spaced ++ cs) = Text.encodeChar c ++ Percent.decode cs := by
  obtain ⟨rfl, hc⟩ | ⟨hkept, hc⟩ | hc := encodeChar_cases c
  · rw [hc]
    exact Percent.decode_cons (by decide) cs
  · have hmark : c ≠ '%' := by
      rintro rfl
      exact absurd hkept (by decide)
    have hplus : c ≠ '+' := by
      rintro rfl
      exact absurd hkept (by decide)
    rw [hc, List.map_singleton, spaced, if_neg hplus]
    exact Percent.decode_cons hmark cs
  · rw [hc, map_spaced_octets, Percent.decode_octets]

theorem decode_flatMap_encodeChar (cs : List Char) :
    Percent.decode ((cs.flatMap encodeChar).map spaced) = Text.encode cs := by
  induction cs with
  | nil => rfl
  | cons c cs ih => rw [List.flatMap_cons, List.map_append, decode_encodeChar, ih, encode_cons]

/-- A name or value is read back from its text. -/
theorem decodePart_encodePart (s : String) : decodePart (encodePart s) = s := by
  rw [decodePart_eq, encodePart, decode_flatMap_encodeChar, decodeLossy_encode, String.ofList_toList]

/-- The marks between names and values occur in none of them. -/
theorem not_mem_encodePart {sep : Char} (h : sep = '&' ∨ sep = '=') (s : String) : sep ∉ encodePart s := by
  intro hmem
  obtain ⟨c, -, hc⟩ := List.mem_flatMap.1 hmem
  have hkeeps : keeps sep = false := by obtain rfl | rfl := h <;> decide
  obtain ⟨-, henc⟩ | ⟨hkept, henc⟩ | henc := encodeChar_cases c
  · rw [henc, List.mem_singleton] at hc
    obtain rfl | rfl := h <;> exact absurd hc (by decide)
  · rw [henc, List.mem_singleton] at hc
    rw [← hc, hkeeps] at hkept
    exact absurd hkept (by simp)
  · rw [henc] at hc
    refine Percent.not_mem_octets ?_ ?_ _ hc <;> obtain rfl | rfl := h <;> decide

/-! ## Pairs -/

theorem decodePair_encodePair (p : String × String) : decodePair (encodePair p) = p := by
  have hsplit : splitFirst? '=' (encodePair p) = some (encodePart p.1, encodePart p.2) :=
    splitFirst?_eq_some_iff.2 ⟨not_mem_encodePart (.inr rfl) p.1, rfl⟩
  rw [decodePair, hsplit]
  simp [decodePart_encodePart]

/-- The text of a pair is one part of a query. -/
theorem decode_encodePair (p : String × String) : decode (encodePair p) = [p] := by
  have hno : '&' ∉ encodePair p := by
    simp [encodePair, not_mem_encodePart (.inl rfl)]
  have hne : (encodePair p).isEmpty = false := by simp [encodePair]
  rw [decode, splitAt_of_not_mem hno]
  simp [hne, decodePair_encodePair]

theorem decode_append_cons (cs ds : List Char) : decode (cs ++ '&' :: ds) = decode cs ++ decode ds := by
  rw [decode, splitAt_append_sep, List.filter_append, List.map_append]
  rfl

/-- Pairs that are appended come behind those that are there, in their order. -/
theorem decode_append (cs : List Char) (ps : List (String × String)) :
    decode (append cs ps) = decode cs ++ ps := by
  induction ps generalizing cs with
  | nil => exact (List.append_nil _).symm
  | cons p ps ih =>
    rw [append, ih]
    cases cs with
    | nil =>
      have hnone : decode [] = [] := rfl
      simp [hnone, decode_encodePair]
    | cons c cs =>
      show decode ((c :: cs) ++ '&' :: encodePair p) ++ ps = _
      rw [decode_append_cons, decode_encodePair, List.append_assoc, List.singleton_append]

/-! ## Queries in encoded form -/

/-- A character with a meaning in form data. -/
def IsMark (c : Char) : Prop :=
  c = '%' ∨ c = '+' ∨ c = '&' ∨ c = '=' ∨ (Percent.hexValue? c).isSome

instance (c : Char) : Decidable (IsMark c) :=
  inferInstanceAs (Decidable (c = '%' ∨ c = '+' ∨ c = '&' ∨ c = '=' ∨ (Percent.hexValue? c).isSome))

theorem IsMark.printable {c : Char} (h : IsMark c) : 0x20 ≤ c.toNat ∧ c.toNat < 0x7F := by
  obtain rfl | rfl | rfl | rfl | hdigit := h
  · decide
  · decide
  · decide
  · decide
  · rw [Percent.hexValue?] at hdigit
    grind

/-- A choice of characters that leaves those with a meaning in form data as they are. -/
def KeepsMarks (keep : Char → Bool) : Prop :=
  ∀ c, IsMark c → keep c = true

theorem keepsMarks_keepOutside {excluded : List Char} (h : (excluded.any fun c => decide (IsMark c)) = false) :
    KeepsMarks (Percent.keepOutside excluded) := by
  intro c hc
  have hout : c ∉ excluded := by
    intro hmem
    have hany : (excluded.any fun c => decide (IsMark c)) = true :=
      List.any_eq_true.2 ⟨c, hmem, decide_eq_true hc⟩
    rw [h] at hany
    cases hany
  simp [Percent.keepOutside, hc.printable, hout]

variable {keep : Char → Bool}

theorem KeepsMarks.encodeChar (hk : KeepsMarks keep) {c : Char} (hc : IsMark c) :
    Percent.encodeChar keep c = [c] := by
  have hascii : c.toNat < 0x80 := Nat.lt_trans hc.printable.2 (by decide)
  rw [Percent.encodeChar, if_pos]
  simp [hascii, hk c hc]

/-- No separator comes from the octets of another character. -/
theorem not_mem_encodeChar {sep : Char} (h : sep = '&' ∨ sep = '=') {c : Char} (hc : c ≠ sep) :
    sep ∉ Percent.encodeChar keep c := by
  obtain ⟨-, hself⟩ | hoctets := Percent.encodeChar_cases keep c
  · simpa [hself] using Ne.symm hc
  · rw [hoctets]
    refine Percent.not_mem_octets ?_ ?_ _ <;> obtain rfl | rfl := h <;> decide

theorem KeepsMarks.spells (hk : KeepsMarks keep) :
    Percent.Spells spaced fun c => (Percent.encodeChar keep c).map spaced := by
  intro c
  dsimp only
  by_cases hc : IsMark c
  · exact .inl (by rw [hk.encodeChar hc, List.map_singleton])
  · obtain ⟨-, hself⟩ | hoctets := Percent.encodeChar_cases keep c
    · exact .inl (by rw [hself, List.map_singleton])
    · simp only [IsMark, not_or, Bool.not_eq_true, Option.isSome_eq_false_iff, Option.isNone_iff_eq_none] at hc
      have hspaced : spaced c = c := if_neg hc.2.1
      rw [hspaced, hoctets, map_spaced_octets]
      exact .inr ⟨hc.1, hc.2.2.2.2, rfl⟩

theorem decodePart_encode (hk : KeepsMarks keep) (cs : List Char) :
    decodePart (Percent.encode keep cs) = decodePart cs := by
  rw [decodePart_eq, decodePart_eq, Percent.encode, List.map_flatMap, Percent.decode_flatMap hk.spells]

theorem decodePair_encode (hk : KeepsMarks keep) (cs : List Char) :
    decodePair (Percent.encode keep cs) = decodePair cs := by
  rw [decodePair, decodePair, Percent.encode,
    splitFirst?_flatMap (hk.encodeChar (by decide)) (fun c => not_mem_encodeChar (.inr rfl))]
  cases splitFirst? '=' cs with
  | none => exact Prod.ext (decodePart_encode hk cs) rfl
  | some x => exact Prod.ext (decodePart_encode hk x.1) (decodePart_encode hk x.2)

/-- The pairs of a query do not depend on what else is encoded in it. -/
theorem decode_encode (hk : KeepsMarks keep) (cs : List Char) :
    decode (Percent.encode keep cs) = decode cs := by
  have hparts : splitAt '&' (Percent.encode keep cs) = (splitAt '&' cs).map (Percent.encode keep) :=
    splitAt_flatMap (hk.encodeChar (by decide)) (fun c => not_mem_encodeChar (.inl rfl)) cs
  rw [decode, decode, hparts, List.filter_map, List.map_map]
  have hkept : (fun p : List Char => !p.isEmpty) ∘ Percent.encode keep = fun p => !p.isEmpty :=
    funext fun p => congrArg not (Percent.isEmpty_encode keep p)
  rw [hkept]
  exact List.map_congr_left fun p _ => decodePair_encode hk p

end Form

/-- The encoding of a query leaves its pairs as they are. -/
theorem Url.decode_encodeQuery (kind : SchemeKind) (cs : List Char) :
    Form.decode (encodeQuery kind cs).toList = Form.decode cs := by
  rw [encodeQuery, String.toList_ofList]
  refine Form.decode_encode (Form.keepsMarks_keepOutside ?_) cs
  split <;> decide

end Covenant
