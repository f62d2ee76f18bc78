import Covenant.Proofs.Easing
import Covenant.Proofs.Generation
import Covenant.Proofs.Literals

/-!
# Texts that can be declared

Tokens are declared by their escapes, and almost every other text by itself. An escape has no escape of its own:
a second backslash in front of it is a character like any other. So the texts that look like escapes stand for
tokens and for nothing else.

* `IsEscape`: a backslash in front of a token, `exists_denotes_iff`: the texts that some string stands for;
* `Declares`: a string is sent as a text and is loaded as an expectation of this text alone;
* `not_onlyTextBody_of_isEscape`, `not_onlyTextHeader_of_isEscape`: no loaded string expects an escape alone;
* `declarable_iff`: the texts that can be declared are those that are no escapes.
-/

namespace Covenant

/-! ## Texts that a string stands for -/

/-- A backslash in front of a complete token. -/
def IsEscape (s : String) : Prop := ∃ t, s = "\\" ++ t ∧ IsToken t

theorem head?_of_isEscape {s : String} (h : IsEscape s) : s.toList.head? = some '\\' := by
  obtain ⟨t, rfl, -⟩ := h
  rw [String.toList_append]
  rfl

/-- An escape is no token. -/
theorem not_isToken_of_isEscape {s : String} (h : IsEscape s) : ¬ IsToken s := by
  intro htoken
  rcases htoken with hwild | hgen
  · obtain ⟨w, hw⟩ := Option.isSome_iff_exists.1 hwild
    obtain ⟨t, rfl, -⟩ := h
    exact escape_ne_label t w (Wildcard.parse?_eq_some_iff.1 hw)
  · have hhead := head?_of_isGenerator hgen
    rw [head?_of_isEscape h] at hhead
    cases hhead

/-- No string stands for an escape: it would be the escape, which stands for the token, or an escape of it. -/
theorem not_denotes_isEscape {d s : String} (h : IsEscape s) : ¬ Denotes d s := by
  intro hdenotes
  cases hdenotes with
  | escape htoken => exact not_isToken_of_isEscape h htoken
  | text hplain =>
    obtain ⟨t, rfl, htoken⟩ := h
    exact hplain t htoken rfl

/-- Any other text has a string that stands for it and is no token itself. -/
theorem exists_denotes_iff {s : String} : (∃ d, ¬ IsToken d ∧ Denotes d s) ↔ ¬ IsEscape s := by
  constructor
  · rintro ⟨d, -, hdenotes⟩ h
    exact not_denotes_isEscape h hdenotes
  · intro h
    by_cases htoken : IsToken s
    · exact ⟨"\\" ++ s, not_isToken_of_isEscape ⟨s, rfl, htoken⟩, .escape htoken⟩
    · exact ⟨s, htoken, .text fun t ht heq => h ⟨t, heq, ht⟩⟩

/-! ## Declarations of a text -/

/-- A string declares a text: the text is sent in requests, and the expectation that is loaded accepts the text
and nothing else, as a whole body, as a header and inside of a body. -/
structure Declares (d s : String) : Prop where
  sent : ∀ src, materialize .request (.string d) src = (.string s, src)
  expected : ∀ contract path src, ∃ e, Contract.valueOf contract path .response (.string d) src = .ok (e, src) ∧
    OnlyTextBody e s ∧ OnlyTextHeader e s
  inside : ∀ v p src, v.DistinctKeys → v.at? p = some (.string d) →
    OnlyTextAt (materialize .response v src).1 p s

theorem declares_of_denotes {d s : String} (hd : ¬ IsToken d) (h : Denotes d s) : Declares d s where
  sent := materializeText_request hd h
  expected := by
    intro contract path src
    obtain ⟨u, hu, hwild, hut⟩ := materializeText_response hd h src
    exact ⟨.string u, congrArg Except.ok hu, onlyTextBody hwild hut, onlyTextHeader hwild hut⟩
  inside := by
    intro v p src hv hp
    obtain ⟨src', hat⟩ := at?_materialize .response hp src
    obtain ⟨u, hu, hwild, hut⟩ := materializeText_response hd h src'
    rw [materialize, hu] at hat
    exact onlyTextAt hwild hut (distinctKeys_materialize hv src) hat

/-! ## What is loaded for a string -/

/-- A string becomes a string, an integer or a truth value. -/
theorem materializeText_forms (role : Role) (d : String) (src : Source) :
    (∃ u, (materializeText role d src).1 = .string u) ∨
      (∃ i h, (materializeText role d src).1 = .number (.integer i h)) ∨
      ∃ b, (materializeText role d src).1 = .bool b := by
  rw [materializeText]
  cases Generator.parse? d with
  | some g =>
    cases g with
    | string n hn => exact .inl ⟨_, rfl⟩
    | number b => exact .inr (.inl ⟨_, _, rfl⟩)
    | bool => exact .inr (.inr ⟨_, rfl⟩)
    | uuid => exact .inl ⟨_, rfl⟩
  | none =>
    cases escaped? d with
    | some u => exact .inl ⟨_, rfl⟩
    | none => exact .inl ⟨_, rfl⟩

/-- No string is sent as an escape. -/
theorem materialize_request_ne_escape {s : String} (h : IsEscape s) (d : String) (src : Source) :
    (materialize .request (.string d) src).1 ≠ .string s := by
  intro heq
  change (materializeText .request d src).1 = .string s at heq
  by_cases hgen : isGenerator d = true
  · -- what is generated starts with no backslash
    obtain ⟨g, hg⟩ := Option.isSome_iff_exists.1 hgen
    rw [materializeText, hg] at heq
    exact (Generator.generate_plain heq).2 (head?_of_isEscape h)
  · by_cases htoken : IsToken d
    · have hinert : Inert .request d := by
        refine ⟨Bool.eq_false_iff.2 hgen, ?_⟩
        rintro u rfl hu
        exact not_isToken_of_isEscape ⟨u, rfl, hu⟩ htoken
      rw [materializeText_eq_self hinert] at heq
      rw [Json.string.inj heq] at htoken
      exact not_isToken_of_isEscape h htoken
    · obtain ⟨t, ht⟩ := exists_denotes d
      rw [materializeText_request htoken ht] at heq
      rw [Json.string.inj heq] at ht
      exact not_denotes_isEscape h ht

/-! ## Expectations of one text -/

/-- What accepts one text as a whole body conforms to it. -/
theorem OnlyTextBody.conforms {e : Json} {s : String} (h : OnlyTextBody e s) : Conforms e (.string s) := by
  have hvalid := h ⟨200, none, some e⟩ ⟨200, [], .string s⟩ ⟨false, 0⟩ rfl
  rw [Expectation.hasViolations_validate_iff] at hvalid
  exact ((hvalid.2 ⟨rfl, rfl, nofun⟩).body e rfl).1

theorem OnlyTextHeader.matches_iff {e : Json} {s : String} (h : OnlyTextHeader e s) (r : String) :
    headerMatches e r = true ↔ r = s := by
  have hvalid := h ⟨200, [("x", r)], .null⟩ false "x"
  have hreceived : receivedHeader? ⟨200, [("x", r)], .null⟩ false "x" = some r := rfl
  rw [headerViolation?, hreceived, Option.some.injEq] at hvalid
  rw [← hvalid]
  exact (ite_eq_left_iff.trans (by simp)).symm

/-- A wildcard accepts more than one value, so that it expects no text alone. -/
theorem not_onlyTextBody_wildcard (w : Wildcard) (s : String) : ¬ OnlyTextBody (.string w.label) s := by
  intro h
  have hall : ∀ v : Json, v.kind = w.kind → v = .string s := by
    intro v hv
    have hvalid := h ⟨200, none, some (.string w.label)⟩ ⟨200, [], v⟩ ⟨false, 0⟩ rfl
    rw [Expectation.hasViolations_validate_iff] at hvalid
    refine (hvalid.1 ⟨rfl, ?_, nofun⟩).2.1
    intro b hb
    cases hb
    refine ⟨.wildcard hv, fun p hp => ?_⟩
    rw [reachedTogether_text_iff.1 hp]
    exact Nat.zero_le _
  cases w with
  | anyString => exact absurd ((hall (.string "a") rfl).trans (hall (.string "b") rfl).symm) (by decide)
  | anyNumber => exact absurd (hall (.ofNat 0) rfl) nofun
  | anyBool => exact absurd (hall (.bool true) rfl) nofun

theorem not_onlyTextHeader_wildcard (w : Wildcard) (s : String) : ¬ OnlyTextHeader (.string w.label) s := by
  intro h
  have hall (r r' : String) (hr : headerMatches (.string w.label) r = true)
      (hr' : headerMatches (.string w.label) r' = true) : r = r' :=
    ((h.matches_iff r).1 hr).trans ((h.matches_iff r').1 hr').symm
  cases w with
  | anyString => exact absurd (hall "0" "1" (by decide +kernel) (by decide +kernel)) (by decide)
  | anyNumber => exact absurd (hall "0" "1" (by decide +kernel) (by decide +kernel)) (by decide)
  | anyBool => exact absurd (hall "true" "false" (by decide +kernel) (by decide +kernel)) (by decide)

/-- An integer is written without a backslash at its front. -/
theorem head?_ofInt (i : Int) : (Decimal.ofInt i).toList.head? ≠ some '\\' := by
  have hdigits : (Decimal.ofNat i.natAbs).toList.head? ≠ some '\\' := by
    intro hhead
    rw [Decimal.ofNat, String.toList_ofList] at hhead
    exact absurd (Decimal.isDigit_of_mem_digits (List.mem_of_mem_head? hhead)) (by decide)
  rw [Decimal.ofInt]
  split
  · rw [String.toList_append]
    exact nofun
  · exact hdigits

section Escapes

variable {s : String} (h : IsEscape s) (d : String) (src : Source)

include h

/-- As a whole body, nothing that is loaded for a string expects an escape and nothing else. -/
theorem not_onlyTextBody_of_isEscape : ¬ OnlyTextBody (materialize .response (.string d) src).1 s := by
  show ¬ OnlyTextBody (materializeText .response d src).1 s
  intro honly
  rcases materializeText_forms .response d src with ⟨u, hu⟩ | ⟨i, hi, hu⟩ | ⟨b, hu⟩
  · rw [hu] at honly
    by_cases hwild : ∃ w : Wildcard, u = w.label
    · obtain ⟨w, rfl⟩ := hwild
      exact not_onlyTextBody_wildcard w s honly
    · obtain ⟨t, ht⟩ := exists_denotes u
      have hsame := (conforms_text_iff (fun w heq => hwild ⟨w, heq⟩) ht).1 honly.conforms
      rw [← Json.string.inj hsame] at ht
      exact not_denotes_isEscape h ht
  · rw [hu] at honly
    have hkind : Json.Kind.number = .string := honly.conforms.demandedKind_eq
    cases hkind
  · rw [hu] at honly
    have hkind : Json.Kind.boolean = .string := honly.conforms.demandedKind_eq
    cases hkind

/-- Nor does it as a header. -/
theorem not_onlyTextHeader_of_isEscape : ¬ OnlyTextHeader (materialize .response (.string d) src).1 s := by
  show ¬ OnlyTextHeader (materializeText .response d src).1 s
  intro honly
  have hself := (honly.matches_iff s).2 rfl
  rcases materializeText_forms .response d src with ⟨u, hu⟩ | ⟨i, hi, hu⟩ | ⟨b, hu⟩
  · rw [hu] at honly hself
    by_cases hwild : ∃ w : Wildcard, u = w.label
    · obtain ⟨w, rfl⟩ := hwild
      exact not_onlyTextHeader_wildcard w s honly
    · rw [headerMatches_text fun w heq => hwild ⟨w, heq⟩, ← denotes_iff] at hself
      exact not_denotes_isEscape h hself
  · have hother : ∀ t, Json.number (.integer i hi) ≠ .string t := fun _ => nofun
    rw [hu, headerMatches_rendered hother] at hself
    have hhead := head?_of_isEscape h
    rw [← hself] at hhead
    exact head?_ofInt i hhead
  · have hother : ∀ t, Json.bool b ≠ .string t := fun _ => nofun
    rw [hu, headerMatches_rendered hother] at hself
    have hhead := head?_of_isEscape h
    rw [← hself] at hhead
    cases b <;> cases hhead

end Escapes

/-! ## The texts that can be declared -/

/-- A text can be declared exactly if it is no backslash in front of a complete token: then one string declares it
in both roles. Otherwise no string is sent as this text, whatever is drawn, and nothing that is loaded for a string
expects this text alone. -/
theorem declarable_iff (s : String) :
    ((∃ d, Declares d s) ↔ ¬ IsEscape s) ∧
    ((∃ d src, (materialize .request (.string d) src).1 = .string s) ↔ ¬ IsEscape s) ∧
    ((∃ d contract path src e src', Contract.valueOf contract path .response (.string d) src = .ok (e, src') ∧
      (OnlyTextBody e s ∨ OnlyTextHeader e s)) ↔ ¬ IsEscape s) := by
  have hdeclared : ¬ IsEscape s → ∃ d, Declares d s := by
    intro h
    obtain ⟨d, hd, hdenotes⟩ := exists_denotes_iff.2 h
    exact ⟨d, declares_of_denotes hd hdenotes⟩
  have hsent : (∃ d src, (materialize .request (.string d) src).1 = .string s) → ¬ IsEscape s := by
    rintro ⟨d, src, hd⟩ h
    exact materialize_request_ne_escape h d src hd
  refine ⟨⟨?_, hdeclared⟩, ⟨hsent, ?_⟩, ⟨?_, ?_⟩⟩
  · rintro ⟨d, hd⟩
    exact hsent ⟨d, .least, congrArg Prod.fst (hd.sent .least)⟩
  · intro h
    obtain ⟨d, hd⟩ := hdeclared h
    exact ⟨d, .least, congrArg Prod.fst (hd.sent .least)⟩
  · rintro ⟨d, contract, path, src, e, src', hload, honly⟩ h
    obtain rfl : (materialize .response (.string d) src).1 = e := congrArg Prod.fst (Except.ok.inj hload)
    rcases honly with honly | honly
    · exact not_onlyTextBody_of_isEscape h d src honly
    · exact not_onlyTextHeader_of_isEscape h d src honly
  · intro h
    obtain ⟨d, hd⟩ := hdeclared h
    obtain ⟨e, hload, hbody, -⟩ := hd.expected "" "" .least
    exact ⟨d, "", "", .least, e, .least, hload, .inl hbody⟩

/-- The text of an escaped wildcard is an escape: it is sent for no string and expected by none. -/
theorem not_declarable_escapedAnyString :
    (¬ ∃ d src, (materialize .request (.string d) src).1 = .string "\\<anyString>") ∧
    ¬ ∃ d contract path src e src', Contract.valueOf contract path .response (.string d) src = .ok (e, src') ∧
      OnlyTextBody e "\\<anyString>" := by
  have h : IsEscape "\\<anyString>" := ⟨"<anyString>", rfl, .inl (isWildcard_label .anyString)⟩
  constructor
  · rintro ⟨d, src, hd⟩
    exact materialize_request_ne_escape h d src hd
  · rintro ⟨d, contract, path, src, e, src', hload, honly⟩
    obtain rfl : (materialize .response (.string d) src).1 = e := congrArg Prod.fst (Except.ok.inj hload)
    exact not_onlyTextBody_of_isEscape h d src honly

end Covenant
