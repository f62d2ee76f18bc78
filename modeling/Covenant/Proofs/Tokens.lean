import Covenant.Placeholder.Materialize

/-!
# Tokens and escapes

What a declared string becomes when it is loaded, and which strings are left as they are.

* `ofJson?_eq_some_iff`: the values that are wildcards;
* `IsToken`, `escaped?_eq_some_iff`: a complete token, and the escape of one;
* `Plain`: a text without the brackets and backslashes that tokens and escapes start with;
* `Generator.generate_plain`: what a generator token becomes is no string, or a plain one;
* `Inert`: a string that loading leaves as it is in a role;
* `materializeText_eq_self`, `inert_of_materializeText`: exactly these strings are left.
-/

namespace Covenant

/-! ## Wildcards -/

theorem ofJson?_eq_some_iff {e : Json} {w : Wildcard} :
    Wildcard.ofJson? e = some w ↔ e = .string w.label := by
  cases e <;> simp [Wildcard.ofJson?, Wildcard.parse?_eq_some_iff]

theorem ofJson?_eq_none_iff {e : Json} :
    Wildcard.ofJson? e = none ↔ ∀ w : Wildcard, e ≠ .string w.label := by
  simp [Option.eq_none_iff_forall_ne_some, ofJson?_eq_some_iff]

theorem Wildcard.label_injective {v w : Wildcard} (h : v.label = w.label) : v = w := by
  have hparse := Wildcard.parse?_eq_some_iff.2 h
  rw [Wildcard.parse?_eq_some_iff.2 rfl] at hparse
  exact Option.some.inj hparse

/-! ## Escapes -/

/-- A complete token of either family. -/
def IsToken (t : String) : Prop := isWildcard t = true ∨ isGenerator t = true

instance (t : String) : Decidable (IsToken t) := inferInstanceAs (Decidable (_ ∨ _))

theorem toList_eq_backslash_cons_iff {s : String} {cs : List Char} :
    s.toList = '\\' :: cs ↔ s = "\\" ++ String.ofList cs := by
  rw [← String.toList_inj]
  simp

/-- An escape is a backslash in front of a token. -/
theorem escaped?_eq_some_iff {s t : String} : escaped? s = some t ↔ s = "\\" ++ t ∧ IsToken t := by
  rw [escaped?]
  split
  · rename_i cs hs
    have hs := toList_eq_backslash_cons_iff.1 hs
    have hkind : (isWildcard (String.ofList cs) || isGenerator (String.ofList cs)) = true ↔
        IsToken (String.ofList cs) := Bool.or_eq_true_iff
    constructor
    · intro h
      simp only [hkind, Option.ite_none_right_eq_some, Option.some.injEq] at h
      obtain ⟨htoken, rfl⟩ := h
      exact ⟨hs, htoken⟩
    · rintro ⟨heq, htoken⟩
      have ht : String.ofList cs = t := (String.append_right_inj "\\").1 (hs.symm.trans heq)
      rw [ht] at hkind ⊢
      simp only [hkind.2 htoken, if_true]
  · rename_i hno
    constructor
    · intro h
      cases h
    · rintro ⟨rfl, -⟩
      exact absurd (by rw [String.toList_append]; rfl) (hno t.toList)

/-- A string is an escape, or no token stands behind a backslash in it. -/
theorem escaped?_cases (s : String) :
    (∃ t, escaped? s = some t ∧ s = "\\" ++ t ∧ IsToken t) ∨
      (escaped? s = none ∧ ∀ t, IsToken t → s ≠ "\\" ++ t) := by
  cases h : escaped? s with
  | some t => exact .inl ⟨t, rfl, escaped?_eq_some_iff.1 h⟩
  | none =>
    refine .inr ⟨rfl, fun t ht hs => ?_⟩
    rw [escaped?_eq_some_iff.2 ⟨hs, ht⟩] at h
    cases h

/-- An escape is no wildcard. -/
theorem escape_ne_label (t : String) (w : Wildcard) : "\\" ++ t ≠ w.label := by
  intro h
  have hhead := congrArg (List.head? ∘ String.toList) h
  cases w <;> simp [Wildcard.label] at hhead

/-- The two families of tokens have no member in common. -/
theorem isGenerator_eq_false_of_isWildcard {t : String} (h : isWildcard t = true) :
    isGenerator t = false := by
  obtain ⟨w, hw⟩ := Option.isSome_iff_exists.1 h
  rw [Wildcard.parse?_eq_some_iff.1 hw]
  cases w <;> decide

/-! ## Generated values -/

/-- A text that starts like no token and no escape. -/
def Plain (t : String) : Prop := t.toList.head? ≠ some '<' ∧ t.toList.head? ≠ some '\\'

theorem head?_of_isGenerator {t : String} (h : isGenerator t = true) : t.toList.head? = some '<' := by
  obtain ⟨g, hg⟩ := Option.isSome_iff_exists.1 h
  obtain ⟨body, hbody, -⟩ := Option.bind_eq_some_iff.1 hg
  rw [Generator.body?] at hbody
  split at hbody
  · rename_i hopen
    obtain ⟨rest, hrest⟩ := List.isPrefixOf_iff_prefix.1 hopen
    rw [← hrest]
    rfl
  · cases hbody

theorem Plain.isGenerator_eq_false {t : String} (h : Plain t) : isGenerator t = false :=
  Bool.eq_false_iff.2 fun hg => h.1 (head?_of_isGenerator hg)

theorem Plain.ne_backslash {t : String} (h : Plain t) (u : String) : t ≠ "\\" ++ u := by
  rintro rfl
  exact h.2 (by rw [String.toList_append]; rfl)

theorem plain_of_head {cs : List Char} (h : ∀ c, cs.head? = some c → c ≠ '<' ∧ c ≠ '\\') :
    Plain (String.ofList cs) := by
  rw [Plain, String.toList_ofList]
  exact ⟨fun heq => (h _ heq).1 rfl, fun heq => (h _ heq).2 rfl⟩

/-- The items of a list that differ from two characters, a default that does so as well. -/
theorem getD_ne {cs : List Char} {d : Char} (h : '<' ∉ d :: cs ∧ '\\' ∉ d :: cs) (i : Nat) :
    cs.getD i d ≠ '<' ∧ cs.getD i d ≠ '\\' := by
  have hmem : cs.getD i d ∈ d :: cs := by
    rw [List.getD_eq_getElem?_getD]
    cases hi : cs[i]? with
    | none => exact List.mem_cons_self
    | some c => exact List.mem_cons_of_mem d (List.mem_of_getElem? hi)
  exact ⟨fun heq => h.1 (heq ▸ hmem), fun heq => h.2 (heq ▸ hmem)⟩

namespace Generator

theorem generate_plain {g : Generator} {s : Source} {t : String} (h : (g.generate s).1 = .string t) :
    Plain t := by
  cases g with
  | string n hn =>
    cases n with
    | zero =>
      cases h
      exact plain_of_head fun c hc => by cases hc
    | succ n =>
      cases h
      refine plain_of_head fun c hc => ?_
      cases hc
      exact getD_ne (by decide) _
  | number b => cases h
  | bool => cases h
  | uuid =>
    cases h
    refine plain_of_head fun c hc => ?_
    cases hc
    exact getD_ne (by decide) _

end Generator

/-! ## Strings that loading leaves as they are -/

/-- A string that stands for itself in a role: it is no generator token, and no escape that loading
removes. -/
def Inert (role : Role) (t : String) : Prop :=
  isGenerator t = false ∧
    ∀ u, t = "\\" ++ u → match role with
      | .request => ¬ IsToken u
      | .response => isGenerator u = false

theorem materializeText_eq_self {role : Role} {t : String} (h : Inert role t) (s : Source) :
    materializeText role t s = (.string t, s) := by
  have hgen : Generator.parse? t = none := by simpa [isGenerator] using h.1
  rw [materializeText, hgen]
  cases hesc : escaped? t with
  | none => rfl
  | some u =>
    obtain ⟨rfl, htoken⟩ := escaped?_eq_some_iff.1 hesc
    have hu := h.2 u rfl
    cases role with
    | request => exact absurd htoken hu
    | response =>
      have hwild : isWildcard u = true := htoken.resolve_right (by simp [hu])
      simp only [hwild, and_self, if_true]
      rfl

theorem inert_of_materializeText {role : Role} {t : String} {s : Source}
    (h : (materializeText role t s).1 = .string t) : Inert role t := by
  rw [materializeText] at h
  cases hgen : Generator.parse? t with
  | some g =>
    -- A generated text is plain, and a token is not.
    rw [hgen] at h
    have hfalse := (Generator.generate_plain h).isGenerator_eq_false
    rw [isGenerator, hgen] at hfalse
    cases hfalse
  | none =>
    rw [hgen] at h
    refine ⟨by simp [isGenerator, hgen], ?_⟩
    rintro u rfl
    by_cases htoken : IsToken u
    · rw [escaped?_eq_some_iff.2 ⟨rfl, htoken⟩] at h
      have htext : (if role = .response ∧ isWildcard u = true then "\\" ++ u else u) = "\\" ++ u :=
        Json.string.inj h
      split at htext
      · rename_i hkept
        rw [hkept.1]
        exact isGenerator_eq_false_of_isWildcard hkept.2
      · have hlen := congrArg (List.length ∘ String.toList) htext
        simp at hlen
    · cases role with
      | request => exact htoken
      | response => exact Bool.eq_false_iff.2 fun hg => htoken (.inr hg)

end Covenant
