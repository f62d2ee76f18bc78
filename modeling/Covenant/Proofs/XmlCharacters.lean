import Covenant.Proofs.Octets
import Covenant.Proofs.TestSuites

/-!
# The characters of XML documents

A document may hold all characters but most controls and the last two of the basic plane. The controls are dropped
from texts, and these two are not.

* `IsXmlChar`: the characters that documents may hold;
* `IsPlaneEnd`: the last two of the basic plane, `isXmlChar_iff`: no others are left when a text is escaped;
* `allowed_chars_iff`: an element can be written exactly if none of its texts and values has one of the two;
* `junit_allowed_iff`: a report can be written exactly if none of its names and lines has.
-/

namespace Covenant

namespace Xml

/-! ## Characters -/

/-- The characters that a document may hold. -/
def IsXmlChar (c : Char) : Prop :=
  c = '\t' ∨ c = '\n' ∨ c = '\r' ∨ (0x20 ≤ c.toNat ∧ c.toNat ≤ 0xD7FF) ∨
    (0xE000 ≤ c.toNat ∧ c.toNat ≤ 0xFFFD) ∨ (0x10000 ≤ c.toNat ∧ c.toNat ≤ 0x10FFFF)

instance (c : Char) : Decidable (IsXmlChar c) := inferInstanceAs (Decidable (_ ∨ _))

/-- The last two characters of the basic plane. -/
def IsPlaneEnd (c : Char) : Prop := c.toNat = 0xFFFE ∨ c.toNat = 0xFFFF

instance (c : Char) : Decidable (IsPlaneEnd c) := inferInstanceAs (Decidable (_ ∨ _))

theorem isXmlChar_of_isPrintable {c : Char} (h : IsPrintable c) : IsXmlChar c := by
  obtain ⟨hlow, hhigh⟩ := h
  right; right; right; left
  omega

theorem not_isPlaneEnd_of_isPrintable {c : Char} (h : IsPrintable c) : ¬ IsPlaneEnd c := by
  intro hend
  have hhigh := h.2
  rw [IsPlaneEnd] at hend
  omega

/-- What documents may not hold are the characters that are dropped, and the last two of the basic plane. -/
theorem isXmlChar_iff (c : Char) : IsXmlChar c ↔ isDropped c = false ∧ ¬ IsPlaneEnd c := by
  have hvalid : c.toNat < 0xD800 ∨ (0xE000 ≤ c.toNat ∧ c.toNat < 0x110000) := Text.toNat_valid c
  have hdropped : isDropped c = false ↔ 0x20 ≤ c.toNat ∨ c = '\t' ∨ c = '\n' ∨ c = '\r' := by
    simp only [isDropped, Bool.and_eq_false_iff, decide_eq_false_iff_not, Nat.not_lt, bne_eq_false_iff_eq, or_assoc]
  rw [hdropped, IsPlaneEnd, IsXmlChar]
  constructor
  · rintro (rfl | rfl | rfl | h | h | h)
    · decide
    · decide
    · decide
    · omega
    · omega
    · omega
  · rintro ⟨h | rfl | rfl | rfl, hend⟩
    · omega
    · simp
    · simp
    · simp

/-- A text that a document may hold. -/
def Allowed (cs : List Char) : Prop := ∀ c ∈ cs, IsXmlChar c

instance (cs : List Char) : Decidable (Allowed cs) := List.decidableBAll IsXmlChar cs

@[simp] theorem allowed_nil : Allowed [] := nofun

@[simp] theorem allowed_cons {c : Char} {cs : List Char} : Allowed (c :: cs) ↔ IsXmlChar c ∧ Allowed cs :=
  List.forall_mem_cons

@[simp] theorem allowed_append {cs ds : List Char} : Allowed (cs ++ ds) ↔ Allowed cs ∧ Allowed ds :=
  List.forall_mem_append

theorem allowed_flatMap {α : Type} {xs : List α} {f : α → List Char} :
    Allowed (xs.flatMap f) ↔ ∀ x ∈ xs, Allowed (f x) := List.forall_mem_flatMap

/-- An escaped character can be written, unless it is one of the two. -/
theorem allowed_escapeChar_iff (c : Char) : Allowed (escapeChar c) ↔ ¬ IsPlaneEnd c := by
  unfold escapeChar
  split
  · decide
  · decide
  · decide
  · decide
  · decide
  · by_cases hdropped : isDropped c = true
    · have hend : ¬ IsPlaneEnd c := by
        intro hend
        simp only [isDropped, Bool.and_eq_true, decide_eq_true_eq] at hdropped
        rw [IsPlaneEnd] at hend
        omega
      simp [hdropped, hend]
    · simp [hdropped, isXmlChar_iff]

/-- A text without the last two characters of the basic plane. -/
def Fit (s : String) : Prop := ∀ c ∈ s.toList, ¬ IsPlaneEnd c

instance (s : String) : Decidable (Fit s) := List.decidableBAll (fun c => ¬ IsPlaneEnd c) s.toList

theorem fit_append {s t : String} : Fit (s ++ t) ↔ Fit s ∧ Fit t := by
  rw [Fit, String.toList_append]
  exact List.forall_mem_append

theorem fit_of_printable {s : String} (h : Printable s) : Fit s :=
  fun c hc => not_isPlaneEnd_of_isPrintable (h c hc)

theorem allowed_escape_iff (s : String) : Allowed (escape s) ↔ Fit s := by
  simp only [escape, allowed_flatMap, allowed_escapeChar_iff, Fit]

/-! ## Elements -/

/-- Names have characters that can be written. -/
theorem isXmlChar_of_isNameChar {c : Char} (h : isNameChar c = true) : IsXmlChar c := by
  have hrange : 0x20 ≤ c.toNat ∧ c.toNat < 0x7F := by
    unfold isNameChar Char.isAlphanum Char.isAlpha Char.isUpper Char.isLower Char.isDigit at h
    simp only [Bool.or_eq_true, Bool.and_eq_true, decide_eq_true_eq] at h
    rcases h with (((((h | h) | h) | rfl) | rfl) | rfl) | rfl
    · exact ⟨Nat.le_trans (by decide) h.1, Nat.lt_of_le_of_lt h.2 (by decide)⟩
    · exact ⟨Nat.le_trans (by decide) h.1, Nat.lt_of_le_of_lt h.2 (by decide)⟩
    · exact ⟨Nat.le_trans (by decide) h.1, Nat.lt_of_le_of_lt h.2 (by decide)⟩
    · decide
    · decide
    · decide
    · decide
  exact isXmlChar_of_isPrintable hrange

theorem allowed_name {s : String} (h : IsName s) : Allowed s.toList :=
  fun c hc => isXmlChar_of_isNameChar (h.2 c hc)

theorem allowed_margin (level : Nat) : Allowed (margin level) := by
  intro c hc
  rw [List.eq_of_mem_replicate hc]
  decide

mutual
/-- The texts and values of an element. -/
def Element.texts : Element → List String
  | .empty _ attributes => attributes.map Attribute.value
  | .text _ attributes content => attributes.map Attribute.value ++ [content]
  | .parent _ attributes children => attributes.map Attribute.value ++ childrenTexts children
/-- The texts and values of several elements. -/
def childrenTexts : List Element → List String
  | [] => []
  | e :: es => e.texts ++ childrenTexts es
end

theorem childrenTexts_eq_flatMap (es : List Element) : childrenTexts es = es.flatMap Element.texts := by
  induction es with
  | nil => rfl
  | cons e es ih => rw [childrenTexts, ih, List.flatMap_cons]

/-- The marks of tags can be written. -/
theorem allowed_marks : IsXmlChar ' ' ∧ IsXmlChar '\n' ∧ IsXmlChar '<' ∧ IsXmlChar '>' ∧ IsXmlChar '/' ∧ IsXmlChar '=' ∧
    IsXmlChar '\x22' := by
  decide

theorem allowed_attribute_iff {a : Attribute} (h : IsName a.name) : Allowed a.chars ↔ Fit a.value := by
  simp [Attribute.chars, allowed_marks, allowed_name h, allowed_escape_iff]

theorem allowed_tag_iff {name : String} {as : List Attribute} (h : WellTagged name (as.map Attribute.name)) :
    Allowed (tag name as) ↔ ∀ s ∈ as.map Attribute.value, Fit s := by
  have hattributes : (∀ a ∈ as, Allowed a.chars) ↔ ∀ a ∈ as, Fit a.value :=
    forall₂_congr fun a ha => allowed_attribute_iff (h.attributes a.name (List.mem_map_of_mem ha))
  simp only [tag, allowed_cons, allowed_append, allowed_marks, allowed_name h.name, allowed_flatMap, hattributes,
    List.forall_mem_map, true_and]

theorem allowed_endTag {name : String} (h : IsName name) : Allowed (endTag name) := by
  simp [endTag, allowed_marks, allowed_name h]

/-- Elements can be written if each of them can. -/
theorem allowed_childrenChars_iff {level : Nat} {es : List Element} :
    Allowed (childrenChars level es) ↔ ∀ e ∈ es, Allowed (e.chars level) := by
  induction es with
  | nil => simp [childrenChars]
  | cons e es ih => simp [childrenChars, ih]

/-- An element can be written exactly if all its texts and values are fit. -/
theorem allowed_chars_iff {e : Element} (h : WellNamed e) (level : Nat) :
    Allowed (e.chars level) ↔ ∀ s ∈ e.texts, Fit s := by
  induction h generalizing level with
  | empty htagged =>
    simp [Element.chars, Element.texts, allowed_marks, allowed_margin, allowed_tag_iff htagged]
  | text content htagged =>
    simp [Element.chars, Element.texts, allowed_marks, allowed_margin, allowed_tag_iff htagged,
      allowed_endTag htagged.name, allowed_escape_iff, or_imp, forall_and]
  | @parent name as children htagged hchildren ih =>
    have hinside : (∀ e ∈ children, Allowed (e.chars (level + 1))) ↔ ∀ e ∈ children, ∀ s ∈ e.texts, Fit s :=
      forall₂_congr fun e he => ih e he (level + 1)
    rw [Element.texts, childrenTexts_eq_flatMap, List.forall_mem_append, List.forall_mem_flatMap, ← hinside]
    simp [Element.chars, allowed_marks, allowed_margin, allowed_tag_iff htagged, allowed_endTag htagged.name,
      allowed_childrenChars_iff]

theorem allowed_document_iff {e : Element} (h : WellNamed e) :
    Allowed (document e).toList ↔ ∀ s ∈ e.texts, Fit s := by
  have hdeclaration : Allowed declaration.toList := by decide +kernel
  rw [document, String.toList_ofList, allowed_append, allowed_chars_iff h]
  exact and_iff_right hdeclaration

end Xml

/-! ## Reports -/

namespace RunReport

open Xml

/-- The characters of a text of several lines are those of the lines. -/
theorem fit_lines_iff (lines : List String) : Fit ("\n".intercalate lines) ↔ ∀ l ∈ lines, Fit l := by
  have hnewline : Fit "\n" := by decide
  induction lines with
  | nil =>
    simp [Fit]
  | cons l ls ih =>
    cases ls with
    | nil => simp
    | cons m ls =>
      have hrest : Fit ("\n".intercalate (m :: ls)) ↔ ∀ l ∈ m :: ls, Fit l := ih
      rw [String.intercalate_cons_cons, fit_append, fit_append, hrest]
      simp only [hnewline, and_true, List.forall_mem_cons]

/-- The texts of a test case are fit exactly if the name is, and the lines of an outcome that fails. -/
theorem fit_testCase_iff (o : Outcome) :
    (∀ s ∈ (testCase o).texts, Fit s) ↔ Fit o.name ∧ (o.verdict = .fail → ∀ l ∈ o.lines, Fit l) := by
  have htime := fit_of_printable (printable_secondsText o.durationMs)
  have hclass : Fit "contracts" := by decide
  cases hv : o.verdict with
  | pass => simp [testCase, hv, Element.texts, htime, hclass]
  | fail =>
    have hmessage : (∀ l ∈ o.lines, Fit l) → Fit (o.lines.head?.getD "failed") := by
      intro h
      cases hlines : o.lines with
      | nil => decide
      | cons l ls => exact h l (by simp [hlines])
    simp only [testCase, hv, Element.texts, childrenTexts, List.map_cons, List.map_nil, List.append_nil,
      List.forall_mem_append, List.forall_mem_cons, List.not_mem_nil, IsEmpty.forall_iff, implies_true, htime, hclass,
      fit_lines_iff, and_true, forall_const]
    exact and_congr_right fun _ => and_iff_right_of_imp hmessage

/-- A report can be written exactly if the last two characters of the basic plane are in no name and in no line of
an outcome that fails. -/
theorem junit_allowed_iff (r : RunReport) (color : Bool) :
    (∀ c ∈ (r.render color .junit).toList, IsXmlChar c) ↔
      ∀ o ∈ r.summary.outcomes, Fit o.name ∧ (o.verdict = .fail → ∀ l ∈ o.lines, Fit l) := by
  have htotal := fit_of_printable (printable_wordText r.summary.total)
  have hfailed := fit_of_printable (printable_wordText r.summary.failed)
  have htime := fit_of_printable (printable_secondsText r.summary.durationMs)
  have hstamp := fit_of_printable (printable_timestamp r.generatedAt)
  obtain ⟨hsuites, hsuite, hzero⟩ : Fit "contract-verify" ∧ Fit "contracts" ∧ Fit "0" := by decide
  have hcases : (∀ s ∈ (r.summary.outcomes.map testCase).flatMap Element.texts, Fit s) ↔
      ∀ o ∈ r.summary.outcomes, Fit o.name ∧ (o.verdict = .fail → ∀ l ∈ o.lines, Fit l) := by
    rw [List.forall_mem_flatMap, List.forall_mem_map]
    exact forall₂_congr fun o _ => fit_testCase_iff o
  have htexts : (∀ s ∈ r.testSuites.texts, Fit s) ↔
      ∀ s ∈ (r.summary.outcomes.map testCase).flatMap Element.texts, Fit s := by
    simp only [testSuites, Element.texts, childrenTexts, childrenTexts_eq_flatMap, List.map_cons, List.map_nil,
      List.append_nil, List.cons_append, List.nil_append, List.forall_mem_cons, htotal, hfailed, htime, hstamp,
      hsuites, hsuite, hzero, true_and]
  exact (allowed_document_iff r.wellNamed_testSuites).trans (htexts.trans hcases)

/-- Such a character comes through into the document, which may not hold it. -/
theorem not_junit_allowed_planeEnd :
    ¬ ∀ c ∈ ((RunReport.mk (.ofOutcomes [.pass "\uffff" 0] 0) ⟨0, 0⟩).render false .junit).toList, IsXmlChar c := by
  intro h
  have hfit : Fit "\uffff" := by
    apply (allowed_document_iff (wellNamed_testSuites _)).1 h
    simp [testSuites, Element.texts, childrenTexts, Summary.ofOutcomes, Outcome.pass, testCase]
  exact absurd hfit (by decide)

end RunReport

end Covenant
