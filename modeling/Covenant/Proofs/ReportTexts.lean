import Covenant.Proofs.Numerals
import Covenant.RunReport.Junit

/-!
# Numbers and times in reports

The texts that a report makes itself hold printable characters of ASCII only.

* `Printable`: a text of such characters;
* `printable_wordText`, `printable_secondsText`, `printable_timestamp`: counts, durations and points in time are;
* `naturalOf?_wordText`: a count is read back from its text.
-/

namespace Covenant

open Decimal

/-- A printable character of ASCII. -/
def IsPrintable (c : Char) : Prop := 0x20 ≤ c.toNat ∧ c.toNat < 0x7F

instance (c : Char) : Decidable (IsPrintable c) := inferInstanceAs (Decidable (_ ∧ _))

/-- A text of printable characters of ASCII. -/
def Printable (s : String) : Prop := ∀ c ∈ s.toList, IsPrintable c

instance (s : String) : Decidable (Printable s) := List.decidableBAll IsPrintable s.toList

theorem isPrintable_of_mem_digits {c : Char} {n : Nat} (h : c ∈ digits n) : IsPrintable c := by
  have hdigit := isDigit_of_mem_digits h
  simp only [Char.isDigit, Bool.and_eq_true, decide_eq_true_eq] at hdigit
  have hlow : 48 ≤ c.toNat := hdigit.1
  have hhigh : c.toNat ≤ 57 := hdigit.2
  constructor <;> omega

theorem isPrintable_of_mem_padded {c : Char} {width n : Nat} (h : c ∈ Timestamp.padded width n) :
    IsPrintable c := by
  rcases List.mem_append.1 h with hzero | hdigit
  · rw [List.eq_of_mem_replicate hzero]
    decide
  · exact isPrintable_of_mem_digits hdigit

theorem isPrintable_of_mem_yearText {c : Char} {year : Int} (h : c ∈ Timestamp.yearText year) :
    IsPrintable c := by
  rw [Timestamp.yearText] at h
  split at h
  · exact isPrintable_of_mem_padded h
  · rcases List.mem_cons.1 h with rfl | hyear
    · split <;> decide
    · exact isPrintable_of_mem_padded hyear

/-! ## Texts of a report -/

theorem printable_wordText (n : UInt64) : Printable (RunReport.wordText n) := by
  intro c hc
  rw [RunReport.wordText, ofNat, String.toList_ofList] at hc
  exact isPrintable_of_mem_digits hc

theorem printable_secondsText (ms : UInt64) : Printable (RunReport.secondsText ms) := by
  intro c hc
  rw [RunReport.secondsText, String.toList_ofList] at hc
  rcases List.mem_append.1 hc with hwhole | hrest
  · exact isPrintable_of_mem_digits hwhole
  · rcases List.mem_cons.1 hrest with rfl | hfraction
    · decide
    · exact isPrintable_of_mem_padded hfraction

theorem printable_timestamp (t : Timestamp) : Printable t.secondsText := by
  have hyear : ∀ year, ∀ c ∈ Timestamp.yearText year, IsPrintable c := fun _ _ => isPrintable_of_mem_yearText
  have hpadded : ∀ width n, ∀ c ∈ Timestamp.padded width n, IsPrintable c := fun _ _ _ => isPrintable_of_mem_padded
  obtain ⟨hdash, hmark, hcolon⟩ : IsPrintable '-' ∧ IsPrintable 'T' ∧ IsPrintable ':' := by decide
  rw [Printable, Timestamp.secondsText, String.toList_ofList, Timestamp.secondsChars]
  simp only [List.forall_mem_append, List.forall_mem_cons]
  exact ⟨⟨⟨⟨⟨hyear _, hdash, hpadded _ _⟩, hdash, hpadded _ _⟩, hmark, hpadded _ _⟩, hcolon, hpadded _ _⟩, hcolon,
    hpadded _ _⟩

/-! ## Reading counts -/

/-- A count is read back from its text. -/
theorem naturalOf?_wordText (n : UInt64) : naturalOf? (RunReport.wordText n).toList = some n.toNat := by
  rw [RunReport.wordText, ofNat, String.toList_ofList]
  exact naturalOf?_eq_some_iff.2 (digits_digits n.toNat)

end Covenant
