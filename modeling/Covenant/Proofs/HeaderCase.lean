import Covenant.Exchange.Message
import Covenant.Proofs.Findings
import Mathlib.Data.List.Find

/-!
# The case of header names

Received header names have no upper-case letter, and declared ones may have. Names are compared as they are or
in lower case, and the second way finds a received header for every declared one that the first way finds one
for.

* `IsLower`: a text without an upper-case letter, `lowerText_eq_self_iff`: which texts these are;
* `Received.inLowerCase_of_ofOctets`: the names of the headers in what a service sends;
* `headerViolation?_of_isLower`, `headerViolation?_of_not_isLower`: the violation of a declared header, by whether
  its own name has an upper-case letter;
* `validate_ignoring_case`: nothing is found in lower case that is not found otherwise.
-/

namespace Covenant

open Covenant.Text

/-! ## Texts in lower case -/

/-- A text without an upper-case letter of ASCII. -/
def IsLower (s : String) : Prop := ∀ c ∈ s.toList, ¬ ('A' ≤ c ∧ c ≤ 'Z')

instance (s : String) : Decidable (IsLower s) := List.decidableBAll (fun c => ¬ ('A' ≤ c ∧ c ≤ 'Z')) s.toList

theorem lowerAscii_eq_self_iff {c : Char} : lowerAscii c = c ↔ ¬ ('A' ≤ c ∧ c ≤ 'Z') := by
  constructor
  · intro h hupper
    have hvalue := toNat_lowerAscii hupper
    rw [h] at hvalue
    omega
  · intro h
    exact if_neg h

theorem not_upper_lowerAscii (c : Char) : ¬ ('A' ≤ lowerAscii c ∧ lowerAscii c ≤ 'Z') := by
  by_cases hupper : 'A' ≤ c ∧ c ≤ 'Z'
  · intro h
    have hge : 65 ≤ c.toNat := hupper.1
    have hle : (lowerAscii c).toNat ≤ 90 := h.2
    rw [toNat_lowerAscii hupper] at hle
    omega
  · rw [lowerAscii_eq_self_iff.2 hupper]
    exact hupper

theorem isLower_lowerText (s : String) : IsLower (lowerText s) := by
  intro c hc
  rw [lowerText, String.toList_ofList] at hc
  obtain ⟨d, -, rfl⟩ := List.mem_map.1 hc
  exact not_upper_lowerAscii d

theorem lowerText_eq_self_iff {s : String} : lowerText s = s ↔ IsLower s := by
  constructor
  · intro h
    rw [← h]
    exact isLower_lowerText s
  · intro h
    have hself : s.toList.map lowerAscii = s.toList.map id :=
      List.map_congr_left fun c hc => lowerAscii_eq_self_iff.2 (h c hc)
    rw [lowerText, hself, List.map_id, String.ofList_toList]

/-! ## Received names -/

/-- A reply none of whose header names has an upper-case letter. -/
def Reply.InLowerCase (a : Reply) : Prop := ∀ h ∈ a.headers, IsLower h.1

instance (a : Reply) : Decidable a.InLowerCase := inferInstanceAs (Decidable (∀ h ∈ a.headers, IsLower h.1))

theorem isLower_of_headerOfLine? {line : List Char} {h : String × String} (hread : headerOfLine? line = some h) :
    IsLower h.1 := by
  obtain ⟨⟨name, value⟩, -, rfl⟩ := Option.map_eq_some_iff.1 hread
  exact isLower_lowerText (String.ofList name)

/-- What a service sends is read into a response without upper-case letters there. -/
theorem Received.inLowerCase_of_ofOctets {isHead : Bool} {octets : List UInt8} {r : Received}
    (hread : ofOctets isHead octets = .ok r) : r.reply.InLowerCase := by
  fun_induction ofOctets isHead octets with
  | case1 | case2 | case3 | case6 => cases hread
  | case4 octets head rest hhead lines first rest' hlines status hstatus hinterim ih => exact ih hread
  | case5 octets head rest hhead lines first rest' hlines status hstatus hfinal received body hbody =>
    cases hread
    intro h hh
    obtain ⟨line, -, hline⟩ := List.mem_filterMap.1 hh
    exact isLower_of_headerOfLine? hline

/-! ## Declared names -/

section Declared

variable {a : Reply} (ha : a.InLowerCase) {name : String}

/-- A name without upper-case letters is another one in lower case exactly if it is its lower case. -/
theorem sameName_ignoring_iff {m n : String} (hm : IsLower m) : SameName true m n ↔ m = lowerText n := by
  show sameIgnoringCase m n = true ↔ m = lowerText n
  rw [sameIgnoringCase, lowerText_eq_self_iff.2 hm, beq_iff_eq]

include ha in
/-- In lower case a header is received under the lower case of its name. -/
theorem receivedHeader?_ignoring (name : String) :
    receivedHeader? a true name = receivedHeader? a false (lowerText name) := by
  rw [receivedHeader?_eq, receivedHeader?_eq]
  congr 1
  apply List.find?_congr
  intro h hh
  exact decide_eq_decide.2 (sameName_ignoring_iff (ha h hh))

include ha in
/-- As they are, names with an upper-case letter are not received. -/
theorem receivedHeader?_of_not_isLower (hname : ¬ IsLower name) : receivedHeader? a false name = none := by
  rw [receivedHeader?_eq_none_iff]
  intro h hh hsame
  have heq : h.1 = name := hsame
  exact hname (heq ▸ ha h hh)

variable {entry : NamedValue}

include ha in
/-- A declared header whose name has no upper-case letter is judged in the same way. -/
theorem headerViolation?_of_isLower (hname : IsLower entry.name) :
    headerViolation? a true entry = headerViolation? a false entry := by
  rw [headerViolation?, headerViolation?, receivedHeader?_ignoring ha, lowerText_eq_self_iff.2 hname]

include ha in
/-- One whose name has an upper-case letter is missing, unless case is ignored. -/
theorem headerViolation?_of_not_isLower (hname : ¬ IsLower entry.name) :
    headerViolation? a false entry = some ⟨"header '" ++ entry.name ++ "'", entry.value, .missing⟩ := by
  rw [headerViolation?, receivedHeader?_of_not_isLower ha hname]

/-- The violation of a declared header names it. -/
theorem key_of_headerViolation? {ignoreCase : Bool} {v : Violation}
    (h : headerViolation? a ignoreCase entry = some v) : v.key = "header '" ++ entry.name ++ "'" := by
  cases unmetHeader_of_headerViolation? h with
  | missing => rfl
  | refused => rfl

include ha in
/-- What is wrong with a declared header in lower case is wrong as well if case counts. -/
theorem key_mem_of_headerViolation? {v : Violation} (h : headerViolation? a true entry = some v) :
    ∃ w, headerViolation? a false entry = some w ∧ w.key = v.key := by
  by_cases hname : IsLower entry.name
  · rw [headerViolation?_of_isLower ha hname] at h
    exact ⟨v, h, rfl⟩
  · exact ⟨_, headerViolation?_of_not_isLower ha hname, (key_of_headerViolation? h).symm⟩

end Declared

/-- What a partial function keeps of a list is part of what another one keeps, as far as keys tell, if the other
one keeps every item of it under the same key. -/
theorem map_filterMap_sublist {α β γ : Type} {f g : α → Option β} {key : β → γ}
    (h : ∀ x y, f x = some y → ∃ z, g x = some z ∧ key z = key y) (xs : List α) :
    ((xs.filterMap f).map key).Sublist ((xs.filterMap g).map key) := by
  induction xs with
  | nil => exact .slnil
  | cons x xs ih =>
    cases hf : f x with
    | some y =>
      obtain ⟨z, hg, hkey⟩ := h x y hf
      rw [List.filterMap_cons_some hf, List.filterMap_cons_some hg, List.map_cons, List.map_cons, hkey]
      exact ih.cons_cons (key y)
    | none =>
      rw [List.filterMap_cons_none hf]
      cases hg : g x with
      | none =>
        rw [List.filterMap_cons_none hg]
        exact ih
      | some z =>
        rw [List.filterMap_cons_some hg]
        exact ih.cons (key z)

/-! ## The report -/

/-- If received names have no upper-case letter, then whatever is found wrong while case is ignored is found wrong
in the same order while it counts, and a reply that is right while it counts stays so. The names in all that a
service sends are of this kind. -/
theorem validate_ignoring_case (e : Expectation) {a : Reply} (ha : a.InLowerCase) (maxDepth : Nat) :
    ((validate e a ⟨true, maxDepth⟩).violations.map Violation.key).Sublist
      ((validate e a ⟨false, maxDepth⟩).violations.map Violation.key) ∧
    ((validate e a ⟨false, maxDepth⟩).hasViolations = false →
      (validate e a ⟨true, maxDepth⟩).hasViolations = false) ∧
    ∀ isHead octets received, Received.ofOctets isHead octets = .ok received → received.reply.InLowerCase := by
  have hbody : bodyFindings e a ⟨true, maxDepth⟩ = bodyFindings e a ⟨false, maxDepth⟩ :=
    bodyFindings_congr rfl rfl rfl rfl rfl
  have hheaders : ((headerFindings e a ⟨true, maxDepth⟩).map Violation.key).Sublist
      ((headerFindings e a ⟨false, maxDepth⟩).map Violation.key) := by
    rw [headerFindings_eq, headerFindings_eq]
    exact map_filterMap_sublist (fun _ _ => key_mem_of_headerViolation? ha) _
  have hkeys : ((validate e a ⟨true, maxDepth⟩).violations.map Violation.key).Sublist
      ((validate e a ⟨false, maxDepth⟩).violations.map Violation.key) := by
    rw [validate_violations, validate_violations, List.map_append, List.map_append, hbody]
    exact hheaders.append_left _
  refine ⟨hkeys, ?_, fun isHead octets received => Received.inLowerCase_of_ofOctets⟩
  intro hclean
  have hnone : (validate e a ⟨false, maxDepth⟩).violations = [] := by
    simpa [Report.hasViolations] using hclean
  rw [hnone, List.map_nil, List.sublist_nil, List.map_eq_nil_iff] at hkeys
  simpa [Report.hasViolations] using hkeys

/-- A name with upper-case letters and one without, of which the second has a value that is refused. -/
theorem validate_ignoring_case_requestId :
    let e : Expectation := ⟨200, some [⟨"X-Request-Id", .string "<anyString>"⟩, ⟨"etag", .string "a"⟩], none⟩
    let a : Reply := ⟨200, [("x-request-id", "7"), ("etag", "b")], .null⟩
    a.InLowerCase ∧
      (validate e a ⟨false, 128⟩).violations.map Violation.key = ["header 'X-Request-Id'", "header 'etag'"] ∧
      (validate e a ⟨true, 128⟩).violations.map Violation.key = ["header 'etag'"] ∧
      ["header 'etag'"].Sublist ["header 'X-Request-Id'", "header 'etag'"] := by
  intro e a
  have ha : a.InLowerCase := by decide +kernel
  have hcounts : (validate e a ⟨false, 128⟩).violations.map Violation.key =
      ["header 'X-Request-Id'", "header 'etag'"] := by decide +kernel
  have hignored : (validate e a ⟨true, 128⟩).violations.map Violation.key = ["header 'etag'"] := by decide +kernel
  obtain ⟨hkeys, -⟩ := validate_ignoring_case e ha 128
  rw [hcounts, hignored] at hkeys
  exact ⟨ha, hcounts, hignored, hkeys⟩

end Covenant
