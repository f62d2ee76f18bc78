import Covenant.Proofs.Conformance
import Covenant.Proofs.DepthLimit
import Covenant.Proofs.Mismatches
import Covenant.Proofs.Resolving

/-!
# A tree compared with itself

A tree accepts itself unless one of its strings stands for something else than its own text.

* `SpeaksOfItself`: a string that, expected, accepts its own text;
* `conforms_self_iff`: a tree accepts itself exactly if all of its strings do;
* `Json.within_iff_reachedTogether_self`: a tree and itself reach all places of the tree together;
* `compare_self_iff`: when a comparison of a tree with itself finds nothing.
-/

namespace Covenant

/-- A string that accepts its own text where it is expected: no wildcard of another kind than its own, and no
escape, which accepts only the token behind the backslash. -/
def SpeaksOfItself (s : String) : Prop :=
  s ≠ "<anyNumber>" ∧ s ≠ "<anyBool>" ∧ ∀ t, IsToken t → s ≠ "\\" ++ t

theorem meets_self_string_iff {s : String} : meets (.string s) (.string s) = true ↔ SpeaksOfItself s := by
  by_cases hwild : ∃ w : Wildcard, s = w.label
  · obtain ⟨w, rfl⟩ := hwild
    have hescape : ∀ t, IsToken t → w.label ≠ "\\" ++ t := fun t _ h => escape_ne_label t w h.symm
    rw [meets_wildcard, SpeaksOfItself, and_iff_left hescape]
    cases w <;> decide
  · have hno : ∀ w : Wildcard, Json.string s ≠ .string w.label := by
      intro w hw
      exact hwild ⟨w, Json.string.inj hw⟩
    rw [meets_leaf hno]
    constructor
    · intro hleaf
      refine ⟨?_, ?_, ?_⟩
      · rintro rfl
        exact hwild ⟨.anyNumber, rfl⟩
      · rintro rfl
        exact hwild ⟨.anyBool, rfl⟩
      · intro t ht
        rintro rfl
        have hmatch := leafMatches_iff.2 hleaf
        -- The escape accepts the token, which is shorter by the backslash.
        rw [leafMatches, escaped?_eq_some_iff.2 ⟨rfl, ht⟩, Option.getD_some, beq_iff_eq] at hmatch
        have hlength := congrArg (List.length ∘ String.toList) hmatch
        simp at hlength
    · intro hself
      exact .text hself.2.2

/-- A value that is neither a container nor a string accepts itself. -/
theorem meets_self_of_kind {v : Json} (hstring : v.kind ≠ .string) (harray : v.kind ≠ .array)
    (hobject : v.kind ≠ .object) : meets v v = true := by
  cases v with
  | null => rfl
  | bool b => exact beq_self_eq_true b
  | number n => exact n.same_self
  | string s => exact absurd rfl hstring
  | array items => exact absurd rfl harray
  | object fields => exact absurd rfl hobject

theorem alike_self {v : Json} (h : v.kind = .object ∨ v.kind = .array) : Alike v v := by
  cases v with
  | object fields => exact .objects fields fields
  | array items => exact .arrays items items
  | _ => rcases h with h | h <;> cases h

/-- A tree accepts itself exactly if each of its strings does. -/
theorem conforms_self_iff {v : Json} (h : v.DistinctKeys) :
    Conforms v v ↔ ∀ s, v.HasText s → SpeaksOfItself s := by
  induction v using Json.child_induction with
  | step v ih =>
    by_cases hcontainer : v.kind = .object ∨ v.kind = .array
    · rw [conforms_iff_of_alike (alike_self hcontainer)]
      constructor
      · intro hchildren s hs
        cases hs with
        | here s => rcases hcontainer with hkind | hkind <;> cases hkind
        | child hc hs =>
          obtain ⟨y, hy, hconf⟩ := hchildren _ hc
          rw [h.next?_eq_some_iff.2 hc] at hy
          cases hy
          exact (ih _ hc (h.child hc)).1 hconf s hs
      · intro htexts c hc
        refine ⟨c.2, h.next?_eq_some_iff.2 hc, (ih c hc (h.child hc)).2 fun s hs => ?_⟩
        exact htexts s (.child hc hs)
    · have halike : ¬ Alike v v := fun halike => hcontainer halike.kind.2
      rw [conforms_iff_of_not_alike halike]
      obtain ⟨hobject, harray⟩ := not_or.1 hcontainer
      by_cases hstring : ∃ s, v = .string s
      · obtain ⟨s, rfl⟩ := hstring
        simp [meets_self_string_iff]
      · have hkind : v.kind ≠ .string := by
          intro hkind
          cases v <;> first | exact hstring ⟨_, rfl⟩ | cases hkind
        have hno : ∀ s, ¬ v.HasText s := fun s => Json.not_hasText_of_kind ⟨hkind, harray, hobject⟩
        simp [meets_self_of_kind hkind harray hobject, hno]

/-- All places of a tree are reached together with itself. -/
theorem Json.within_iff_reachedTogether_self {v : Json} (h : v.DistinctKeys) (n : Nat) :
    v.Within n ↔ ∀ p, ReachedTogether v v p → p.length ≤ n := by
  have hreached : ∀ p, ReachedTogether v v p ↔ p ∈ v.positions := by
    intro p
    rw [reachedTogether_iff, mem_positions_iff h, and_self]
  simp only [Within, hreached]

/-- Comparing a tree with itself finds nothing exactly if no place of it lies beyond the limit, and no string
in it is a wildcard for numbers or truth values or the escape of a token. -/
theorem compare_self_iff (d : Diff) {v : Json} (h : v.DistinctKeys) :
    d.compare v v = .ok [] ↔
      v.Within d.maxDepth ∧
        ∀ s, v.HasText s → s ≠ "<anyNumber>" ∧ s ≠ "<anyBool>" ∧ ∀ t, IsToken t → s ≠ "\\" ++ t := by
  rw [compare_eq_ok_nil_iff, conforms_self_iff h, Json.within_iff_reachedTogether_self h, and_comm]
  rfl

/-- An order that accepts itself, and one whose note is an escape. -/
def plainOrder : Json :=
  .object [("items", .array [.string "<anyString>", .null]), ("note", .string "\\<any>")]

def escapedOrder : Json :=
  .object [("items", .array []), ("note", .string "\\<anyBool>")]

theorem plainOrder_distinctKeys : plainOrder.DistinctKeys := by
  simp [plainOrder, Json.DistinctKeys, Json.DistinctKeysFields, Json.DistinctKeysItems]

theorem escapedOrder_distinctKeys : escapedOrder.DistinctKeys := by
  simp [escapedOrder, Json.DistinctKeys, Json.DistinctKeysFields, Json.DistinctKeysItems]

theorem compare_self_iff_orders :
    plainOrder.DistinctKeys ∧ escapedOrder.DistinctKeys ∧
    Diff.compare ⟨"body", 2⟩ plainOrder plainOrder = .ok [] ∧ plainOrder.Within 2 ∧
    escapedOrder.HasText "\\<anyBool>" ∧ Diff.compare ⟨"body", 2⟩ escapedOrder escapedOrder ≠ .ok [] := by
  have hplain := compare_self_iff ⟨"body", 2⟩ plainOrder_distinctKeys
  have hescaped := compare_self_iff ⟨"body", 2⟩ escapedOrder_distinctKeys
  have hok : Diff.compare ⟨"body", 2⟩ plainOrder plainOrder = .ok [] := rfl
  have htext : escapedOrder.HasText "\\<anyBool>" := by simp [escapedOrder]
  refine ⟨plainOrder_distinctKeys, escapedOrder_distinctKeys, hok, (hplain.1 hok).1, htext, ?_⟩
  intro h
  exact ((hescaped.1 h).2 _ htext).2.2 "<anyBool>" (by decide) rfl

end Covenant
