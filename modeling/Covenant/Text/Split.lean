/-!
# Splitting and joining

* `splitAt`: the parts of a text between separators;
* `joinWith`: parts with a separator between them;
* `splitFirst?`: the two sides of the first separator.

Splitting undoes joining for parts without the separator, and joining undoes splitting.
-/

namespace Covenant.Text

/-- The parts of a text between separators. -/
def splitAt (sep : Char) : List Char → List (List Char)
  | [] => [[]]
  | c :: cs =>
    if c = sep then [] :: splitAt sep cs
    else match splitAt sep cs with
      | [] => [[c]]
      | p :: ps => (c :: p) :: ps

/-- Parts with a separator between them. -/
def joinWith (sep : Char) : List (List Char) → List Char
  | [] => []
  | [p] => p
  | p :: ps => p ++ sep :: joinWith sep ps

/-- What stands before and behind the first separator, if there is one. -/
def splitFirst? (sep : Char) (cs : List Char) : Option (List Char × List Char) :=
  match cs.dropWhile (· ≠ sep) with
  | [] => none
  | _ :: rest => some (cs.takeWhile (· ≠ sep), rest)

theorem splitAt_ne_nil (sep : Char) (cs : List Char) : splitAt sep cs ≠ [] := by
  cases cs with
  | nil => simp [splitAt]
  | cons c cs =>
    simp only [splitAt]
    split
    · simp
    · split <;> simp

theorem splitAt_of_not_mem {sep : Char} {p : List Char} (h : sep ∉ p) : splitAt sep p = [p] := by
  induction p with
  | nil => rfl
  | cons c p ih =>
    simp only [List.mem_cons, not_or] at h
    simp [splitAt, Ne.symm h.1, ih h.2]

theorem splitAt_append_cons {sep : Char} {p : List Char} (h : sep ∉ p) (cs : List Char) :
    splitAt sep (p ++ sep :: cs) = p :: splitAt sep cs := by
  induction p with
  | nil => simp [splitAt]
  | cons c p ih =>
    simp only [List.mem_cons, not_or] at h
    simp [splitAt, Ne.symm h.1, ih h.2]

theorem splitAt_append_sep (sep : Char) (cs ds : List Char) :
    splitAt sep (cs ++ sep :: ds) = splitAt sep cs ++ splitAt sep ds := by
  induction cs with
  | nil => simp [splitAt]
  | cons c cs ih =>
    rw [List.cons_append, splitAt, splitAt]
    split
    · rw [ih, List.cons_append]
    · rw [ih]
      cases hsplit : splitAt sep cs with
      | nil => exact absurd hsplit (splitAt_ne_nil sep cs)
      | cons p ps => rfl

/-- Splitting undoes joining. -/
theorem splitAt_joinWith {sep : Char} {ps : List (List Char)} (hne : ps ≠ [])
    (h : ∀ p ∈ ps, sep ∉ p) : splitAt sep (joinWith sep ps) = ps := by
  induction ps with
  | nil => exact absurd rfl hne
  | cons p ps ih =>
    cases ps with
    | nil => exact splitAt_of_not_mem (h p (by simp))
    | cons q qs =>
      simp only [joinWith]
      rw [splitAt_append_cons (h p (by simp)), ih (by simp) fun r hr => h r (by simp [hr])]

/-- Joining undoes splitting. -/
theorem joinWith_splitAt (sep : Char) (cs : List Char) : joinWith sep (splitAt sep cs) = cs := by
  induction cs with
  | nil => rfl
  | cons c cs ih =>
    rw [splitAt]
    cases hsplit : splitAt sep cs with
    | nil => exact absurd hsplit (splitAt_ne_nil sep cs)
    | cons p ps =>
      rw [hsplit] at ih
      split
      · rename_i hc
        rw [joinWith, ih, hc, List.nil_append]
        exact List.cons_ne_nil p ps
      · rw [← ih]
        cases ps with
        | nil => rfl
        | cons q qs => rfl

theorem not_mem_of_mem_splitAt {sep : Char} {cs p : List Char} (h : p ∈ splitAt sep cs) : sep ∉ p := by
  induction cs generalizing p with
  | nil =>
    rw [List.mem_singleton.1 h]
    exact List.not_mem_nil
  | cons c cs ih =>
    rw [splitAt] at h
    split at h
    · rcases List.mem_cons.1 h with rfl | h
      · exact List.not_mem_nil
      · exact ih h
    · rename_i hc
      split at h
      · rw [List.mem_singleton.1 h, List.mem_singleton]
        exact fun heq => hc heq.symm
      · rename_i q qs hsplit
        rw [hsplit] at ih
        rcases List.mem_cons.1 h with rfl | h
        · rw [List.mem_cons, not_or]
          exact ⟨fun heq => hc heq.symm, ih List.mem_cons_self⟩
        · exact ih (List.mem_cons_of_mem _ h)

theorem splitFirst?_cons (sep c : Char) (cs : List Char) :
    splitFirst? sep (c :: cs) =
      if c = sep then some ([], cs) else (splitFirst? sep cs).map fun x => (c :: x.1, x.2) := by
  by_cases hc : c = sep
  · simp [splitFirst?, hc]
  · simp only [splitFirst?, List.dropWhile_cons, List.takeWhile_cons, hc, ne_eq, not_false_eq_true,
      decide_true, if_true, if_false]
    cases cs.dropWhile (· ≠ sep) <;> rfl

/-- The two sides of the first separator, with the separator between them, are the whole text. -/
theorem splitFirst?_eq_some_iff {sep : Char} {cs before after : List Char} :
    splitFirst? sep cs = some (before, after) ↔ sep ∉ before ∧ cs = before ++ sep :: after := by
  induction cs generalizing before with
  | nil => simp [splitFirst?]
  | cons c cs ih =>
    rw [splitFirst?_cons]
    by_cases hc : c = sep
    · subst hc
      cases before with
      | nil => simp [eq_comm]
      | cons b before =>
        rw [if_pos rfl]
        constructor
        · intro h
          cases h
        · intro h
          have hb : c = b := (List.cons.inj h.2).1
          exact absurd (by simp [hb]) h.1
    · rw [if_neg hc, Option.map_eq_some_iff]
      constructor
      · intro h
        obtain ⟨x, hx, heq⟩ := h
        cases heq
        obtain ⟨hno, hcs⟩ := ih.1 hx
        refine ⟨?_, by rw [hcs, List.cons_append]⟩
        simp [hno, Ne.symm hc]
      · intro h
        obtain ⟨hno, hcs⟩ := h
        cases before with
        | nil => exact absurd (List.cons.inj hcs).1 hc
        | cons b before =>
          obtain ⟨hhead, htail⟩ := List.cons.inj hcs
          rw [List.mem_cons, not_or] at hno
          exact ⟨(before, after), ih.2 ⟨hno.2, htail⟩, by rw [hhead]⟩

theorem splitFirst?_eq_none_iff {sep : Char} {cs : List Char} : splitFirst? sep cs = none ↔ sep ∉ cs := by
  induction cs with
  | nil => simp [splitFirst?]
  | cons c cs ih =>
    rw [splitFirst?_cons]
    by_cases hc : c = sep
    · simp [hc]
    · simp [hc, ih, Ne.symm hc]

example : splitAt '.' "a..b".toList = [['a'], [], ['b']] := by decide

end Covenant.Text
