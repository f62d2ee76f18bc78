import Covenant.Proofs.Mismatches
import Covenant.Proofs.Numerals

/-!
# The keys of violations

The key of a violation is the text of its place. Names stand in it as they are, so a text can be read back
where no name has a dot or an opening bracket in it, and where the place does not start with the empty name,
which adds nothing to the text of the root.

* `Legible`, `Legible.eq_of_pathText_eq`: places that can be read back from their texts;
* `Nameless`, `pathText_eq_empty_iff`: places below the root that have no text;
* `compare_keys`: the keys of one comparison identify legible places, and only the root has the root label;
* `compare_keys_coincide`: names with dots and empty names, for which this fails.
-/

namespace Covenant

/-! ## Reading up to a stop -/

/-- Two texts agree up to where they stop, if each of them stops at its first stop. -/
theorem append_eq_of_stop {stop : Char → Prop} {xs ys us vs : List Char} (hxs : ∀ c ∈ xs, ¬ stop c)
    (hys : ∀ c ∈ ys, ¬ stop c) (hus : ∀ c ∈ us.head?, stop c) (hvs : ∀ c ∈ vs.head?, stop c)
    (h : xs ++ us = ys ++ vs) : xs = ys ∧ us = vs := by
  induction xs generalizing ys with
  | nil =>
    cases ys with
    | nil => exact ⟨rfl, h⟩
    | cons c ys =>
      have hhead : c ∈ us.head? := by
        rw [show us = c :: (ys ++ vs) from h]
        rfl
      exact absurd (hus c hhead) (hys c List.mem_cons_self)
  | cons c xs ih =>
    cases ys with
    | nil =>
      have hhead : c ∈ vs.head? := by
        rw [show vs = c :: (xs ++ us) from h.symm]
        rfl
      exact absurd (hvs c hhead) (hxs c List.mem_cons_self)
    | cons b ys =>
      obtain ⟨rfl, htail⟩ := List.cons.inj h
      obtain ⟨hxy, huv⟩ := ih (fun c' hc => hxs c' (List.mem_cons_of_mem c hc))
        (fun c' hc => hys c' (List.mem_cons_of_mem c hc)) htail
      exact ⟨congrArg (c :: ·) hxy, huv⟩

/-! ## Texts of steps -/

/-- How a step is written behind a text. -/
def Step.chars : Step → List Char
  | .field key => '.' :: key.toList
  | .index i => '[' :: (Decimal.digits i ++ [']'])

theorem toList_extendPath {t : String} (h : t ≠ "") (s : Step) :
    (extendPath t s).toList = t.toList ++ s.chars := by
  cases s with
  | field key => simp [extendPath, h, Step.chars]
  | index i => simp [extendPath, Step.chars, Decimal.ofNat]

theorem extendPath_eq_empty_iff {t : String} {s : Step} : extendPath t s = "" ↔ t = "" ∧ s = .field "" := by
  cases s with
  | field key =>
    by_cases h : t = ""
    · simp [extendPath, h]
    · simp [extendPath, h]
  | index i => simp [extendPath]

theorem toList_foldl_extendPath {t : String} (h : t ≠ "") (p : List Step) :
    (p.foldl extendPath t).toList = t.toList ++ p.flatMap Step.chars := by
  induction p generalizing t with
  | nil => simp
  | cons s p ih =>
    have hne : extendPath t s ≠ "" := fun hempty => h (extendPath_eq_empty_iff.1 hempty).1
    rw [List.foldl_cons, ih hne, toList_extendPath h, List.flatMap_cons, List.append_assoc]

/-- A place below the root that has no text: all of its names are empty. -/
def Nameless (p : List Step) : Prop := p ≠ [] ∧ ∀ s ∈ p, s = .field ""

theorem foldl_extendPath_eq_empty_iff {t : String} {p : List Step} :
    p.foldl extendPath t = "" ↔ t = "" ∧ ∀ s ∈ p, s = .field "" := by
  induction p generalizing t with
  | nil => simp
  | cons s p ih => rw [List.foldl_cons, ih, extendPath_eq_empty_iff, List.forall_mem_cons, and_assoc]

/-- The root and the nameless places are those without a text. -/
theorem pathText_eq_empty_iff {p : List Step} : pathText p = "" ↔ p = [] ∨ Nameless p := by
  rw [pathText, foldl_extendPath_eq_empty_iff, Nameless]
  by_cases h : p = []
  · simp [h]
  · simp [h]

theorem pathText_ne_empty {p : List Step} (hroot : p ≠ []) (hnamed : ¬ Nameless p) : pathText p ≠ "" := by
  intro hempty
  exact (pathText_eq_empty_iff.1 hempty).elim hroot hnamed

/-! ## Legible places -/

/-- A character that no legible name contains, because a step starts with it. -/
def StartsStep (c : Char) : Prop := c = '.' ∨ c = '['

/-- A place that can be read back from its text. -/
structure Legible (p : List Step) : Prop where
  name : ∀ key, .field key ∈ p → ∀ c ∈ key.toList, ¬ StartsStep c
  first : p.head? ≠ some (.field "")

theorem head_flatMap_chars (p : List Step) : ∀ c ∈ (p.flatMap Step.chars).head?, StartsStep c := by
  intro c hc
  cases p with
  | nil => cases hc
  | cons s p =>
    cases s with
    | field key =>
      cases hc
      exact .inl rfl
    | index i =>
      cases hc
      exact .inr rfl

theorem not_mem_digits {c : Char} (h : c.isDigit = false) (n : Nat) : c ∉ Decimal.digits n := by
  intro hmem
  rw [Decimal.isDigit_of_mem_digits hmem] at h
  cases h

/-- Steps can be read back one by one: what starts a step tells its kind, a name ends where the next step
starts, and an index at its closing bracket. -/
theorem eq_of_flatMap_chars_eq {p q : List Step} (hp : ∀ key, .field key ∈ p → ∀ c ∈ key.toList, ¬ StartsStep c)
    (hq : ∀ key, .field key ∈ q → ∀ c ∈ key.toList, ¬ StartsStep c)
    (h : p.flatMap Step.chars = q.flatMap Step.chars) : p = q := by
  induction p generalizing q with
  | nil =>
    cases q with
    | nil => rfl
    | cons t q => cases t <;> cases h
  | cons s p ih =>
    cases q with
    | nil => cases s <;> cases h
    | cons t q =>
      have hrest : p.flatMap Step.chars = q.flatMap Step.chars → p = q :=
        ih (fun key hkey => hp key (List.mem_cons_of_mem s hkey)) fun key hkey =>
          hq key (List.mem_cons_of_mem t hkey)
      rw [List.flatMap_cons, List.flatMap_cons] at h
      cases s with
      | field key =>
        cases t with
        | field key' =>
          have hname := hp key List.mem_cons_self
          have hname' := hq key' List.mem_cons_self
          obtain ⟨hkey, htail⟩ := append_eq_of_stop hname hname' (head_flatMap_chars p) (head_flatMap_chars q)
            (List.cons.inj h).2
          rw [String.toList_inj.1 hkey, hrest htail]
        | index j => exact absurd (List.cons.inj h).1 (by decide)
      | index i =>
        cases t with
        | field key => exact absurd (List.cons.inj h).1 (by decide)
        | index j =>
          have hdigits : ∀ n, ∀ c ∈ Decimal.digits n, ¬ c = ']' := by
            rintro n c hc rfl
            exact not_mem_digits (by decide) n hc
          have htail : Decimal.digits i ++ ']' :: p.flatMap Step.chars =
              Decimal.digits j ++ ']' :: q.flatMap Step.chars := by
            simpa [Step.chars] using h
          obtain ⟨hindex, hsteps⟩ := append_eq_of_stop (hdigits i) (hdigits j) (by simp) (by simp) htail
          rw [Decimal.digits_injective hindex, hrest (List.cons.inj hsteps).2]

/-- The text of a legible place, up to the dot that the first name does not have. -/
theorem Legible.toList_pathText {s : Step} {p : List Step} (h : Legible (s :: p)) :
    (s :: p).flatMap Step.chars =
      match s with
      | .field _ => '.' :: (pathText (s :: p)).toList
      | .index _ => (pathText (s :: p)).toList := by
  have hne : extendPath "" s ≠ "" := by
    intro hempty
    exact h.first (congrArg some (extendPath_eq_empty_iff.1 hempty).2)
  rw [pathText, List.foldl_cons, toList_foldl_extendPath hne]
  cases s with
  | field key => rfl
  | index i => simp [extendPath, Step.chars, Decimal.ofNat]

/-- A name at the front of a legible place is not taken for an index. -/
theorem Legible.pathText_field_ne_index {key : String} {i : Nat} {p q : List Step}
    (hp : Legible (.field key :: p)) (hq : Legible (.index i :: q)) :
    pathText (.field key :: p) ≠ pathText (.index i :: q) := by
  intro h
  have hfield : (Step.field key :: p).flatMap Step.chars = '.' :: (pathText (.field key :: p)).toList :=
    hp.toList_pathText
  have hindex : (Step.index i :: q).flatMap Step.chars = (pathText (.index i :: q)).toList := hq.toList_pathText
  rw [h, ← hindex] at hfield
  have htext : key.toList ++ p.flatMap Step.chars = '[' :: (Decimal.digits i ++ [']'] ++ q.flatMap Step.chars) :=
    (List.cons.inj hfield).2
  cases hkey : key.toList with
  | nil => exact hp.first (congrArg (fun t => some (Step.field t)) (String.toList_eq_nil_iff.1 hkey))
  | cons c cs =>
    rw [hkey] at htext
    refine hp.name key List.mem_cons_self c ?_ (.inr (List.cons.inj htext).1)
    rw [hkey]
    exact List.mem_cons_self

theorem Legible.not_nameless {p : List Step} (h : Legible p) : ¬ Nameless p := by
  rintro ⟨hne, hnames⟩
  cases p with
  | nil => exact hne rfl
  | cons s p => exact h.first (congrArg some (hnames s List.mem_cons_self))

/-- No two legible places have the same text. -/
theorem Legible.eq_of_pathText_eq {p q : List Step} (hp : Legible p) (hq : Legible q)
    (h : pathText p = pathText q) : p = q := by
  cases p with
  | nil =>
    by_contra hne
    exact pathText_ne_empty (Ne.symm hne) hq.not_nameless h.symm
  | cons s p =>
    cases q with
    | nil => exact absurd h (pathText_ne_empty nofun hp.not_nameless)
    | cons t q =>
      refine eq_of_flatMap_chars_eq hp.name hq.name ?_
      have hs := hp.toList_pathText
      have ht := hq.toList_pathText
      cases s with
      | field key =>
        cases t with
        | field key' => rw [hs, ht, h]
        | index j => exact absurd h (hp.pathText_field_ne_index hq)
      | index i =>
        cases t with
        | field key' => exact absurd h.symm (hq.pathText_field_ne_index hp)
        | index j => rw [hs, ht, h]

/-! ## Keys -/

section

variable {d : Diff} {e a : Json} {x y : Difference}

/-- Where a place has a text, it is the key. -/
theorem key_eq_pathText (h : pathText x.place ≠ "") : (d.violation x).key = pathText x.place :=
  (d.tells_violation x).named (.inl h)

theorem IsMismatch.key_root (h : IsMismatch e a x) (hroot : x.place = []) :
    (d.violation x).key = d.rootLabel := by
  obtain ⟨place, u, o⟩ := x
  cases hroot
  obtain ⟨-, hactual, -⟩ := isMismatch_root_iff.1 h
  exact (d.tells_violation _).labelled rfl ⟨a, hactual⟩

/-- A violation at the root is the only one. -/
theorem IsMismatch.ne_root (hx : IsMismatch e a x) (hy : IsMismatch e a y) (hne : x.place ≠ y.place) :
    x.place ≠ [] := by
  intro hroot
  refine hne (hx.place_eq hy ?_)
  rw [hroot]
  exact List.nil_prefix

/-- At different legible places there are different keys. -/
theorem IsMismatch.key_ne (hx : IsMismatch e a x) (hy : IsMismatch e a y) (hne : x.place ≠ y.place)
    (hxl : Legible x.place) (hyl : Legible y.place) : (d.violation x).key ≠ (d.violation y).key := by
  have hxtext := pathText_ne_empty (hx.ne_root hy hne) hxl.not_nameless
  have hytext := pathText_ne_empty (hy.ne_root hx hne.symm) hyl.not_nameless
  rw [key_eq_pathText hxtext, key_eq_pathText hytext]
  intro h
  exact hne (hxl.eq_of_pathText_eq hyl h)

theorem IsMismatch.key_ne_empty (hx : IsMismatch e a x) (hlabel : d.rootLabel ≠ "")
    (hnamed : ¬ Nameless x.place) : (d.violation x).key ≠ "" := by
  by_cases hroot : x.place = []
  · rw [hx.key_root hroot]
    exact hlabel
  · have htext := pathText_ne_empty hroot hnamed
    rw [key_eq_pathText htext]
    exact htext

theorem eq_root_of_key (hlabel : pathText x.place ≠ d.rootLabel) (hnamed : ¬ Nameless x.place)
    (hkey : (d.violation x).key = d.rootLabel) : x.place = [] := by
  by_contra hroot
  rw [key_eq_pathText (pathText_ne_empty hroot hnamed)] at hkey
  exact hlabel hkey

end

/-- What a comparison returns are the violations of mismatches at different places. Those at legible places
have different keys. Nameless places apart, no key is empty unless the root label is, and a root label that is
the text of no expected place is the key of a mismatch at the root only. -/
theorem compare_keys (d : Diff) {e a : Json} (he : e.DistinctKeys) {vs : List Violation}
    (h : d.compare e a = .ok vs) :
    ∃ xs : List Difference, vs = xs.map d.violation ∧ (∀ x ∈ xs, IsMismatch e a x) ∧
      (xs.map (·.place)).Nodup ∧
      xs.Pairwise (fun x y =>
        Legible x.place → Legible y.place → (d.violation x).key ≠ (d.violation y).key) ∧
      (d.rootLabel ≠ "" → ∀ x ∈ xs, ¬ Nameless x.place → (d.violation x).key ≠ "") ∧
      ((∀ p ∈ e.positions, pathText p ≠ d.rootLabel) → ∀ x ∈ xs, ¬ Nameless x.place →
        (d.violation x).key = d.rootLabel → x.place = []) := by
  have hmem : ∀ x ∈ differences e a, IsMismatch e a x := fun x hx => (mem_differences_iff he).1 hx
  have hnodup := (Json.nodup_positions he).sublist (places_sublist e a)
  refine ⟨differences e a, (d.compare_eq_ok_iff.1 h).2, hmem, hnodup, ?_, ?_, ?_⟩
  · refine (List.pairwise_map.1 hnodup).imp_of_mem ?_
    intro x y hx hy hne hxl hyl
    exact (hmem x hx).key_ne (hmem y hy) hne hxl hyl
  · intro hlabel x hx hnamed
    exact (hmem x hx).key_ne_empty hlabel hnamed
  · intro hlabel x hx hnamed hkey
    have hplace : x.place ∈ e.positions := (places_sublist e a).subset (List.mem_map_of_mem hx)
    exact eq_root_of_key (hlabel _ hplace) hnamed hkey

theorem compare_keys_of_order :
    declaredOrder.DistinctKeys ∧
    ∃ xs : List Difference,
      Diff.compare ⟨"body", 3⟩ declaredOrder receivedOrder = .ok (xs.map (Diff.violation ⟨"body", 3⟩)) ∧
      (∀ x ∈ xs, IsMismatch declaredOrder receivedOrder x) ∧
      xs.Pairwise (fun x y => Legible x.place → Legible y.place →
        (Diff.violation ⟨"body", 3⟩ x).key ≠ (Diff.violation ⟨"body", 3⟩ y).key) ∧
      ∀ x ∈ xs, ¬ Nameless x.place → (Diff.violation ⟨"body", 3⟩ x).key ≠ "" := by
  obtain ⟨xs, hvs, hmem, -, hapart, hnonempty, -⟩ :=
    compare_keys ⟨"body", 3⟩ declaredOrder_distinctKeys compare_declaredOrder
  refine ⟨declaredOrder_distinctKeys, xs, ?_, hmem, hapart, hnonempty (by decide)⟩
  rw [← hvs]
  exact compare_declaredOrder

/-- A name with a dot, and the two names that are written alike. -/
def dottedNames : Json := .object [("a.b", .null), ("a", .object [("b", .bool true)])]

/-- Two violations of one comparison with the same key, a violation with an empty key, and one with the root
label that is not at the root. -/
theorem compare_keys_coincide :
    dottedNames.DistinctKeys ∧ (emptyName .null).DistinctKeys ∧
    (∃ v w : Violation, v ≠ w ∧ v.key = w.key ∧
      Diff.compare ⟨"body", 128⟩ dottedNames (.object [("a", .object [])]) = .ok [v, w]) ∧
    Diff.compare ⟨"body", 128⟩ (emptyName .null) (.object []) = .ok [⟨"", .null, .missing⟩] ∧
    (∀ p ∈ (emptyName .null).positions, pathText p ≠ "body") ∧
    Diff.compare ⟨"body", 128⟩ (emptyName .null) (emptyName (.bool true)) =
      .ok [⟨"body", .null, .present (.bool true)⟩] := by
  refine ⟨?_, ?_, ⟨⟨"a.b", .null, .missing⟩, ⟨"a.b", .bool true, .missing⟩, ?_, rfl, rfl⟩, rfl, ?_, rfl⟩
  · simp [dottedNames, Json.DistinctKeys, Json.DistinctKeysFields]
  · exact emptyName_distinctKeys
  · intro h
    cases h
  · intro p hp
    cases p with
    | nil => decide
    | cons s p =>
      obtain ⟨x, hx, hp⟩ := Json.cons_mem_positions.1 hp
      cases List.mem_singleton.1 hx
      cases p with
      | nil => decide
      | cons t p =>
        obtain ⟨y, hy, -⟩ := Json.cons_mem_positions.1 hp
        cases hy

end Covenant
