import Covenant.Proofs.Comparison
import Mathlib.Data.List.Flatten

/-!
# The places that a comparison reports

A comparison within its depth limit reports the places where the trees clash, and those alone.

* `Clash`: two values at one place that are reported;
* `IsMismatch`: a place of the expected tree that is reported, with what both trees hold there;
* `mem_differences_iff`: the differences are these places;
* `places_sublist`: they come in document order, and no place twice;
* `compare_reports_mismatches`: what a comparison returns;
* `compare_unlabelled`: what is missing under an empty name has the empty key, not the root label.
-/

namespace Covenant

/-! ## Clashes -/

/-- An expected value faces one that does not meet it, and there is nothing further to compare below. -/
inductive Clash : Json → Json → Prop
  | wildcard {w : Wildcard} {a : Json} : a.kind ≠ w.kind → Clash (.string w.label) a
  | container {e a : Json} : (e.kind = .object ∨ e.kind = .array) → a.kind ≠ e.kind → Clash e a
  | leaf {e a : Json} : (∀ w : Wildcard, e ≠ .string w.label) → e.kind ≠ .object → e.kind ≠ .array →
      ¬ LeafAccepts e a → Clash e a

theorem Alike.kind {e a : Json} (h : Alike e a) :
    a.kind = e.kind ∧ (e.kind = .object ∨ e.kind = .array) := by
  cases h with
  | objects es as => exact ⟨rfl, .inl rfl⟩
  | arrays es as => exact ⟨rfl, .inr rfl⟩

/-- Containers of the same kind do not clash. -/
theorem Alike.not_clash {e a : Json} (h : Alike e a) : ¬ Clash e a := by
  obtain ⟨hkind, hcontainer⟩ := h.kind
  intro hclash
  cases hclash with
  | wildcard hne =>
    rcases hcontainer with hc | hc <;> cases hc
  | container _ hne => exact hne hkind
  | leaf _ hobject harray _ => exact hcontainer.elim hobject harray

theorem clash_iff_of_not_alike {e a : Json} (h : ¬ Alike e a) : Clash e a ↔ meets e a = false := by
  rw [← Bool.not_eq_true]
  by_cases hwild : ∃ w : Wildcard, e = .string w.label
  · obtain ⟨w, rfl⟩ := hwild
    rw [meets_wildcard]
    refine ⟨fun hclash hkind => ?_, .wildcard⟩
    generalize hv : Json.string w.label = v at hclash
    cases hclash with
    | wildcard hne => exact hne (Wildcard.label_injective (Json.string.inj hv) ▸ hkind)
    | container hcontainer =>
      rw [← hv] at hcontainer
      rcases hcontainer with hc | hc <;> cases hc
    | leaf hno => exact hno w hv.symm
  · have hno : ∀ w : Wildcard, e ≠ .string w.label := fun w hw => hwild ⟨w, hw⟩
    rw [meets_leaf hno]
    constructor
    · intro hclash hleaf
      cases hclash with
      | wildcard => exact hno _ rfl
      | container hcontainer => exact hcontainer.elim hleaf.not_container.1 hleaf.not_container.2
      | leaf _ _ _ hnot => exact hnot hleaf
    · intro hnot
      by_cases hcontainer : e.kind = .object ∨ e.kind = .array
      · -- A value of the same kind would be alike.
        refine .container hcontainer fun hkind => h ?_
        cases e <;> cases a <;> first | exact .objects _ _ | exact .arrays _ _ | simp [Json.kind] at hkind hcontainer
      · exact .leaf hno (fun hk => hcontainer (.inl hk)) (fun hk => hcontainer (.inr hk)) hnot

/-! ## Places that are reported -/

/-- A place of the expected tree that is reported. Above it both trees go down through containers of the
same kind, and there the actual tree holds nothing or something that clashes. -/
structure IsMismatch (e a : Json) (x : Difference) : Prop where
  above : ∀ q, q <+: x.place → q ≠ x.place → ∃ u v, e.at? q = some u ∧ a.at? q = some v ∧ Alike u v
  expected : e.at? x.place = some x.expected
  actual : (x.actual = .missing ∧ a.at? x.place = none) ∨
    ∃ v, x.actual = .present v ∧ a.at? x.place = some v ∧ Clash x.expected v

theorem isMismatch_root_iff {e a u : Json} {o : Observed} :
    IsMismatch e a ⟨[], u, o⟩ ↔ u = e ∧ o = .present a ∧ Clash e a := by
  constructor
  · rintro ⟨-, hexpected, hactual⟩
    cases hexpected
    rcases hactual with ⟨-, hnone⟩ | ⟨v, rfl, hv, hclash⟩
    · cases hnone
    · cases hv
      exact ⟨rfl, rfl, hclash⟩
  · rintro ⟨rfl, rfl, hclash⟩
    refine ⟨fun q hq hne => absurd (List.prefix_nil.1 hq) hne, rfl, .inr ⟨a, rfl, rfl, hclash⟩⟩

/-- A place below the root is reported if the child above it lacks, or is reported there. -/
theorem isMismatch_cons_iff {e a u : Json} {o : Observed} {s : Step} {p : List Step} :
    IsMismatch e a ⟨s :: p, u, o⟩ ↔ Alike e a ∧ ∃ x, e.next? s = some x ∧
      ((a.next? s = none ∧ p = [] ∧ u = x ∧ o = .missing) ∨
        ∃ y, a.next? s = some y ∧ IsMismatch x y ⟨p, u, o⟩) := by
  constructor
  · rintro ⟨habove, hexpected, hactual⟩
    obtain ⟨_, _, he, ha, halike⟩ := habove [] List.nil_prefix nofun
    cases he
    cases ha
    obtain ⟨x, hx, hu⟩ := Option.bind_eq_some_iff.1 hexpected
    refine ⟨halike, x, hx, ?_⟩
    cases hy : a.next? s with
    | none =>
      left
      cases p with
      | nil =>
        cases hu
        rcases hactual with ⟨hmissing, -⟩ | ⟨v, -, hv, -⟩
        · exact ⟨rfl, rfl, rfl, hmissing⟩
        · rw [Json.at?_cons_of_none hy] at hv
          cases hv
      | cons t p =>
        obtain ⟨_, v, -, hv, -⟩ := habove [s] (by simp) (by simp)
        rw [Json.at?_cons_of_none hy] at hv
        cases hv
    | some y =>
      right
      refine ⟨y, rfl, fun q hq hne => ?_, hu, ?_⟩
      · obtain ⟨u', v', hu', hv', halike'⟩ :=
          habove (s :: q) (List.cons_prefix_cons.2 ⟨rfl, hq⟩) (by simpa using hne)
        rw [Json.at?_cons_of_some hx] at hu'
        rw [Json.at?_cons_of_some hy] at hv'
        exact ⟨u', v', hu', hv', halike'⟩
      · simpa [Json.at?_cons_of_some hy] using hactual
  · rintro ⟨halike, x, hx, ⟨hy, rfl, rfl, rfl⟩ | ⟨y, hy, hmis⟩⟩
    · refine ⟨fun q hq hne => ?_, ?_, .inl ⟨rfl, ?_⟩⟩
      · rcases List.prefix_cons_iff.1 hq with rfl | ⟨r, rfl, hr⟩
        · exact ⟨e, a, rfl, rfl, halike⟩
        · rw [List.prefix_nil.1 hr] at hne
          exact absurd rfl hne
      · exact Json.at?_cons_of_some hx []
      · exact Json.at?_cons_of_none hy []
    · refine ⟨fun q hq hne => ?_, ?_, ?_⟩
      · rcases List.prefix_cons_iff.1 hq with rfl | ⟨r, rfl, hr⟩
        · exact ⟨e, a, rfl, rfl, halike⟩
        · obtain ⟨u', v', hu', hv', halike'⟩ := hmis.above r hr fun heq => hne (congrArg (s :: ·) heq)
          refine ⟨u', v', ?_, ?_, halike'⟩
          · exact (Json.at?_cons_of_some hx r).trans hu'
          · exact (Json.at?_cons_of_some hy r).trans hv'
      · exact (Json.at?_cons_of_some hx p).trans hmis.expected
      · simpa [Json.at?_cons_of_some hy] using hmis.actual

/-- No reported place lies below another one. -/
theorem IsMismatch.place_eq {e a : Json} {x y : Difference} (hx : IsMismatch e a x)
    (hy : IsMismatch e a y) (h : x.place <+: y.place) : x.place = y.place := by
  by_contra hne
  obtain ⟨u, v, hu, hv, halike⟩ := hy.above x.place h hne
  rcases hx.actual with ⟨-, hnone⟩ | ⟨w, -, hw, hclash⟩
  · rw [hnone] at hv
    cases hv
  · rw [Option.some.inj (hu.symm.trans hx.expected), Option.some.inj (hv.symm.trans hw)] at halike
    exact halike.not_clash hclash

/-- Above a place that two trees have, both go down through containers of the same kind. -/
theorem alike_above {e a u w : Json} {p q : List Step} (hu : e.at? p = some u) (hw : a.at? p = some w)
    (hq : q <+: p) (hne : q ≠ p) : ∃ x y, e.at? q = some x ∧ a.at? q = some y ∧ Alike x y := by
  obtain ⟨rest, rfl⟩ := hq
  cases rest with
  | nil => exact absurd (List.append_nil q).symm hne
  | cons s rest =>
    rw [Json.at?_append] at hu hw
    obtain ⟨x, hx, hu⟩ := Option.bind_eq_some_iff.1 hu
    obtain ⟨y, hy, hw⟩ := Option.bind_eq_some_iff.1 hw
    obtain ⟨x', hx', -⟩ := Option.bind_eq_some_iff.1 hu
    obtain ⟨y', hy', -⟩ := Option.bind_eq_some_iff.1 hw
    exact ⟨x, y, hx, hy, alike_of_next? (Json.mem_children_of_next? hx') hy'⟩

/-- A place that both trees have is reported exactly if what they have there clashes. -/
theorem exists_isMismatch_iff {e a u w : Json} {p : List Step} (hu : e.at? p = some u)
    (hw : a.at? p = some w) : (∃ x, IsMismatch e a x ∧ x.place = p) ↔ Clash u w := by
  constructor
  · rintro ⟨x, hx, rfl⟩
    obtain ⟨-, hexpected, hactual⟩ := hx
    rw [hu] at hexpected
    rcases hactual with ⟨-, hnone⟩ | ⟨v, -, hv, hclash⟩
    · rw [hw] at hnone
      cases hnone
    · rwa [Option.some.inj hexpected, Option.some.inj (hw.symm.trans hv)]
  · intro hclash
    exact ⟨⟨p, u, .present w⟩, ⟨fun q hq hne => alike_above hu hw hq hne, hu, .inr ⟨w, rfl, hw, hclash⟩⟩, rfl⟩

/-! ## The differences are the places that are reported -/

theorem mem_childDifferences_iff {a x : Json} {s : Step} {y : Difference} :
    y ∈ childDifferences a (s, x) ↔
      (a.next? s = none ∧ y = ⟨[s], x, .missing⟩) ∨
        ∃ z, a.next? s = some z ∧ ∃ w ∈ differences x z, w.below [s] = y := by
  rw [childDifferences]
  cases a.next? s with
  | none => simp
  | some z => simp

theorem mem_differences_iff {e a : Json} (he : e.DistinctKeys) {x : Difference} :
    x ∈ differences e a ↔ IsMismatch e a x := by
  induction e, a using pair_induction generalizing x with
  | step e a ih =>
    obtain ⟨place, u, o⟩ := x
    by_cases halike : Alike e a
    · rw [differences_of_alike halike, List.mem_flatMap]
      constructor
      · rintro ⟨⟨s, x⟩, hc, hmem⟩
        have hx : e.next? s = some x := he.next?_eq_some_iff.2 hc
        rcases mem_childDifferences_iff.1 hmem with ⟨hnone, heq⟩ | ⟨y, hy, w, hw, heq⟩
        · cases heq
          exact isMismatch_cons_iff.2 ⟨halike, _, hx, .inl ⟨hnone, rfl, rfl, rfl⟩⟩
        · cases heq
          have hmis := (ih s x y hc hy (he.child hc)).1 hw
          exact isMismatch_cons_iff.2 ⟨halike, x, hx, .inr ⟨y, hy, hmis⟩⟩
      · intro hmis
        cases place with
        | nil => exact absurd (isMismatch_root_iff.1 hmis).2.2 halike.not_clash
        | cons s p =>
          obtain ⟨-, x, hx, hbelow⟩ := isMismatch_cons_iff.1 hmis
          have hc := he.next?_eq_some_iff.1 hx
          refine ⟨(s, x), hc, mem_childDifferences_iff.2 ?_⟩
          rcases hbelow with ⟨hnone, rfl, rfl, rfl⟩ | ⟨y, hy, hmis⟩
          · exact .inl ⟨hnone, rfl⟩
          · exact .inr ⟨y, hy, ⟨p, u, o⟩, (ih s x y hc hy (he.child hc)).2 hmis, rfl⟩
    · rw [differences_of_not_alike halike]
      have hclash := clash_iff_of_not_alike halike
      cases place with
      | nil =>
        rw [isMismatch_root_iff, hclash]
        cases meets e a <;> simp
      | cons s p =>
        constructor
        · intro hmem
          split at hmem
          · cases hmem
          · cases List.mem_singleton.1 hmem
        · intro hmis
          exact absurd (isMismatch_cons_iff.1 hmis).1 halike

/-- The reported places stand in document order. -/
theorem places_sublist (e a : Json) : ((differences e a).map (·.place)).Sublist e.positions := by
  induction e, a using pair_induction with
  | step e a ih =>
    rw [Json.positions_eq]
    by_cases halike : Alike e a
    · rw [differences_of_alike halike, List.map_flatMap]
      refine .cons _ (.flatMap_right _ fun c hc => ?_)
      rw [childDifferences]
      cases hy : a.next? c.1 with
      | none =>
        rw [Json.positions_eq]
        exact List.singleton_sublist.2 List.mem_cons_self
      | some y =>
        have hbelow : ((differences c.2 y).map (·.below [c.1])).map (·.place) =
            ((differences c.2 y).map (·.place)).map (c.1 :: ·) := by
          rw [List.map_map, List.map_map]
          rfl
        dsimp only
        rw [hbelow]
        exact (ih c.1 c.2 y hc hy).map _
    · rw [differences_of_not_alike halike]
      split
      · exact List.nil_sublist _
      · exact List.singleton_sublist.2 List.mem_cons_self

/-- Within its depth limit a comparison returns one violation for each place that is reported, in document
order, and none below another. Its key is the text of the place. Where this is empty, it is the root label if
something is present there. -/
theorem compare_reports_mismatches (d : Diff) {e a : Json} (he : e.DistinctKeys)
    (hdepth : ∀ p, ReachedTogether e a p → p.length ≤ d.maxDepth) :
    ∃ xs : List Difference,
      d.compare e a = .ok (xs.map d.violation) ∧
      (∀ x ∈ xs, d.Tells (d.violation x) x) ∧
      (∀ x, x ∈ xs ↔ IsMismatch e a x) ∧
      (xs.map (·.place)).Sublist e.positions ∧
      (xs.map (·.place)).Nodup ∧
      ∀ x ∈ xs, ∀ y ∈ xs, x.place <+: y.place → x.place = y.place := by
  have hmem : ∀ x, x ∈ differences e a ↔ IsMismatch e a x := fun x => mem_differences_iff he
  refine ⟨differences e a, ?_, fun x _ => d.tells_violation x, hmem, places_sublist e a, ?_, ?_⟩
  · exact d.compare_eq_ok_iff.2 ⟨hdepth, rfl⟩
  · exact (Json.nodup_positions he).sublist (places_sublist e a)
  · intro x hx y hy hprefix
    exact ((hmem x).1 hx).place_eq ((hmem y).1 hy) hprefix

/-- An order with a missing item, a missing field and a number in words. -/
def declaredOrder : Json :=
  .object [("id", .string "<anyNumber>"), ("items", .array [.object [("sku", .string "a")], .null]),
    ("note", .null)]

def receivedOrder : Json :=
  .object [("items", .array [.object [("sku", .bool true)]]), ("id", .string "seven")]

theorem declaredOrder_distinctKeys : declaredOrder.DistinctKeys := by
  simp [declaredOrder, Json.DistinctKeys, Json.DistinctKeysFields, Json.DistinctKeysItems]

theorem compare_declaredOrder : Diff.compare ⟨"body", 3⟩ declaredOrder receivedOrder = .ok [
    ⟨"id", .string "<anyNumber>", .present (.string "seven")⟩,
    ⟨"items[0].sku", .string "a", .present (.bool true)⟩,
    ⟨"items[1]", .null, .missing⟩, ⟨"note", .null, .missing⟩] := rfl

/-- The orders reach no place together below a depth of three. -/
theorem declaredOrder_reached (p : List Step) (h : ReachedTogether declaredOrder receivedOrder p) :
    p.length ≤ 3 :=
  ((Diff.compare_eq_ok_iff ⟨"body", 3⟩).1 compare_declaredOrder).1 p h

theorem compare_reports_mismatches_of_order :
    declaredOrder.DistinctKeys ∧
    (∀ p, ReachedTogether declaredOrder receivedOrder p → p.length ≤ 3) ∧
    ∃ xs : List Difference,
      Diff.compare ⟨"body", 3⟩ declaredOrder receivedOrder = .ok (xs.map (Diff.violation ⟨"body", 3⟩)) ∧
      (∀ x ∈ xs, Diff.Tells ⟨"body", 3⟩ (Diff.violation ⟨"body", 3⟩ x) x) ∧
      (∀ x, x ∈ xs ↔ IsMismatch declaredOrder receivedOrder x) ∧
      (xs.map (·.place)).Sublist declaredOrder.positions ∧
      (xs.map (·.place)).Nodup ∧
      ∀ x ∈ xs, ∀ y ∈ xs, x.place <+: y.place → x.place = y.place :=
  ⟨declaredOrder_distinctKeys, declaredOrder_reached,
    compare_reports_mismatches ⟨"body", 3⟩ declaredOrder_distinctKeys declaredOrder_reached⟩

/-- A field whose name is empty. -/
def emptyName (v : Json) : Json := .object [("", v)]

theorem emptyName_distinctKeys : (emptyName .null).DistinctKeys := by
  simp [emptyName, Json.DistinctKeys, Json.DistinctKeysFields]

theorem compare_emptyName : Diff.compare ⟨"body", 128⟩ (emptyName .null) (.object []) =
    .ok [⟨"", .null, .missing⟩] := rfl

/-- A mismatch at a place with an empty text, whose key is not the root label: nothing is present there. -/
theorem compare_unlabelled :
    (emptyName .null).DistinctKeys ∧
    (∀ p, ReachedTogether (emptyName .null) (.object []) p → p.length ≤ 128) ∧
    ∃ (x : Difference) (v : Violation), IsMismatch (emptyName .null) (.object []) x ∧ pathText x.place = "" ∧
      Diff.compare ⟨"body", 128⟩ (emptyName .null) (.object []) = .ok [v] ∧
      v.expected = x.expected ∧ v.actual = x.actual ∧ v.key ≠ "body" := by
  refine ⟨emptyName_distinctKeys, ((Diff.compare_eq_ok_iff ⟨"body", 128⟩).1 compare_emptyName).1,
    ⟨[.field ""], .null, .missing⟩, ⟨"", .null, .missing⟩, ?_, rfl, compare_emptyName, rfl, rfl, by decide⟩
  exact isMismatch_cons_iff.2 ⟨.objects _ _, .null, rfl, .inl ⟨rfl, rfl, rfl, rfl⟩⟩

end Covenant
