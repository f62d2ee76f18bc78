import Covenant.Diff
import Mathlib.Data.List.Basic
import Mathlib.Data.List.Infix
import Mathlib.Data.List.Nodup

/-!
# Places in a tree

A tree is seen through its children: each stands behind the step that leads to it. Fields and items
are then one case, and a statement on trees is one induction.

* `Json.children`, `Json.next?`: the children in document order, and the child behind a step;
* `Json.at?`: the subtree at a place;
* `Json.positions`: all places of a tree in document order, each before those below it;
* `Json.mem_positions_iff`, `Json.nodup_positions`: every place is listed, and none twice;
* `Alike`: two containers of the same kind;
* `pair_induction`: induction along the children that two trees have together.
-/

namespace Covenant

namespace Json

/-! ## Children -/

/-- The children of a container in document order, each behind its step. -/
def children : Json → List (Step × Json)
  | .object fields => fields.map fun f => (.field f.1, f.2)
  | .array items => items.zipIdx.map fun x => (.index x.2, x.1)
  | _ => []

/-- The child behind a step. -/
def next? (v : Json) (s : Step) : Option Json :=
  match v, s with
  | .object fields, .field key => lookup fields key
  | .array items, .index i => items[i]?
  | _, _ => none

theorem sizeOf_children {v : Json} {c : Step × Json} (h : c ∈ v.children) : sizeOf c.2 < sizeOf v := by
  cases v with
  | object fields =>
    obtain ⟨f, hf, rfl⟩ := List.mem_map.1 h
    have hsize := List.sizeOf_lt_of_mem hf
    have : sizeOf f = 1 + sizeOf f.1 + sizeOf f.2 := by cases f; rfl
    simp only [Json.object.sizeOf_spec]
    omega
  | array items =>
    obtain ⟨x, hx, rfl⟩ := List.mem_map.1 h
    have hsize := List.sizeOf_lt_of_mem (List.fst_mem_of_mem_zipIdx hx)
    simp only [Json.array.sizeOf_spec]
    omega
  | _ => simp [children] at h

theorem mem_children_of_next? {v x : Json} {s : Step} (h : v.next? s = some x) :
    (s, x) ∈ v.children := by
  cases v with
  | object fields =>
    cases s with
    | field key =>
      obtain ⟨f, hf, hx⟩ := Option.map_eq_some_iff.1 h
      have hkey : f.1 = key := by simpa using List.find?_some hf
      exact List.mem_map.2 ⟨f, List.mem_of_find?_eq_some hf, by rw [hkey, hx]⟩
    | index i => simp [next?] at h
  | array items =>
    cases s with
    | field key => simp [next?] at h
    | index i =>
      exact List.mem_map.2 ⟨(x, i), List.mem_zipIdx_iff_getElem?.2 h, rfl⟩
  | _ => cases s <;> simp [next?] at h

/-! ## Trees without repeated names -/

theorem distinctKeysItems_iff {vs : List Json} : DistinctKeysItems vs ↔ ∀ v ∈ vs, v.DistinctKeys := by
  induction vs with
  | nil => simp [DistinctKeysItems]
  | cons v vs ih => simp [DistinctKeysItems, ih]

theorem distinctKeysFields_iff {fs : List (String × Json)} :
    DistinctKeysFields fs ↔ ∀ f ∈ fs, f.2.DistinctKeys := by
  induction fs with
  | nil => simp [DistinctKeysFields]
  | cons f fs ih =>
    obtain ⟨k, v⟩ := f
    simp only [DistinctKeysFields, ih, List.forall_mem_cons]

theorem DistinctKeys.child {v : Json} (h : v.DistinctKeys) {c : Step × Json} (hc : c ∈ v.children) :
    c.2.DistinctKeys := by
  cases v with
  | object fields =>
    obtain ⟨f, hf, rfl⟩ := List.mem_map.1 hc
    exact distinctKeysFields_iff.1 h.2 f hf
  | array items =>
    obtain ⟨x, hx, rfl⟩ := List.mem_map.1 hc
    exact distinctKeysItems_iff.1 h x.1 (List.fst_mem_of_mem_zipIdx hx)
  | _ => simp [children] at hc

/-- No two children stand behind one step. -/
theorem DistinctKeys.nodup_steps {v : Json} (h : v.DistinctKeys) : (v.children.map Prod.fst).Nodup := by
  cases v with
  | object fields =>
    have hsteps : (children (.object fields)).map Prod.fst = (fields.map Prod.fst).map Step.field := by
      simp [children]
    rw [hsteps]
    exact h.1.map fun _ _ hkey => by injection hkey
  | array items =>
    have hsteps : (children (.array items)).map Prod.fst = (List.range items.length).map Step.index := by
      rw [List.range_eq_range', ← List.zipIdx_map_snd 0 items, List.map_map]
      simp only [children, List.map_map, Function.comp_def]
    rw [hsteps]
    exact List.nodup_range.map fun _ _ hi => by injection hi
  | _ => simp [children]

theorem DistinctKeys.next?_eq_some_iff {v : Json} (h : v.DistinctKeys) {s : Step} {x : Json} :
    v.next? s = some x ↔ (s, x) ∈ v.children := by
  refine ⟨mem_children_of_next?, fun hmem => ?_⟩
  cases v with
  | object fields =>
    obtain ⟨f, hf, heq⟩ := List.mem_map.1 hmem
    obtain ⟨rfl, rfl⟩ := Prod.mk.inj heq
    -- Names are distinct, so the first field of this name is the field itself.
    obtain ⟨y, hy⟩ : ∃ y, lookup fields f.1 = some y := by
      refine Option.isSome_iff_exists.1 ?_
      rw [lookup, Option.isSome_map, List.find?_isSome]
      exact ⟨f, hf, beq_self_eq_true _⟩
    have hy' : (Step.field f.1, y) ∈ children (.object fields) := mem_children_of_next? hy
    have heq := List.inj_on_of_nodup_map h.nodup_steps hmem hy' rfl
    rw [show f.2 = y from congrArg Prod.snd heq]
    exact hy
  | array items =>
    obtain ⟨x', hx', heq⟩ := List.mem_map.1 hmem
    obtain ⟨rfl, rfl⟩ := Prod.mk.inj heq
    exact List.mem_zipIdx_iff_getElem?.1 hx'
  | _ => simp [children] at hmem

/-! ## Subtrees -/

/-- The subtree at a place. -/
def at? (v : Json) : List Step → Option Json
  | [] => some v
  | s :: p => (v.next? s).bind fun x => x.at? p

@[simp] theorem at?_nil (v : Json) : v.at? [] = some v := rfl

theorem at?_cons (v : Json) (s : Step) (p : List Step) :
    v.at? (s :: p) = (v.next? s).bind fun x => x.at? p := rfl

theorem at?_cons_of_none {v : Json} {s : Step} (h : v.next? s = none) (p : List Step) :
    v.at? (s :: p) = none := by
  rw [at?_cons, h]
  rfl

theorem at?_cons_of_some {v x : Json} {s : Step} (h : v.next? s = some x) (p : List Step) :
    v.at? (s :: p) = x.at? p := by
  rw [at?_cons, h]
  rfl

theorem at?_append (v : Json) (p q : List Step) : v.at? (p ++ q) = (v.at? p).bind fun x => x.at? q := by
  induction p generalizing v with
  | nil => rfl
  | cons s p ih =>
    rw [List.cons_append, at?_cons, at?_cons]
    cases v.next? s with
    | none => rfl
    | some x => exact ih x

/-- All places of a tree in document order, each before those below it. -/
def positions (v : Json) : List (List Step) :=
  [] :: v.children.attach.flatMap fun c => (positions c.1.2).map (c.1.1 :: ·)
termination_by sizeOf v
decreasing_by exact sizeOf_children c.2

theorem positions_eq (v : Json) :
    v.positions = [] :: v.children.flatMap fun c => c.2.positions.map (c.1 :: ·) := by
  rw [positions, List.flatMap_subtype (g := fun c => c.2.positions.map (c.1 :: ·)) fun _ _ => rfl,
    List.unattach_attach]

theorem nil_mem_positions (v : Json) : [] ∈ v.positions := by
  rw [positions_eq]
  exact List.mem_cons_self

theorem cons_mem_positions {v : Json} {s : Step} {p : List Step} :
    s :: p ∈ v.positions ↔ ∃ x, (s, x) ∈ v.children ∧ p ∈ x.positions := by
  rw [positions_eq]
  simp only [List.mem_cons, List.cons_ne_nil, false_or, List.mem_flatMap, List.mem_map]
  constructor
  · rintro ⟨⟨t, x⟩, hc, q, hq, heq⟩
    obtain ⟨rfl, rfl⟩ := List.cons.inj heq
    exact ⟨x, hc, hq⟩
  · rintro ⟨x, hc, hp⟩
    exact ⟨(s, x), hc, p, hp, rfl⟩

/-- The places are those that have a subtree. -/
theorem mem_positions_iff {v : Json} (h : v.DistinctKeys) {p : List Step} :
    p ∈ v.positions ↔ (v.at? p).isSome := by
  induction p generalizing v with
  | nil => simp [nil_mem_positions]
  | cons s p ih =>
    rw [cons_mem_positions, at?_cons]
    constructor
    · rintro ⟨x, hc, hp⟩
      rw [h.next?_eq_some_iff.2 hc]
      exact (ih (h.child hc)).1 hp
    · intro hsome
      obtain ⟨y, hy⟩ := Option.isSome_iff_exists.1 hsome
      obtain ⟨x, hx, hxy⟩ := Option.bind_eq_some_iff.1 hy
      have hc := mem_children_of_next? hx
      exact ⟨x, hc, (ih (h.child hc)).2 (Option.isSome_iff_exists.2 ⟨y, hxy⟩)⟩

theorem nodup_positions {v : Json} (h : v.DistinctKeys) : v.positions.Nodup := by
  rw [positions_eq, List.nodup_cons]
  refine ⟨by simp, List.nodup_flatMap.2 ⟨fun c hc => ?_, ?_⟩⟩
  · exact (nodup_positions (h.child hc)).map fun _ _ heq => List.tail_eq_of_cons_eq heq
  · -- Places below different children start with different steps.
    refine (List.pairwise_map.1 h.nodup_steps).imp fun {b c} hbc p hb hc => ?_
    obtain ⟨q, -, rfl⟩ := List.mem_map.1 hb
    obtain ⟨r, -, heq⟩ := List.mem_map.1 hc
    exact hbc (List.head_eq_of_cons_eq heq).symm
termination_by sizeOf v
decreasing_by exact sizeOf_children hc

end Json

/-! ## Two trees together -/

/-- Two containers of the same kind. -/
inductive Alike : Json → Json → Prop
  | objects (es as : List (String × Json)) : Alike (.object es) (.object as)
  | arrays (es as : List Json) : Alike (.array es) (.array as)

instance (e a : Json) : Decidable (Alike e a) :=
  decidable_of_iff (e.kind = a.kind ∧ (e.kind = .object ∨ e.kind = .array)) (by
    constructor
    · rintro ⟨hkind, h | h⟩ <;> cases e <;> cases a <;> simp_all [Json.kind] <;> constructor
    · rintro (_ | _) <;> simp [Json.kind])

/-- A step that leads down in both trees leads from containers of the same kind. -/
theorem alike_of_next? {e a x y : Json} {s : Step} (hx : (s, x) ∈ e.children) (hy : a.next? s = some y) :
    Alike e a := by
  cases e with
  | object es =>
    obtain ⟨f, -, heq⟩ := List.mem_map.1 hx
    cases heq
    cases a <;> first | exact .objects _ _ | simp [Json.next?] at hy
  | array es =>
    obtain ⟨z, -, heq⟩ := List.mem_map.1 hx
    cases heq
    cases a <;> first | exact .arrays _ _ | simp [Json.next?] at hy
  | _ => simp [Json.children] at hx

/-- Induction along the children that two trees have together. -/
theorem pair_induction {motive : Json → Json → Prop}
    (step : ∀ e a, (∀ s x y, (s, x) ∈ e.children → a.next? s = some y → motive x y) → motive e a)
    (e a : Json) : motive e a :=
  step e a fun _ x y _ _ => pair_induction step x y
termination_by sizeOf e
decreasing_by exact Json.sizeOf_children ‹_›

end Covenant
