import Covenant.Proofs.Places
import Covenant.Proofs.Tokens

/-!
# Resolving the tokens of a tree

* `Json.HasText`: the strings that stand somewhere in a tree as values, names of fields aside;
* `Settled`: a tree that consists of inert strings;
* `materialize_eq_self_iff`: resolving leaves exactly the settled trees as they are;
* `at?_materialize`: each place of a resolved tree holds what stood there, resolved;
* `hasText_materialize`: each string of a resolved tree comes from one of the declared tree;
* `inert_of_resolved`: what a string becomes is inert, unless it was an escaped generator token.
-/

namespace Covenant

/-! ## Strings in a tree -/

theorem Json.child_induction {motive : Json → Prop}
    (step : ∀ v, (∀ c ∈ v.children, motive c.2) → motive v) (v : Json) : motive v :=
  step v fun c _ => child_induction step c.2
termination_by sizeOf v
decreasing_by exact Json.sizeOf_children ‹_›

/-- A string that stands somewhere in a tree as a value. -/
inductive Json.HasText : Json → String → Prop
  | here (t : String) : HasText (.string t) t
  | child {v : Json} {c : Step × Json} {t : String} : c ∈ v.children → HasText c.2 t → HasText v t

namespace Json

@[simp] theorem hasText_string {s t : String} : HasText (.string s) t ↔ t = s := by
  constructor
  · rintro (_ | ⟨hc, -⟩)
    · rfl
    · cases hc
  · rintro rfl
    exact .here t

@[simp] theorem hasText_array {items : List Json} {t : String} :
    HasText (.array items) t ↔ ∃ v ∈ items, v.HasText t := by
  constructor
  · rintro (_ | ⟨hc, ht⟩)
    obtain ⟨x, hx, rfl⟩ := List.mem_map.1 hc
    exact ⟨x.1, List.fst_mem_of_mem_zipIdx hx, ht⟩
  · rintro ⟨v, hv, ht⟩
    obtain ⟨i, hi⟩ := List.mem_iff_getElem?.1 hv
    exact .child (mem_children_of_next? (s := .index i) hi) ht

@[simp] theorem hasText_object {fields : List (String × Json)} {t : String} :
    HasText (.object fields) t ↔ ∃ f ∈ fields, f.2.HasText t := by
  constructor
  · rintro (_ | ⟨hc, ht⟩)
    obtain ⟨f, hf, rfl⟩ := List.mem_map.1 hc
    exact ⟨f, hf, ht⟩
  · rintro ⟨f, hf, ht⟩
    exact .child (List.mem_map.2 ⟨f, hf, rfl⟩) ht

theorem not_hasText_of_kind {v : Json} {t : String}
    (h : v.kind ≠ .string ∧ v.kind ≠ .array ∧ v.kind ≠ .object) : ¬ v.HasText t := by
  rintro (_ | ⟨hc, -⟩)
  · exact h.1 rfl
  · cases v with
    | array => exact h.2.1 rfl
    | object => exact h.2.2 rfl
    | _ => cases hc

end Json

/-! ## Settled trees -/

/-- A tree of strings that resolving leaves as they are. -/
def Settled (role : Role) (v : Json) : Prop := ∀ t, v.HasText t → Inert role t

theorem settled_array_iff {role : Role} {items : List Json} :
    Settled role (.array items) ↔ ∀ v ∈ items, Settled role v := by
  simp only [Settled, Json.hasText_array]
  exact ⟨fun h v hv t ht => h t ⟨v, hv, ht⟩, fun h t ⟨v, hv, ht⟩ => h v hv t ht⟩

theorem settled_object_iff {role : Role} {fields : List (String × Json)} :
    Settled role (.object fields) ↔ ∀ f ∈ fields, Settled role f.2 := by
  simp only [Settled, Json.hasText_object]
  exact ⟨fun h f hf t ht => h t ⟨f, hf, ht⟩, fun h t ⟨f, hf, ht⟩ => h f hf t ht⟩

/-! ## Items and fields one after the other -/

theorem materializeItems_cons (role : Role) (v : Json) (vs : List Json) (s : Source) :
    materializeItems role (v :: vs) s =
      ((materialize role v s).1 :: (materializeItems role vs (materialize role v s).2).1,
        (materializeItems role vs (materialize role v s).2).2) := rfl

theorem materializeFields_cons (role : Role) (k : String) (v : Json) (fs : List (String × Json))
    (s : Source) :
    materializeFields role ((k, v) :: fs) s =
      ((k, (materialize role v s).1) :: (materializeFields role fs (materialize role v s).2).1,
        (materializeFields role fs (materialize role v s).2).2) := rfl

theorem materialize_array (role : Role) (items : List Json) (s : Source) :
    materialize role (.array items) s =
      (.array (materializeItems role items s).1, (materializeItems role items s).2) := rfl

theorem materialize_object (role : Role) (fields : List (String × Json)) (s : Source) :
    materialize role (.object fields) s =
      (.object (materializeFields role fields s).1, (materializeFields role fields s).2) := rfl

theorem materializeItems_eq_self {role : Role} {vs : List Json}
    (h : ∀ v ∈ vs, ∀ s, materialize role v s = (v, s)) (s : Source) :
    materializeItems role vs s = (vs, s) := by
  induction vs with
  | nil => rfl
  | cons v vs ih =>
    rw [materializeItems_cons, h v List.mem_cons_self]
    dsimp only
    rw [ih fun w hw => h w (List.mem_cons_of_mem v hw)]

theorem materializeFields_eq_self {role : Role} {fs : List (String × Json)}
    (h : ∀ f ∈ fs, ∀ s, materialize role f.2 s = (f.2, s)) (s : Source) :
    materializeFields role fs s = (fs, s) := by
  induction fs with
  | nil => rfl
  | cons f fs ih =>
    obtain ⟨k, v⟩ := f
    rw [materializeFields_cons, h (k, v) List.mem_cons_self]
    dsimp only
    rw [ih fun g hg => h g (List.mem_cons_of_mem _ hg)]

/-- Each item of the result is what an item became. -/
theorem forall₂_materializeItems (role : Role) (vs : List Json) (s : Source) :
    List.Forall₂ (fun v w => ∃ s', (materialize role v s').1 = w) vs (materializeItems role vs s).1 := by
  induction vs generalizing s with
  | nil => exact .nil
  | cons v vs ih =>
    rw [materializeItems_cons]
    exact .cons ⟨s, rfl⟩ (ih _)

/-- Each field of the result is what a field became, under its name. -/
theorem forall₂_materializeFields (role : Role) (fs : List (String × Json)) (s : Source) :
    List.Forall₂ (fun f g => f.1 = g.1 ∧ ∃ s', (materialize role f.2 s').1 = g.2) fs
      (materializeFields role fs s).1 := by
  induction fs generalizing s with
  | nil => exact .nil
  | cons f fs ih =>
    obtain ⟨k, v⟩ := f
    rw [materializeFields_cons]
    exact .cons ⟨rfl, s, rfl⟩ (ih _)

theorem map_fst_materializeFields (role : Role) (fs : List (String × Json)) (s : Source) :
    (materializeFields role fs s).1.map Prod.fst = fs.map Prod.fst := by
  induction fs generalizing s with
  | nil => rfl
  | cons f fs ih =>
    rw [materializeFields_cons, List.map_cons, List.map_cons, ih]

theorem exists_of_mem_right {α β : Type} {R : α → β → Prop} {xs : List α} {ys : List β}
    (h : List.Forall₂ R xs ys) {y : β} (hy : y ∈ ys) : ∃ x ∈ xs, R x y := by
  induction h with
  | nil => cases hy
  | cons hxy _ ih =>
    rcases List.mem_cons.1 hy with rfl | hy
    · exact ⟨_, List.mem_cons_self, hxy⟩
    · obtain ⟨x, hx, hR⟩ := ih hy
      exact ⟨x, List.mem_cons_of_mem _ hx, hR⟩

/-! ## Trees that are left as they are -/

theorem materialize_eq_self {role : Role} {v : Json} (h : Settled role v) (s : Source) :
    materialize role v s = (v, s) := by
  induction v using Json.child_induction generalizing s with
  | step v ih =>
    cases v with
    | string t => exact materializeText_eq_self (h t (.here t)) s
    | array items =>
      rw [materialize_array, materializeItems_eq_self]
      intro v hv s'
      obtain ⟨i, hi⟩ := List.mem_iff_getElem?.1 hv
      exact ih (.index i, v) (Json.mem_children_of_next? hi) (settled_array_iff.1 h v hv) s'
    | object fields =>
      rw [materialize_object, materializeFields_eq_self]
      intro f hf s'
      exact ih (.field f.1, f.2) (List.mem_map.2 ⟨f, hf, rfl⟩) (settled_object_iff.1 h f hf) s'
    | _ => rfl

theorem settled_of_materialize {role : Role} {v : Json} {s : Source} (h : (materialize role v s).1 = v) :
    Settled role v := by
  induction v using Json.child_induction generalizing s with
  | step v ih =>
    cases v with
    | string t =>
      intro u hu
      rw [Json.hasText_string.1 hu]
      exact inert_of_materializeText h
    | array items =>
      have hitems := forall₂_materializeItems role items s
      rw [show (materializeItems role items s).1 = items from Json.array.inj h] at hitems
      refine settled_array_iff.2 fun v hv => ?_
      obtain ⟨s', hs'⟩ := List.forall₂_same.1 hitems v hv
      obtain ⟨i, hi⟩ := List.mem_iff_getElem?.1 hv
      exact ih (.index i, v) (Json.mem_children_of_next? hi) hs'
    | object fields =>
      have hfields := forall₂_materializeFields role fields s
      rw [show (materializeFields role fields s).1 = fields from Json.object.inj h] at hfields
      refine settled_object_iff.2 fun f hf => ?_
      obtain ⟨-, s', hs'⟩ := List.forall₂_same.1 hfields f hf
      exact ih (.field f.1, f.2) (List.mem_map.2 ⟨f, hf, rfl⟩) hs'
    | _ => exact fun t ht => absurd ht (Json.not_hasText_of_kind ⟨nofun, nofun, nofun⟩)

/-- Resolving leaves exactly the settled trees as they are. -/
theorem materialize_eq_self_iff {role : Role} {v : Json} (s : Source) :
    (materialize role v s).1 = v ↔ Settled role v :=
  ⟨settled_of_materialize, fun h => by rw [materialize_eq_self h]⟩

/-! ## Resolved trees -/

/-- A string becomes a string, a number or a truth value. -/
theorem materializeText_kind (role : Role) (t : String) (s : Source) :
    (∃ u, (materializeText role t s).1 = .string u) ∨
      (materializeText role t s).1.kind = .number ∨ (materializeText role t s).1.kind = .boolean := by
  rw [materializeText]
  cases Generator.parse? t with
  | some g =>
    cases g with
    | string n hn => exact .inl ⟨_, rfl⟩
    | number b => exact .inr (.inl rfl)
    | bool => exact .inr (.inr rfl)
    | uuid => exact .inl ⟨_, rfl⟩
  | none =>
    cases escaped? t with
    | some u => exact .inl ⟨_, rfl⟩
    | none => exact .inl ⟨_, rfl⟩

/-! ## Places in a resolved tree -/

theorem lookup_materializeFields {role : Role} {fs : List (String × Json)} {key : String} {x : Json}
    (h : Json.lookup fs key = some x) (s : Source) :
    ∃ s', Json.lookup (materializeFields role fs s).1 key = some (materialize role x s').1 := by
  induction fs generalizing s with
  | nil => cases h
  | cons f fs ih =>
    obtain ⟨k, v⟩ := f
    rw [materializeFields_cons]
    by_cases hk : k = key
    · subst hk
      rw [Json.lookup_cons_self] at h
      cases h
      exact ⟨s, Json.lookup_cons_self k _ _⟩
    · rw [Json.lookup_cons_of_ne hk] at h
      obtain ⟨s', hs'⟩ := ih h (materialize role v s).2
      exact ⟨s', (Json.lookup_cons_of_ne hk _ _).trans hs'⟩

theorem getElem?_materializeItems {role : Role} {vs : List Json} {i : Nat} {x : Json}
    (h : vs[i]? = some x) (s : Source) :
    ∃ s', (materializeItems role vs s).1[i]? = some (materialize role x s').1 := by
  induction vs generalizing i s with
  | nil => cases h
  | cons v vs ih =>
    rw [materializeItems_cons]
    cases i with
    | zero =>
      cases h
      exact ⟨s, rfl⟩
    | succ i => exact ih h (materialize role v s).2

theorem next?_materialize {role : Role} {v x : Json} {step : Step} (h : v.next? step = some x)
    (s : Source) : ∃ s', (materialize role v s).1.next? step = some (materialize role x s').1 := by
  cases v with
  | object fields =>
    cases step with
    | field key => exact lookup_materializeFields h s
    | index i => cases h
  | array items =>
    cases step with
    | field key => cases h
    | index i => exact getElem?_materializeItems h s
  | _ => cases step <;> cases h

/-- What stands at a place of the resolved tree is what stood there, resolved. -/
theorem at?_materialize (role : Role) {v x : Json} {p : List Step} (h : v.at? p = some x) (s : Source) :
    ∃ s', (materialize role v s).1.at? p = some (materialize role x s').1 := by
  induction p generalizing v s with
  | nil =>
    cases h
    exact ⟨s, rfl⟩
  | cons step p ih =>
    obtain ⟨y, hy, hx⟩ := Option.bind_eq_some_iff.1 h
    obtain ⟨s', hs'⟩ := next?_materialize hy s
    obtain ⟨s'', hs''⟩ := ih hx s'
    exact ⟨s'', (Json.at?_cons_of_some hs' p).trans hs''⟩

/-- Each string of a resolved tree is what a string of the declared tree became. -/
theorem hasText_materialize {role : Role} {v : Json} {s : Source} {t : String}
    (h : (materialize role v s).1.HasText t) :
    ∃ u s', v.HasText u ∧ (materializeText role u s').1 = .string t := by
  induction v using Json.child_induction generalizing s with
  | step v ih =>
    cases v with
    | string u =>
      refine ⟨u, s, .here u, ?_⟩
      change (materializeText role u s).1.HasText t at h
      rcases materializeText_kind role u s with ⟨w, hw⟩ | hkind
      · rw [hw] at h ⊢
        rw [Json.hasText_string.1 h]
      · refine absurd h (Json.not_hasText_of_kind ?_)
        rcases hkind with hk | hk <;> rw [hk] <;> exact ⟨nofun, nofun, nofun⟩
    | array items =>
      obtain ⟨w, hw, ht⟩ := Json.hasText_array.1 h
      obtain ⟨v, hv, s', rfl⟩ := exists_of_mem_right (forall₂_materializeItems role items s) hw
      obtain ⟨i, hi⟩ := List.mem_iff_getElem?.1 hv
      obtain ⟨u, s'', hu, hres⟩ := ih (.index i, v) (Json.mem_children_of_next? hi) ht
      exact ⟨u, s'', Json.hasText_array.2 ⟨v, hv, hu⟩, hres⟩
    | object fields =>
      obtain ⟨g, hg, ht⟩ := Json.hasText_object.1 h
      obtain ⟨f, hf, -, s', hs'⟩ := exists_of_mem_right (forall₂_materializeFields role fields s) hg
      rw [← hs'] at ht
      obtain ⟨u, s'', hu, hres⟩ := ih (.field f.1, f.2) (List.mem_map.2 ⟨f, hf, rfl⟩) ht
      exact ⟨u, s'', Json.hasText_object.2 ⟨f, hf, hu⟩, hres⟩
    | _ => exact absurd h (Json.not_hasText_of_kind ⟨nofun, nofun, nofun⟩)

/-- Resolving makes null of nothing else. -/
theorem materialize_eq_null_iff {role : Role} {v : Json} {s : Source} :
    (materialize role v s).1 = .null ↔ v = .null := by
  constructor
  · intro h
    cases v with
    | null => rfl
    | string t =>
      change (materializeText role t s).1 = .null at h
      rcases materializeText_kind role t s with ⟨u, hu⟩ | hkind
      · rw [hu] at h
        cases h
      · rw [h] at hkind
        rcases hkind with hk | hk <;> cases hk
    | _ => cases h
  · rintro rfl
    rfl

/-- Resolving keeps the names of fields. -/
theorem distinctKeys_materialize {role : Role} {v : Json} (h : v.DistinctKeys) (s : Source) :
    (materialize role v s).1.DistinctKeys := by
  induction v using Json.child_induction generalizing s with
  | step v ih =>
    cases v with
    | string t =>
      change (materializeText role t s).1.DistinctKeys
      rcases materializeText_kind role t s with ⟨u, hu⟩ | hkind
      · rw [hu]
        trivial
      · cases hv : (materializeText role t s).1 <;> rw [hv] at hkind
        all_goals first | trivial | (rcases hkind with hk | hk <;> cases hk)
    | array items =>
      refine Json.distinctKeysItems_iff.2 fun w hw => ?_
      obtain ⟨v, hv, s', rfl⟩ := exists_of_mem_right (forall₂_materializeItems role items s) hw
      obtain ⟨i, hi⟩ := List.mem_iff_getElem?.1 hv
      exact ih (.index i, v) (Json.mem_children_of_next? hi) (Json.distinctKeysItems_iff.1 h v hv) s'
    | object fields =>
      have hfields := forall₂_materializeFields role fields s
      have hnames := map_fst_materializeFields role fields s
      refine ⟨by rw [hnames]; exact h.1, Json.distinctKeysFields_iff.2 fun g hg => ?_⟩
      obtain ⟨f, hf, -, s', hs'⟩ := exists_of_mem_right hfields hg
      rw [← hs']
      exact ih (.field f.1, f.2) (List.mem_map.2 ⟨f, hf, rfl⟩) (Json.distinctKeysFields_iff.1 h.2 f hf) s'
    | _ => trivial

/-- An escaped generator token. -/
def IsEscapedGenerator (t : String) : Prop := ∃ u, t = "\\" ++ u ∧ isGenerator u = true

/-- What a string becomes is inert, unless the string is an escaped generator token. -/
theorem inert_of_resolved {role : Role} {t u : String} {s : Source} (ht : ¬ IsEscapedGenerator t)
    (h : (materializeText role t s).1 = .string u) : Inert role u := by
  rw [materializeText] at h
  cases hgen : Generator.parse? t with
  | some g =>
    rw [hgen] at h
    have hplain := Generator.generate_plain h
    exact ⟨hplain.isGenerator_eq_false, fun v hv => absurd hv (hplain.ne_backslash v)⟩
  | none =>
    rw [hgen] at h
    rcases escaped?_cases t with ⟨v, hv, rfl, htoken⟩ | ⟨hnone, hno⟩
    · have hgenerator : isGenerator v = false := Bool.eq_false_iff.2 fun hg => ht ⟨v, rfl, hg⟩
      have hwild : isWildcard v = true := htoken.resolve_right (by simp [hgenerator])
      rw [hv] at h
      have htext : (if role = .response ∧ isWildcard v = true then "\\" ++ v else v) = u :=
        Json.string.inj h
      cases role with
      | request =>
        rw [if_neg (by simp)] at htext
        rw [← htext]
        refine ⟨hgenerator, fun w hw => ?_⟩
        obtain ⟨x, hx⟩ := Option.isSome_iff_exists.1 hwild
        rw [Wildcard.parse?_eq_some_iff.1 hx] at hw
        exact absurd hw.symm (escape_ne_label w x)
      | response =>
        rw [if_pos ⟨rfl, hwild⟩] at htext
        rw [← htext]
        refine ⟨by simp [isGenerator, hgen], fun w hw => ?_⟩
        rw [← (String.append_right_inj "\\").1 hw]
        exact hgenerator
    · rw [hnone] at h
      rw [← show t = u from Json.string.inj h]
      refine ⟨by simp [isGenerator, hgen], fun w hw => ?_⟩
      have hw : ¬ IsToken w := fun htoken => hno w htoken hw
      cases role with
      | request => exact hw
      | response => exact Bool.eq_false_iff.2 fun hg => hw (.inr hg)

/-- A tree without escaped generator tokens becomes a settled one. -/
theorem settled_materialize {role : Role} {v : Json} (h : ∀ t, v.HasText t → ¬ IsEscapedGenerator t)
    (s : Source) : Settled role (materialize role v s).1 := by
  intro t ht
  obtain ⟨u, s', hu, hres⟩ := hasText_materialize ht
  exact inert_of_resolved (h u hu) hres

end Covenant
