import Covenant.Proofs.Generation
import Covenant.Proofs.Resolving

/-!
# Resolved trees beside declared ones

* `TextBecomes`, `Becomes`: what becomes of a string, and of a value, the values below it aside;
* `positions_materialize`, `exists_at?_of_materialize`: a resolved tree has the places of the declared one;
* `isGenerator_of_resolved_iff`: a resolved text is a generator token only if it was an escaped one;
* `settled_materialize_iff`: exactly the escaped generator tokens keep a resolved tree from being settled;
* `materialize_keeps_tree`: what resolving keeps, what it replaces, and when a second time changes nothing.
-/

namespace Covenant

/-! ## What becomes of a value -/

/-- What becomes of a string. A generator token gives way to a value that it may produce. An escape gives way to
the token behind its backslash, the escape of a wildcard only in what is sent. Every other string is left. -/
inductive TextBecomes (role : Role) : String → Json → Prop
  | generated {t : String} {g : Generator} {y : Json} :
      Generator.parse? t = some g → g.Produces y → TextBecomes role t y
  | generator {t : String} : isGenerator t = true → TextBecomes role ("\\" ++ t) (.string t)
  | sentWildcard {t : String} : role = .request → isWildcard t = true → TextBecomes role ("\\" ++ t) (.string t)
  | expectedWildcard {t : String} :
      role = .response → isWildcard t = true → TextBecomes role ("\\" ++ t) (.string ("\\" ++ t))
  | text {t : String} :
      isGenerator t = false → (∀ u, IsToken u → t ≠ "\\" ++ u) → TextBecomes role t (.string t)

/-- What becomes of a value. Objects keep the names of their fields in order, arrays their length. Values other
than strings are left. -/
inductive Becomes (role : Role) : Json → Json → Prop
  | object {fields resolved : List (String × Json)} :
      resolved.map Prod.fst = fields.map Prod.fst → Becomes role (.object fields) (.object resolved)
  | array {items resolved : List Json} :
      resolved.length = items.length → Becomes role (.array items) (.array resolved)
  | text {t : String} {y : Json} : TextBecomes role t y → Becomes role (.string t) y
  | leaf {v : Json} : v.kind ≠ .string ∧ v.kind ≠ .array ∧ v.kind ≠ .object → Becomes role v v

theorem textBecomes_materializeText (role : Role) (t : String) (s : Source) :
    TextBecomes role t (materializeText role t s).1 := by
  rw [materializeText]
  cases hparse : Generator.parse? t with
  | some g => exact .generated hparse (g.produces_generate s)
  | none =>
    rcases escaped?_cases t with ⟨u, hu, rfl, htoken⟩ | ⟨hnone, hno⟩
    · rw [hu]
      by_cases hwild : isWildcard u = true
      · cases role with
        | request => exact .sentWildcard rfl hwild
        | response =>
          simp only [hwild, and_self, if_true]
          exact .expectedWildcard rfl hwild
      · simp only [hwild, Bool.false_eq_true, and_false, if_false]
        exact .generator (htoken.resolve_left hwild)
    · rw [hnone]
      exact .text (by simp [isGenerator, hparse]) hno

theorem becomes_materialize (role : Role) (v : Json) (s : Source) :
    Becomes role v (materialize role v s).1 := by
  cases v with
  | string t => exact .text (textBecomes_materializeText role t s)
  | array items => exact .array (forall₂_materializeItems role items s).length_eq.symm
  | object fields => exact .object (map_fst_materializeFields role fields s)
  | _ => exact .leaf ⟨nofun, nofun, nofun⟩

/-- A generated text is no token. -/
theorem Generator.not_isToken_of_generate {g : Generator} {s : Source} {t : String}
    (h : (g.generate s).1 = .string t) : ¬ IsToken t := by
  have hplain := Generator.generate_plain h
  intro htoken
  cases htoken with
  | inl hwild =>
    obtain ⟨w, hw⟩ := Option.isSome_iff_exists.1 hwild
    apply hplain.1
    rw [Wildcard.parse?_eq_some_iff.1 hw]
    cases w <;> rfl
  | inr hgen => simp [hplain.isGenerator_eq_false] at hgen

/-! ## Places -/

theorem forall₂_zipIdx {α β : Type} {R : α → β → Prop} {xs : List α} {ys : List β}
    (h : List.Forall₂ R xs ys) (n : Nat) :
    List.Forall₂ (fun x y => x.2 = y.2 ∧ R x.1 y.1) (xs.zipIdx n) (ys.zipIdx n) := by
  induction h generalizing n with
  | nil => exact .nil
  | cons hxy _ ih => exact .cons ⟨rfl, hxy⟩ (ih (n + 1))

/-- Each child of the result is what a child became, behind the same step. -/
theorem forall₂_children_materialize (role : Role) (v : Json) (s : Source) :
    List.Forall₂ (fun c d => c.1 = d.1 ∧ ∃ s', (materialize role c.2 s').1 = d.2) v.children
      (materialize role v s).1.children := by
  cases v with
  | string t =>
    change List.Forall₂ _ [] (materializeText role t s).1.children
    rcases materializeText_kind role t s with ⟨u, hu⟩ | hkind
    · rw [hu]
      exact .nil
    · cases hv : (materializeText role t s).1 <;> rw [hv] at hkind
      all_goals first | exact .nil | simp [Json.kind] at hkind
  | array items =>
    change List.Forall₂ _ (items.zipIdx.map _) ((materializeItems role items s).1.zipIdx.map _)
    rw [List.forall₂_map_left_iff, List.forall₂_map_right_iff]
    refine (forall₂_zipIdx (forall₂_materializeItems role items s) 0).imp ?_
    intro x y h
    exact ⟨congrArg Step.index h.1, h.2⟩
  | object fields =>
    change List.Forall₂ _ (fields.map _) ((materializeFields role fields s).1.map _)
    rw [List.forall₂_map_left_iff, List.forall₂_map_right_iff]
    refine (forall₂_materializeFields role fields s).imp ?_
    intro f g h
    exact ⟨congrArg Step.field h.1, h.2⟩
  | _ => exact .nil

theorem positions_materialize (role : Role) (v : Json) (s : Source) :
    (materialize role v s).1.positions = v.positions := by
  induction v using Json.child_induction generalizing s with
  | step v ih =>
    let below (c : Step × Json) := c.2.positions.map (c.1 :: ·)
    have hchildren : (materialize role v s).1.children.map below = v.children.map below := by
      have hsame := (List.forall₂_and_left _ _).2 ⟨ih, forall₂_children_materialize role v s⟩
      rw [← List.forall₂_eq_eq_eq, List.forall₂_map_left_iff, List.forall₂_map_right_iff]
      refine hsame.flip.imp ?_
      intro d c h
      obtain ⟨hpositions, hstep, s', hs'⟩ := h
      show d.2.positions.map (d.1 :: ·) = c.2.positions.map (c.1 :: ·)
      rw [← hs', hpositions, hstep]
    rw [Json.positions_eq, Json.positions_eq, List.flatMap_def, List.flatMap_def, hchildren]

theorem exists_next?_of_mem_children {v x : Json} {step : Step} (h : (step, x) ∈ v.children) :
    ∃ y, v.next? step = some y := by
  cases v with
  | object fields =>
    obtain ⟨f, hf, heq⟩ := List.mem_map.1 h
    cases heq
    cases hlookup : Json.lookup fields f.1 with
    | some y => exact ⟨y, hlookup⟩
    | none =>
      have hnone := List.find?_eq_none.1 (Option.map_eq_none_iff.1 hlookup) f hf
      simp at hnone
  | array items =>
    obtain ⟨y, hy, heq⟩ := List.mem_map.1 h
    cases heq
    exact ⟨y.1, List.mem_zipIdx_iff_getElem?.1 hy⟩
  | _ => cases h

/-- What stands at a place of the resolved tree is what stood there, resolved. -/
theorem exists_at?_of_materialize {role : Role} {v y : Json} {s : Source} {p : List Step}
    (h : (materialize role v s).1.at? p = some y) :
    ∃ x s', v.at? p = some x ∧ y = (materialize role x s').1 := by
  induction p generalizing v s with
  | nil =>
    cases h
    exact ⟨v, s, rfl, rfl⟩
  | cons step p ih =>
    obtain ⟨w, hw, hy⟩ := Option.bind_eq_some_iff.1 h
    have hmem := Json.mem_children_of_next? hw
    obtain ⟨⟨_, x⟩, hc, rfl, -⟩ := exists_of_mem_right (forall₂_children_materialize role v s) hmem
    obtain ⟨x, hx⟩ := exists_next?_of_mem_children hc
    obtain ⟨s', hs'⟩ := next?_materialize hx s
    rw [hw] at hs'
    cases hs'
    obtain ⟨z, s'', hz, heq⟩ := ih hy
    exact ⟨z, s'', (Json.at?_cons_of_some hx p).trans hz, heq⟩

/-! ## Tokens in a resolved tree -/

theorem materializeText_escapedGenerator (role : Role) {t : String} (h : isGenerator t = true) (s : Source) :
    materializeText role ("\\" ++ t) s = (.string t, s) := by
  have hnone : Generator.parse? ("\\" ++ t) = none := by
    cases hparse : Generator.parse? ("\\" ++ t) with
    | none => rfl
    | some g =>
      have hhead := head?_of_isGenerator (t := "\\" ++ t) (by simp [isGenerator, hparse])
      rw [String.toList_append] at hhead
      cases hhead
  have hwild : isWildcard t = false := Bool.eq_false_iff.2 fun hw => by
    simp [isGenerator_eq_false_of_isWildcard hw] at h
  rw [materializeText, hnone, escaped?_eq_some_iff.2 ⟨rfl, .inr h⟩]
  simp only [hwild, Bool.false_eq_true, and_false, if_false]
  rfl

/-- Generator tokens come out of their escapes and out of nothing else. -/
theorem isGenerator_of_resolved_iff {role : Role} {x : Json} {s : Source} {t : String} :
    (materialize role x s).1 = .string t ∧ isGenerator t = true ↔
      x = .string ("\\" ++ t) ∧ isGenerator t = true := by
  constructor
  · intro h
    obtain ⟨htext, hgen⟩ := h
    refine ⟨?_, hgen⟩
    cases x with
    | string u =>
      by_cases hesc : IsEscapedGenerator u
      · obtain ⟨v, rfl, hv⟩ := hesc
        rw [materialize, materializeText_escapedGenerator role hv] at htext
        cases htext
        rfl
      · have hinert := (inert_of_resolved hesc htext).1
        simp [hgen] at hinert
    | _ => cases htext
  · rintro ⟨rfl, hgen⟩
    exact ⟨congrArg Prod.fst (materializeText_escapedGenerator role hgen s), hgen⟩

theorem Json.HasText.materialize_escapedGenerator {v : Json} {t u : String} (h : v.HasText u)
    (hu : u = "\\" ++ t) (ht : isGenerator t = true) (role : Role) (s : Source) :
    (materialize role v s).1.HasText t := by
  induction h generalizing s with
  | here u =>
    rw [hu, materialize, materializeText_escapedGenerator role ht]
    exact .here t
  | @child v _ _ hc _ ih =>
    have hchildren := (forall₂_children_materialize role v s).flip
    obtain ⟨d, hd, -, s', hs'⟩ := exists_of_mem_right hchildren hc
    exact .child hd (hs' ▸ ih hu s')

/-- Exactly the escaped generator tokens keep a resolved tree from being settled. -/
theorem settled_materialize_iff {role : Role} {v : Json} {s : Source} :
    Settled role (materialize role v s).1 ↔ ∀ t, v.HasText t → ¬ IsEscapedGenerator t := by
  constructor
  · intro hsettled t ht hesc
    obtain ⟨u, hu, hgen⟩ := hesc
    have hinert := (hsettled u (ht.materialize_escapedGenerator hu hgen role s)).1
    simp [hgen] at hinert
  · intro h
    exact settled_materialize h s

/-! ## Resolving a tree -/

/-- Resolving keeps the tree, whatever is drawn: the same places, and at each of them what becomes of the value
that stood there. Generator tokens are left where escaped ones stood, and nowhere else; the value that is generated
for one is no token. Resolving again changes nothing exactly if there were no escaped generator tokens. -/
theorem materialize_keeps_tree (role : Role) (v : Json) (s : Source) :
    let w := (materialize role v s).1
    w.positions = v.positions ∧
    (∀ p x, v.at? p = some x → ∃ y, w.at? p = some y ∧ Becomes role x y) ∧
    (∀ p, (∃ t, w.at? p = some (.string t) ∧ isGenerator t = true) ↔
      ∃ t, v.at? p = some (.string t) ∧ IsEscapedGenerator t) ∧
    (∀ p t g, v.at? p = some (.string t) → Generator.parse? t = some g →
      ∃ y, w.at? p = some y ∧ g.Produces y ∧ ∀ u, y = .string u → ¬ IsToken u) ∧
    ∀ s', ((materialize role w s').1 = w ↔ ∀ t, v.HasText t → ¬ IsEscapedGenerator t) := by
  intro w
  refine ⟨positions_materialize role v s, ?_, ?_, ?_, ?_⟩
  · intro p x hx
    obtain ⟨s', hs'⟩ := at?_materialize role hx s
    exact ⟨_, hs', becomes_materialize role x s'⟩
  · intro p
    constructor
    · intro h
      obtain ⟨t, ht, hgen⟩ := h
      obtain ⟨x, s', hx, heq⟩ := exists_at?_of_materialize ht
      obtain ⟨rfl, -⟩ := isGenerator_of_resolved_iff.1 ⟨heq.symm, hgen⟩
      exact ⟨_, hx, t, rfl, hgen⟩
    · intro h
      obtain ⟨_, hx, t, rfl, hgen⟩ := h
      obtain ⟨s', hs'⟩ := at?_materialize role hx s
      refine ⟨t, ?_, hgen⟩
      rw [hs', (isGenerator_of_resolved_iff.2 ⟨rfl, hgen⟩).1]
  · intro p t g hx hparse
    obtain ⟨s', hs'⟩ := at?_materialize role hx s
    have hgenerated : (materialize role (.string t) s').1 = (g.generate s').1 := by
      rw [materialize, materializeText, hparse]
    rw [hgenerated] at hs'
    refine ⟨_, hs', g.produces_generate s', ?_⟩
    intro u hu
    exact Generator.not_isToken_of_generate hu
  · intro s'
    rw [materialize_eq_self_iff, settled_materialize_iff]

end Covenant
