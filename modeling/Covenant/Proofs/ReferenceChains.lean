import Covenant.Proofs.SchemaForms
import Mathlib.Data.List.Nodup
import Mathlib.Data.List.Perm.Subperm

/-!
# Chains of references

A reference leads to a value that may be a reference again. Following them ends, since each one is followed
once at most, and there are only those of the value and of the document.

* `OpenApi.mem_allReferences_inside`, `OpenApi.mem_allReferences_behind`: what can be met on the way from a
  part of a schema or from a target can be met on the way from the schema;
* `OpenApi.Resolves`: a reference is local and leads to a value;
* `OpenApi.Chain`: the references followed from one value to another;
* `OpenApi.Finish`: what a chain comes to, and `OpenApi.deref_eq_iff`: this is what is found behind a value.
-/

namespace Covenant

/-! ## References in a tree -/

namespace Json

theorem mem_referencesItems {items : List Json} {r : String} :
    r ∈ referencesItems items ↔ ∃ v ∈ items, r ∈ v.references := by
  induction items with
  | nil => simp [referencesItems]
  | cons v vs ih => simp [referencesItems, ih]

theorem mem_referencesFields {fields : List (String × Json)} {r : String} :
    r ∈ referencesFields fields ↔ ∃ f ∈ fields, r ∈ referenceField f.1 f.2 ∨ r ∈ f.2.references := by
  induction fields with
  | nil => simp [referencesFields]
  | cons f fs ih => simp [referencesFields, ih, or_assoc]

theorem mem_references_item {items : List Json} {v : Json} {r : String} (hv : v ∈ items)
    (hr : r ∈ v.references) : r ∈ (Json.array items).references := by
  rw [references]
  exact mem_referencesItems.2 ⟨v, hv, hr⟩

theorem mem_references_field {fields : List (String × Json)} {f : String × Json} {r : String} (hf : f ∈ fields)
    (hr : r ∈ f.2.references) : r ∈ (Json.object fields).references := by
  rw [references]
  exact mem_referencesFields.2 ⟨f, hf, .inr hr⟩

theorem exists_mem_of_lookup {fields : List (String × Json)} {key : String} {v : Json}
    (h : lookup fields key = some v) : (key, v) ∈ fields := by
  obtain ⟨f, hf, rfl⟩ := Option.map_eq_some_iff.1 h
  have hkey : f.1 = key := by simpa using List.find?_some hf
  subst hkey
  exact List.mem_of_find?_eq_some hf

theorem mem_references_get? {v w : Json} {key r : String} (hget : v.get? key = some w)
    (hr : r ∈ w.references) : r ∈ v.references := by
  cases v with
  | object fields => exact mem_references_field (exists_mem_of_lookup hget) hr
  | _ => cases hget

theorem mem_references_child? {v w : Json} {name : List Char} {r : String} (hchild : v.child? name = some w)
    (hr : r ∈ w.references) : r ∈ v.references := by
  cases v with
  | object fields => exact mem_references_field (exists_mem_of_lookup hchild) hr
  | array items =>
    obtain ⟨i, -, hi⟩ := Option.bind_eq_some_iff.1 hchild
    exact mem_references_item (List.mem_of_getElem? hi) hr
  | _ => cases hchild

theorem mem_references_pointer? {v w : Json} {pointer : List Char} {r : String}
    (hpointer : v.pointer? pointer = some w) (hr : r ∈ w.references) : r ∈ v.references := by
  unfold Json.pointer? at hpointer
  split at hpointer
  · cases hpointer
    exact hr
  · rename_i cs
    generalize Text.splitAt '/' cs = names at hpointer
    induction names generalizing v with
    | nil =>
      cases hpointer
      exact hr
    | cons name names ih =>
      rw [List.foldlM_cons] at hpointer
      obtain ⟨x, hx, hpointer⟩ := Option.bind_eq_some_iff.1 hpointer
      exact mem_references_child? hx (ih hpointer)
  · cases hpointer

theorem mem_references_of_reference? {v : Json} {r : String} (h : v.reference? = some r) :
    r ∈ v.references := by
  obtain ⟨w, hw, hr⟩ := Option.bind_eq_some_iff.1 h
  cases v with
  | object fields =>
    cases w with
    | string s =>
      cases hr
      rw [references]
      refine mem_referencesFields.2 ⟨_, exists_mem_of_lookup hw, .inl ?_⟩
      simp [referenceField]
    | _ => cases hr
  | _ => cases hw

end Json

namespace OpenApi

/-! ## References that lead to a value -/

/-- A reference is local, and its pointer leads to a value of the document. -/
def Resolves (doc : Json) (r : String) (v : Json) : Prop :=
  ∃ pointer, r.toList = '#' :: pointer ∧ doc.pointer? pointer = some v

theorem target_eq_ok_iff {doc v : Json} {r : String} : target doc r = .ok v ↔ Resolves doc r v := by
  rw [target]
  constructor
  · intro h
    split at h
    · rename_i pointer hr
      split at h
      · rename_i w hw
        cases h
        exact ⟨pointer, hr, hw⟩
      · cases h
    · cases h
  · rintro ⟨pointer, hr, hv⟩
    rw [hr]
    simp only [hv]

theorem Resolves.unique {doc v w : Json} {r : String} (hv : Resolves doc r v) (hw : Resolves doc r w) : v = w := by
  rw [← target_eq_ok_iff] at hv hw
  rw [hv] at hw
  exact Except.ok.inj hw

/-- The error of a reference that leads nowhere names the reference and is no error of a circle. -/
theorem not_circular_of_target {doc : Json} {r r' : String} {e : ContractError} (h : target doc r = .error e) :
    e ≠ .invalidField documentName r' .circularReference := by
  rw [target] at h
  split at h
  · split at h
    · cases h
    · cases h
      intro hsame
      cases hsame
  · cases h
    intro hsame
    cases hsame

/-! ## References that can be met -/

theorem mem_allReferences_of_reference? {doc v : Json} {r : String} (h : v.reference? = some r) :
    r ∈ allReferences doc v :=
  List.mem_append_left _ (Json.mem_references_of_reference? h)

theorem mem_allReferences_inside {doc schema v : Json} {r : String} (h : Inside schema v)
    (hr : r ∈ allReferences doc v) : r ∈ allReferences doc schema := by
  rcases List.mem_append.1 hr with hr | hr
  · refine List.mem_append_left _ ?_
    have hspec := formOf_spec schema
    cases h with
    | part hform hv =>
      rw [hform] at hspec
      exact Json.mem_references_get? hspec (Json.mem_references_item hv hr)
    | alternative hform =>
      rw [hform] at hspec
      obtain ⟨key, -, hkey⟩ := List.exists_of_findSome?_eq_some hspec
      obtain ⟨items, hitems, hv⟩ := Option.bind_eq_some_iff.1 hkey
      exact Json.mem_references_get? (bind_toItems?_eq_some_iff.1 hitems)
        (Json.mem_references_item (List.mem_of_head? hv) hr)
    | property hform hv =>
      rw [hform] at hspec
      dsimp only at hspec
      rw [hspec, propertiesOf] at hv
      cases hproperties : (schema.get? "properties").bind Json.toFields? with
      | none =>
        rw [hproperties] at hv
        cases hv
      | some properties =>
        rw [hproperties] at hv
        exact Json.mem_references_get? (bind_toFields?_eq_some_iff.1 hproperties)
          (Json.mem_references_field hv hr)
    | items hform =>
      rw [hform] at hspec
      exact Json.mem_references_get? hspec.symm hr
  · exact List.mem_append_right _ hr

theorem mem_allReferences_behind {doc schema v : Json} {r r' : String} (h : Resolves doc r' v)
    (hr : r ∈ allReferences doc v) : r ∈ allReferences doc schema := by
  obtain ⟨pointer, -, hpointer⟩ := h
  refine List.mem_append_right _ ?_
  rcases List.mem_append.1 hr with hr | hr
  · exact Json.mem_references_pointer? hpointer hr
  · exact hr

/-! ## Chains -/

/-- The references followed from one value to another, each of them local and resolved. -/
inductive Chain (doc : Json) : Json → List String → Json → Prop
  | here {v : Json} : Chain doc v [] v
  | step {v w u : Json} {r : String} {rs : List String} :
      v.reference? = some r → Resolves doc r w → Chain doc w rs u → Chain doc v (r :: rs) u

section

variable {doc v w u : Json} {rs : List String} {r : String}

theorem Chain.snoc (h : Chain doc v rs w) (hr : w.reference? = some r) (hu : Resolves doc r u) :
    Chain doc v (rs ++ [r]) u := by
  induction h with
  | here => exact .step hr hu .here
  | step hfirst htarget _ ih => exact .step hfirst htarget (ih hr)

/-- A chain can only follow references of the value and of the document. -/
theorem Chain.mem_allReferences (h : Chain doc v rs w) :
    (∀ r ∈ rs, r ∈ allReferences doc v) ∧ ∀ r ∈ allReferences doc w, r ∈ allReferences doc v := by
  induction h with
  | here => exact ⟨nofun, fun r hr => hr⟩
  | step hfirst htarget _ ih =>
    refine ⟨List.forall_mem_cons.2 ⟨mem_allReferences_of_reference? hfirst, fun r hr => ?_⟩, fun r hr => ?_⟩
    · exact mem_allReferences_behind htarget (ih.1 r hr)
    · exact mem_allReferences_behind htarget (ih.2 r hr)

/-- As long as no reference is followed twice, there are no more rounds than references. -/
theorem Chain.length_le (h : Chain doc v rs w) (hnodup : rs.Nodup) :
    rs.length ≤ (allReferences doc v).length :=
  (List.subperm_of_subset hnodup h.mem_allReferences.1).length_le

/-- A chain that passes a reference goes on from its target. -/
theorem Chain.exists_behind (h : Chain doc v rs w) (hr : r ∈ rs) :
    ∃ u rs', Resolves doc r u ∧ rs'.length < rs.length ∧ Chain doc u rs' w := by
  induction h with
  | here => cases hr
  | @step _ x _ _ rs _ htarget hrest ih =>
    rcases List.mem_cons.1 hr with rfl | hr
    · exact ⟨x, rs, htarget, Nat.lt_succ_self _, hrest⟩
    · obtain ⟨u, rs', hu, hlength, hchain⟩ := ih hr
      exact ⟨u, rs', hu, Nat.lt_succ_of_lt hlength, hchain⟩

/-- No chain leads on from a value. -/
def IsEnd (doc v : Json) : Prop := ∀ r w, v.reference? = some r → ¬ Resolves doc r w

/-- Two chains from one value that both come to an end are the same. -/
theorem Chain.unique {qs : List String} (h : Chain doc v rs w) (hw : IsEnd doc w) (h' : Chain doc v qs u)
    (hu : IsEnd doc u) : rs = qs := by
  induction h generalizing qs with
  | here =>
    cases h' with
    | here => rfl
    | step hr htarget _ => exact absurd htarget (hw _ _ hr)
  | step hr htarget _ ih =>
    cases h' with
    | here => exact absurd htarget (hu _ _ hr)
    | step hr' htarget' hrest =>
      rw [hr] at hr'
      cases hr'
      rw [ih hw (htarget'.unique htarget ▸ hrest)]

/-- A chain that comes to an end has followed no reference twice. -/
theorem Chain.nodup_of_isEnd (h : Chain doc v rs w) (hw : IsEnd doc w) : rs.Nodup := by
  induction h with
  | here => exact List.nodup_nil
  | @step _ x _ r rs _ htarget hrest ih =>
    refine List.nodup_cons.2 ⟨fun hr => ?_, ih hw⟩
    -- from the target of a repeated reference there would be two chains to the end
    obtain ⟨u, rs', hu, hlength, hshort⟩ := hrest.exists_behind hr
    have hsame := hrest.unique hw (hu.unique htarget ▸ hshort) hw
    rw [hsame] at hlength
    exact absurd hlength (Nat.lt_irrefl _)

/-! ## Following a chain -/

theorem follow_of_none {unseen : List String} (h : v.reference? = none) : follow doc unseen v = .ok v := by
  rw [follow, h]

theorem follow_of_not_mem {unseen : List String} (h : v.reference? = some r) (hr : r ∉ unseen) :
    follow doc unseen v = .error (.invalidField documentName r .circularReference) := by
  rw [follow, h]
  exact if_neg hr

theorem follow_of_error {unseen : List String} {e : ContractError} (h : v.reference? = some r) (hr : r ∈ unseen)
    (he : target doc r = .error e) : follow doc unseen v = .error e := by
  rw [follow, h]
  dsimp only
  rw [if_pos hr, he]

theorem follow_of_resolves {unseen : List String} (h : v.reference? = some r) (hr : r ∈ unseen)
    (hw : Resolves doc r w) : follow doc unseen v = follow doc (without unseen r) w := by
  rw [follow, h]
  dsimp only
  rw [if_pos hr, target_eq_ok_iff.2 hw]

theorem mem_without {unseen : List String} {q : String} : q ∈ without unseen r ↔ q ∈ unseen ∧ q ≠ r := by
  simp [without]

/-- References that are followed once each are not available any more behind them. -/
theorem Chain.exists_follow_eq (h : Chain doc v rs w) (hnodup : rs.Nodup) {unseen : List String}
    (hunseen : ∀ r ∈ rs, r ∈ unseen) :
    ∃ rest, (∀ q, q ∈ rest ↔ q ∈ unseen ∧ q ∉ rs) ∧ follow doc unseen v = follow doc rest w := by
  induction h generalizing unseen with
  | here => exact ⟨unseen, by simp, rfl⟩
  | @step _ x _ r rs hfirst htarget _ ih =>
    obtain ⟨hr, hnodup⟩ := List.nodup_cons.1 hnodup
    obtain ⟨hmem, hunseen⟩ := List.forall_mem_cons.1 hunseen
    have hbehind : ∀ q ∈ rs, q ∈ without unseen r :=
      fun q hq => mem_without.2 ⟨hunseen q hq, fun heq => hr (heq ▸ hq)⟩
    obtain ⟨rest, hrest, hfollow⟩ := ih hnodup hbehind
    refine ⟨rest, fun q => ?_, by rw [follow_of_resolves hfirst hmem htarget, hfollow]⟩
    rw [hrest, mem_without, List.mem_cons, not_or, and_assoc]

/-! ## What is found behind a value -/

/-- What a chain of references comes to: a value that is none, a reference that it has followed before, or one
that is not local or leads nowhere. -/
inductive Finish (doc v : Json) : Except ContractError Json → Prop
  | value {rs : List String} {w : Json} : Chain doc v rs w → w.reference? = none → Finish doc v (.ok w)
  | circle {rs : List String} {w : Json} {r : String} : Chain doc v rs w → rs.Nodup → w.reference? = some r →
      r ∈ rs → Finish doc v (.error (.invalidField documentName r .circularReference))
  | lost {rs : List String} {w : Json} {r : String} {e : ContractError} : Chain doc v rs w →
      w.reference? = some r → target doc r = .error e → Finish doc v (.error e)

/-- Following goes on along the chain, and stops at what it comes to. -/
theorem finish_follow {unseen : List String} (h : Chain doc v rs w) (hnodup : rs.Nodup)
    (hunseen : ∀ q ∈ allReferences doc v, q ∈ unseen ↔ q ∉ rs) : Finish doc v (follow doc unseen w) := by
  fun_induction follow doc unseen w generalizing rs with
  | case1 unseen w hnone => exact .value h hnone
  | case2 unseen w r hr hmem e he => exact .lost h hr he
  | case3 unseen w r hr hmem x hx ih =>
    have hpassed : r ∉ rs := (hunseen r (h.mem_allReferences.2 r (mem_allReferences_of_reference? hr))).1 hmem
    refine ih (h.snoc hr (target_eq_ok_iff.1 hx)) ?_ ?_
    · rw [← List.concat_eq_append]
      exact List.Nodup.concat hpassed hnodup
    · intro q hq
      rw [mem_without, hunseen q hq, List.mem_append, not_or, List.mem_singleton]
  | case4 unseen w r hr hmem =>
    have hmet := h.mem_allReferences.2 r (mem_allReferences_of_reference? hr)
    exact .circle h hnodup hr (not_not.1 fun hpassed => hmem ((hunseen r hmet).2 hpassed))

theorem isEnd_of_none (h : w.reference? = none) : IsEnd doc w := by
  intro r u hr
  rw [h] at hr
  cases hr

theorem isEnd_of_error {e : ContractError} (h : w.reference? = some r) (he : target doc r = .error e) :
    IsEnd doc w := by
  intro q u hq hu
  rw [h] at hq
  cases hq
  rw [target_eq_ok_iff.2 hu] at he
  cases he

/-- What is found behind a value is what the chain of references from it comes to. -/
theorem deref_eq_iff {result : Except ContractError Json} : deref doc v = result ↔ Finish doc v result := by
  constructor
  · rintro rfl
    exact finish_follow .here List.nodup_nil (by simp)
  · intro h
    have hmeet {rs w} (h : Chain doc v rs w) (hnodup : rs.Nodup) :=
      h.exists_follow_eq hnodup h.mem_allReferences.1
    cases h with
    | value h hnone =>
      obtain ⟨rest, -, hfollow⟩ := hmeet h (h.nodup_of_isEnd (isEnd_of_none hnone))
      exact hfollow.trans (follow_of_none hnone)
    | circle h hnodup hr hpassed =>
      obtain ⟨rest, hrest, hfollow⟩ := hmeet h hnodup
      exact hfollow.trans (follow_of_not_mem hr fun hmem => ((hrest _).1 hmem).2 hpassed)
    | @lost rs w r e h hr he =>
      have hend := isEnd_of_error hr he
      obtain ⟨rest, hrest, hfollow⟩ := hmeet h (h.nodup_of_isEnd hend)
      refine hfollow.trans (follow_of_error hr ((hrest r).2 ⟨?_, fun hpassed => ?_⟩) he)
      · exact h.mem_allReferences.2 r (mem_allReferences_of_reference? hr)
      · obtain ⟨u, -, hu, -, -⟩ := h.exists_behind hpassed
        exact hend r u hr hu

end

end OpenApi

end Covenant
