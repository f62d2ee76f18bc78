import Covenant.Proofs.Documents
import Covenant.Proofs.Reloading

/-!
# Values made for a document

What an API document gives is made while random choices are drawn, and may fail.

* `Loading.Always`: whatever a computation yields has a property, one rule for each form of computation;
* `OpenApi.Sample`: what examples of schemas are;
* `OpenApi.sample_exampleFor`: every example is one, by induction along references and schemas.
-/

namespace Covenant

/-! ## What a computation yields -/

namespace Loading

section

variable {α β : Type} {P : α → Prop} {Q : β → Prop}

/-- Whatever a computation yields, if anything, has a property. -/
def Always (x : Loading α) (P : α → Prop) : Prop := ∀ s a s', x s = .ok (a, s') → P a

theorem always_pure {a : α} (h : P a) : Always (pure a) P := by
  intro s b s' hb
  cases hb
  exact h

theorem always_some {a : α} (h : P a) : Always (pure (some a)) fun r => ∀ v ∈ r, P v := by
  refine always_pure fun v hv => ?_
  cases hv
  exact h

theorem always_fail (e : ContractError) : Always (fail e) P := nofun

theorem always_ofExcept {r : Except ContractError α} (h : ∀ a, r = .ok a → P a) : Always (ofExcept r) P :=
  fun _ a _ ha => h a (ofExcept_eq_ok_iff.1 ha).1

theorem always_ofRand {r : Rand α} (h : ∀ s, P (r s).1) : Always (ofRand r) P := by
  intro s a s' ha
  rw [← show (r s).1 = a from congrArg Prod.fst (Except.ok.inj ha)]
  exact h s

theorem Always.bind {x : Loading α} {f : α → Loading β} (hx : Always x P) (hf : ∀ a, P a → Always (f a) Q) :
    Always (x >>= f) Q := by
  intro s b s' hb
  obtain ⟨a, s'', ha, hb⟩ := bind_eq_ok_iff.1 hb
  exact hf a (hx s a s'' ha) s'' b s' hb

theorem always_foldlM {f : α → β → Loading α} {bs : List β} (hf : ∀ a, P a → ∀ b ∈ bs, Always (f a b) P)
    {a : α} (ha : P a) : Always (bs.foldlM f a) P := by
  induction bs generalizing a with
  | nil => exact always_pure ha
  | cons b bs ih =>
    rw [List.foldlM_cons]
    exact (hf a ha b List.mem_cons_self).bind fun a' ha' =>
      ih (fun a ha b hb => hf a ha b (List.mem_cons_of_mem _ hb)) ha'

end

end Loading

open Loading

/-! ## Fields set one after the other -/

theorem Json.DistinctKeys.insertAll {fields more : List (String × Json)}
    (h : (Json.object fields).DistinctKeys) (hmore : ∀ f ∈ more, f.2.DistinctKeys) :
    (Json.object (Json.insertAll fields more)).DistinctKeys := by
  induction more generalizing fields with
  | nil => exact h
  | cons f more ih =>
    obtain ⟨hf, hmore⟩ := List.forall_mem_cons.1 hmore
    exact ih (h.insert hf f.1) hmore

theorem Json.mem_insertAll {fields more : List (String × Json)} {f : String × Json}
    (h : f ∈ insertAll fields more) : f ∈ fields ∨ f ∈ more := by
  induction more generalizing fields with
  | nil => exact .inl h
  | cons g more ih =>
    rcases ih h with h | h
    · rcases mem_insert h with h | rfl
      · exact .inl h
      · exact .inr List.mem_cons_self
    · exact .inr (List.mem_cons_of_mem g h)

namespace OpenApi

/-! ## Samples -/

/-- What an example is. One that is expected is no null, and its strings are inert. -/
structure Sample (mode : Mode) (v : Json) : Prop where
  distinctKeys : v.DistinctKeys
  settled : mode = .wildcard → Settled .response v
  ne_null : mode = .wildcard → v ≠ .null

theorem sample_of_distinctKeys {v : Json} (h : v.DistinctKeys) : Sample .generated v := ⟨h, nofun, nofun⟩

theorem inert_label (w : Wildcard) : Inert .response w.label := by
  refine ⟨?_, fun u hu => absurd hu.symm (escape_ne_label u w)⟩
  cases w <;> decide

theorem sample_label (w : Wildcard) (mode : Mode) : Sample mode (.string w.label) where
  distinctKeys := trivial
  settled _ t ht := by
    rw [Json.hasText_string.1 ht]
    exact inert_label w
  ne_null _ := nofun

theorem Sample.array {mode : Mode} {items : List Json} (h : ∀ v ∈ items, Sample mode v) :
    Sample mode (.array items) where
  distinctKeys := Json.distinctKeysItems_iff.2 fun v hv => (h v hv).distinctKeys
  settled hmode := settled_array_iff.2 fun v hv => (h v hv).settled hmode
  ne_null _ := nofun

theorem Sample.object {mode : Mode} {fields : List (String × Json)} (hnodup : (fields.map Prod.fst).Nodup)
    (h : ∀ f ∈ fields, Sample mode f.2) : Sample mode (.object fields) where
  distinctKeys := ⟨hnodup, Json.distinctKeysFields_iff.2 fun f hf => (h f hf).distinctKeys⟩
  settled hmode := settled_object_iff.2 fun f hf => (h f hf).settled hmode
  ne_null _ := nofun

/-- An object with the fields of a second one set is a sample as both are. -/
theorem Sample.insertAll {mode : Mode} {fields more : List (String × Json)}
    (h : Sample mode (.object fields)) (hmore : Sample mode (.object more)) :
    Sample mode (.object (Json.insertAll fields more)) where
  distinctKeys := h.distinctKeys.insertAll fun _ hf => hmore.distinctKeys.field hf
  settled hmode := by
    refine settled_object_iff.2 fun f hf => ?_
    rcases Json.mem_insertAll hf with hf | hf
    · exact settled_object_iff.1 (h.settled hmode) f hf
    · exact settled_object_iff.1 (hmore.settled hmode) f hf
  ne_null _ := nofun

/-! ## Parts of a schema -/

theorem distinctKeys_head {schema v : Json} {key : String} (h : schema.DistinctKeys)
    (hv : ((schema.get? key).bind Json.toItems?).bind List.head? = some v) : v.DistinctKeys := by
  obtain ⟨items, hitems, hv⟩ := Option.bind_eq_some_iff.1 hv
  obtain ⟨w, hw, hitems⟩ := Option.bind_eq_some_iff.1 hitems
  have hkeys := h.get? hw
  cases w with
  | array vs =>
    cases hitems
    exact hkeys.item (List.mem_of_head? hv)
  | _ => cases hitems

theorem distinctKeys_firstAlternative {schema v : Json} (h : schema.DistinctKeys)
    (hv : firstAlternative? schema = some v) : v.DistinctKeys := by
  obtain ⟨key, -, hkey⟩ := List.exists_of_findSome?_eq_some hv
  exact distinctKeys_head h hkey

theorem sizeOf_items {v : Json} {key : String} {items : List Json} (h : v.get? key = some (.array items)) :
    sizeOf items < sizeOf v := by
  have hless := Json.sizeOf_get? h
  simp only [Json.array.sizeOf_spec] at hless
  omega

theorem sizeOf_fields {v : Json} {key : String} {fields : List (String × Json)}
    (h : v.get? key = some (.object fields)) : sizeOf fields < sizeOf v := by
  have hless := Json.sizeOf_get? h
  simp only [Json.object.sizeOf_spec] at hless
  omega

theorem distinctKeys_generate (g : Generator) (s : Source) : (g.generate s).1.DistinctKeys := by
  cases g <;> trivial

/-- The example of a scalar schema: a wildcard, the first permitted value or a generated one. -/
theorem sample_scalar {schema : Json} (h : schema.DistinctKeys) (type : String) (mode : Mode) :
    Always (.ofRand (scalar type schema mode)) fun r => ∀ v ∈ r, Sample mode v := by
  refine always_ofRand fun s => ?_
  rw [scalar]
  cases scalarKind? type with
  | none => exact nofun
  | some w =>
    cases mode with
    | wildcard =>
      intro v hv
      cases hv
      exact sample_label w .wildcard
    | generated =>
      cases hchoice : firstChoice? schema with
      | some v =>
        intro w hw
        cases hw
        exact sample_of_distinctKeys (distinctKeys_head h hchoice)
      | none =>
        intro v hv
        cases hv
        exact sample_of_distinctKeys (distinctKeys_generate _ s)

/-! ## Examples -/

mutual
/-- The example of a schema is a sample, along references and then along the parts of the schema. -/
theorem sample_exampleOf {doc : Json} (hdoc : doc.DistinctKeys) (mode : Mode) (unseen : List String)
    (schema : Json) (h : schema.DistinctKeys) :
    Always (exampleOf doc mode unseen schema) fun r => ∀ v ∈ r, Sample mode v := by
  rw [exampleOf]
  split
  -- a reference: its target, unless it is being followed already
  · split
    · split
      · exact always_fail _
      · rename_i r _ hr _ v hv
        have hless := length_without hr
        exact sample_exampleOf hdoc mode (without unseen r) v (distinctKeys_target hdoc hv)
    · exact always_pure nofun
  · split
    -- parts merged
    · rename_i parts hparts
      have hkeys := h.get? hparts
      have hless := sizeOf_items hparts
      have hmerged := sample_mergeParts hdoc mode unseen [] parts (.object List.nodup_nil nofun)
        fun p hp => hkeys.item hp
      exact hmerged.bind fun merged h => always_some h
    · split
      -- alternatives
      · rename_i first hfirst
        have hless := sizeOf_firstAlternative hfirst
        exact sample_exampleOf hdoc mode unseen first (distinctKeys_firstAlternative h hfirst)
      · split
        · exact always_pure nofun
        · split
          -- an object
          · split
            · rename_i properties hproperties
              have hkeys := h.get? hproperties
              have hless := sizeOf_fields hproperties
              have hfields := sample_exampleFields hdoc mode unseen properties fun p hp => hkeys.field hp
              exact hfields.bind fun fields h => always_some (.object (h.1.nodup hkeys.1) h.2)
            · exact always_some (.object List.nodup_nil nofun)
          · split
            -- an array
            · split
              · rename_i items hitems
                have hless := Json.sizeOf_get? hitems
                have hitem := sample_exampleOf hdoc mode unseen items (h.get? hitems)
                exact hitem.bind fun item h =>
                  always_some (.array fun w hw => h w (Option.mem_toList.1 hw))
              · exact always_some (.array nofun)
            · exact sample_scalar h _ mode
termination_by (unseen.length, sizeOf schema)
decreasing_by
  · exact Prod.Lex.left _ _ hless
  all_goals exact Prod.Lex.right _ hless
/-- What is merged into a sample leaves it one. -/
theorem sample_mergeParts {doc : Json} (hdoc : doc.DistinctKeys) (mode : Mode) (unseen : List String)
    (fields : List (String × Json)) : (parts : List Json) → Sample mode (.object fields) →
    (∀ p ∈ parts, p.DistinctKeys) →
    Always (mergeParts doc mode unseen fields parts) fun merged => Sample mode (.object merged)
  | [], hfields, _ => by
    rw [mergeParts]
    exact always_pure hfields
  | part :: parts, hfields, hparts => by
    obtain ⟨hpart, hparts⟩ := List.forall_mem_cons.1 hparts
    rw [mergeParts]
    refine (sample_exampleOf hdoc mode unseen part hpart).bind fun v hv => ?_
    refine sample_mergeParts hdoc mode unseen _ parts ?_ hparts
    split
    · exact hfields.insertAll (hv _ rfl)
    · exact hfields
termination_by parts => (unseen.length, sizeOf parts)
/-- The fields of an object have names of its properties, in their order, and samples. -/
theorem sample_exampleFields {doc : Json} (hdoc : doc.DistinctKeys) (mode : Mode) (unseen : List String) :
    (properties : List (String × Json)) → (∀ p ∈ properties, p.2.DistinctKeys) →
    Always (exampleFields doc mode unseen properties) fun fields =>
      (fields.map Prod.fst).Sublist (properties.map Prod.fst) ∧ ∀ f ∈ fields, Sample mode f.2
  | [], _ => by
    rw [exampleFields]
    exact always_pure ⟨.slnil, nofun⟩
  | (name, schema) :: properties, h => by
    obtain ⟨hschema, h⟩ := List.forall_mem_cons.1 h
    rw [exampleFields]
    refine (sample_exampleOf hdoc mode unseen schema hschema).bind fun v hv => ?_
    refine (sample_exampleFields hdoc mode unseen properties h).bind fun fields hfields => ?_
    cases v with
    | none => exact always_pure ⟨.cons name hfields.1, hfields.2⟩
    | some w =>
      exact always_pure ⟨.cons_cons name hfields.1, List.forall_mem_cons.2 ⟨hv w rfl, hfields.2⟩⟩
termination_by properties => (unseen.length, sizeOf properties)
end

/-- The example of a schema of a document. -/
theorem sample_exampleFor {doc schema : Json} (hdoc : doc.DistinctKeys) (h : schema.DistinctKeys)
    (mode : Mode) : Always (exampleFor doc mode schema) fun r => ∀ v ∈ r, Sample mode v :=
  sample_exampleOf hdoc mode _ schema h

end OpenApi

end Covenant
