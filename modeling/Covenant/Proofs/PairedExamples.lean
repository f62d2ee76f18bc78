import Covenant.Proofs.Conformance
import Covenant.Proofs.DepthLimit
import Covenant.Proofs.Samples
import Covenant.Proofs.SchemaForms
import Mathlib.Logic.Relation

/-!
# Examples to be sent and examples to be expected

A schema has an example of either kind: random values that are sent, and wildcards that are expected. Both are
made by the same walk.

* `Loading.Corresponds`: two computations fail alike, or give results that are related;
* `Sketches`: a tree of wildcards with the outline of another tree and the kinds of its scalars;
* `Sketches.conforms`: it accepts that tree;
* `OpenApi.FittingChoices`: the values that the schemas of a walk list are of the kinds that they name;
* `OpenApi.examples_correspond`: the two examples of a schema.
-/

namespace Covenant

/-! ## Two computations -/

namespace Loading

section

variable {α β γ δ : Type} {R : α → β → Prop} {S : γ → δ → Prop}

/-- Whatever each of them draws, two computations fail with the same error, or their results are related. -/
def Corresponds (x : Loading α) (y : Loading β) (R : α → β → Prop) : Prop :=
  ∀ s t, (∃ e, x s = .error e ∧ y t = .error e) ∨
    ∃ a b s' t', x s = .ok (a, s') ∧ y t = .ok (b, t') ∧ R a b

theorem corresponds_pure {a : α} {b : β} (h : R a b) : Corresponds (pure a) (pure b) R :=
  fun s t => .inr ⟨a, b, s, t, rfl, rfl, h⟩

theorem corresponds_fail (e : ContractError) : Corresponds (fail e) (fail e) R :=
  fun _ _ => .inl ⟨e, rfl, rfl⟩

theorem corresponds_ofRand {x : Rand α} {y : Rand β} (h : ∀ s t, R (x s).1 (y t).1) :
    Corresponds (ofRand x) (ofRand y) R :=
  fun s t => .inr ⟨(x s).1, (y t).1, (x s).2, (y t).2, rfl, rfl, h s t⟩

theorem Corresponds.bind {x : Loading α} {y : Loading β} {f : α → Loading γ} {g : β → Loading δ}
    (hxy : Corresponds x y R) (hfg : ∀ a b, R a b → Corresponds (f a) (g b) S) :
    Corresponds (x >>= f) (y >>= g) S := by
  intro s t
  show (∃ e, (x s >>= fun p => f p.1 p.2) = .error e ∧ (y t >>= fun p => g p.1 p.2) = .error e) ∨
    ∃ a b s' t', (x s >>= fun p => f p.1 p.2) = .ok (a, s') ∧ (y t >>= fun p => g p.1 p.2) = .ok (b, t') ∧ S a b
  rcases hxy s t with ⟨e, hx, hy⟩ | ⟨a, b, s', t', hx, hy, hab⟩
  · rw [hx, hy]
    exact .inl ⟨e, rfl, rfl⟩
  · rw [hx, hy]
    exact hfg a b hab s' t'

end

end Loading

open Loading

/-! ## Sketches -/

mutual
/-- A sketch of a value: an object has a sketch for each of its fields, an array of no item or one has as many,
and each scalar is the wildcard of its kind. -/
inductive Sketches : Json → Json → Prop
  | wildcard {w : Wildcard} {v : Json} : v.kind = w.kind → Sketches (.string w.label) v
  | noItem : Sketches (.array []) (.array [])
  | item {x v : Json} : Sketches x v → Sketches (.array [x]) (.array [v])
  | object {xs vs : List (String × Json)} : SketchesFields xs vs → Sketches (.object xs) (.object vs)
/-- Sketches of fields, under the same names in the same order. -/
inductive SketchesFields : List (String × Json) → List (String × Json) → Prop
  | nil : SketchesFields [] []
  | cons {key : String} {x v : Json} {xs vs : List (String × Json)} :
      Sketches x v → SketchesFields xs vs → SketchesFields ((key, x) :: xs) ((key, v) :: vs)
end

theorem SketchesFields.insert {xs vs : List (String × Json)} (h : SketchesFields xs vs) {x v : Json}
    (hv : Sketches x v) (key : String) : SketchesFields (Json.insert xs key x) (Json.insert vs key v) := by
  induction xs generalizing vs with
  | nil =>
    cases h
    exact .cons hv .nil
  | cons f xs ih =>
    cases h with
    | @cons k _ u _ vs hfirst hrest =>
      rw [Json.insert, Json.insert]
      by_cases hkey : (k == key) = true
      · rw [if_pos hkey, if_pos hkey]
        exact .cons hv hrest
      · rw [if_neg hkey, if_neg hkey]
        exact .cons hfirst (ih hrest)

theorem SketchesFields.insertAll {xs vs more more' : List (String × Json)} (h : SketchesFields xs vs)
    (hmore : SketchesFields more more') : SketchesFields (Json.insertAll xs more) (Json.insertAll vs more') := by
  induction more generalizing xs vs more' with
  | nil =>
    cases hmore
    exact h
  | cons f more ih =>
    cases hmore with
    | @cons key x v _ more' hfirst hrest =>
      show SketchesFields (Json.insertAll (Json.insert xs key x) more)
        (Json.insertAll (Json.insert vs key v) more')
      exact ih (h.insert hfirst key) hrest

theorem SketchesFields.exists_of_mem {xs vs : List (String × Json)} (h : SketchesFields xs vs)
    {f : String × Json} (hf : f ∈ xs) : ∃ v, (f.1, v) ∈ vs ∧ Sketches f.2 v := by
  induction xs generalizing vs with
  | nil => cases hf
  | cons g xs ih =>
    cases h with
    | @cons k y u _ vs hfirst hrest =>
      rcases List.mem_cons.1 hf with rfl | hf
      · exact ⟨u, List.mem_cons_self, hfirst⟩
      · obtain ⟨v, hv, hsketch⟩ := ih hrest hf
        exact ⟨v, List.mem_cons_of_mem _ hv, hsketch⟩

/-- A wildcard stands for no container. -/
theorem Wildcard.not_container {w : Wildcard} {v : Json} (h : v.kind = w.kind) :
    v.kind ≠ .object ∧ v.kind ≠ .array := by
  rw [h]
  cases w <;> exact ⟨nofun, nofun⟩

theorem Sketches.child {x v : Json} (h : Sketches x v) {c : Step × Json} (hc : c ∈ x.children) :
    ∃ y, (c.1, y) ∈ v.children ∧ Sketches c.2 y := by
  cases h with
  | wildcard => cases hc
  | noItem => cases hc
  | @item x v hitem =>
    cases List.mem_singleton.1 hc
    exact ⟨v, List.mem_singleton.2 rfl, hitem⟩
  | @object xs vs hfields =>
    obtain ⟨f, hf, rfl⟩ := List.mem_map.1 hc
    obtain ⟨v, hv, hsketch⟩ := hfields.exists_of_mem hf
    exact ⟨v, List.mem_map.2 ⟨(f.1, v), hv, rfl⟩, hsketch⟩

/-- A sketch accepts what it is a sketch of. -/
theorem Sketches.conforms {x v : Json} (h : Sketches x v) (hv : v.DistinctKeys) : Conforms x v := by
  induction x using Json.child_induction generalizing v with
  | step x ih =>
    have hchildren : ∀ c ∈ x.children, ∃ y, v.next? c.1 = some y ∧ Conforms c.2 y := by
      intro c hc
      obtain ⟨y, hy, hsketch⟩ := h.child hc
      exact ⟨y, hv.next?_eq_some_iff.2 hy, ih c hc hsketch (hv.child hy)⟩
    cases h with
    | wildcard hkind => exact .wildcard hkind
    | noItem => exact (conforms_iff_of_alike (.arrays _ _)).2 hchildren
    | item => exact (conforms_iff_of_alike (.arrays _ _)).2 hchildren
    | object => exact (conforms_iff_of_alike (.objects _ _)).2 hchildren

theorem Sketches.compare_eq {x v : Json} (h : Sketches x v) (hv : v.DistinctKeys) {d : Diff}
    (hdepth : x.Within d.maxDepth) : d.compare x v = .ok [] := by
  refine compare_eq_ok_nil_iff.2 ⟨h.conforms hv, ?_⟩
  intro p hp
  exact hdepth p (reachedTogether_iff.1 hp).1

namespace OpenApi

/-! ## Listed values -/

/-- The first value that a scalar schema lists, if it lists any, is of the kind that its type names. -/
def FittingChoice (schema : Json) : Prop :=
  ∀ type w v, formOf schema = .scalar type → scalarKind? type = some w → firstChoice? schema = some v →
    v.kind = w.kind

/-- This holds of every schema that an example is made from. -/
def FittingChoices (doc schema : Json) : Prop :=
  ∀ sub, Relation.ReflTransGen (Needs doc) schema sub → FittingChoice sub

theorem FittingChoices.needs {doc schema v : Json} (h : FittingChoices doc schema) (hv : Needs doc schema v) :
    FittingChoices doc v := fun sub hsub => h sub (.head hv hsub)

/-! ## The two examples -/

/-- An example that is expected beside one that is sent. That it is a sketch may depend on a condition. -/
inductive Beside (fits : Prop) : Option Json → Option Json → Prop
  | neither : Beside fits none none
  | both {x v : Json} : (fits → Sketches x v) → Beside fits (some x) (some v)

section

variable {doc : Json} {fits : Prop} {unseen : List String}

theorem kind_generate (w : Wildcard) (schema : Json) (s : Source) :
    ((scalarGenerator w schema).generate s).1.kind = w.kind := by
  cases w with
  | anyString =>
    rw [scalarGenerator]
    split <;> rfl
  | anyNumber => rfl
  | anyBool => rfl

theorem corresponds_scalar {schema : Json} {type : String} (hform : formOf schema = .scalar type)
    (h : fits → FittingChoice schema) :
    Corresponds (.ofRand (scalar type schema .wildcard)) (.ofRand (scalar type schema .generated))
      (Beside fits) := by
  refine corresponds_ofRand fun s t => ?_
  rw [scalar, scalar]
  cases hkind : scalarKind? type with
  | none => exact .neither
  | some w =>
    cases hchoice : firstChoice? schema with
    | some v => exact .both fun hfits => .wildcard (h hfits type w v hform hkind hchoice)
    | none => exact .both fun _ => .wildcard (kind_generate w schema t)

/-- The fields of an example are set only if it is an object, and both are objects or neither. -/
theorem Beside.setFields {x v : Option Json} {xs vs : List (String × Json)} (h : Beside fits x v)
    (hfields : fits → SketchesFields xs vs) (hfits : fits) :
    SketchesFields (setFields xs x) (setFields vs v) := by
  cases h with
  | neither => exact hfields hfits
  | @both x v hsketch =>
    cases hsketch hfits with
    | wildcard hkind =>
      have hno := (Wildcard.not_container hkind).1
      cases v with
      | object => exact absurd rfl hno
      | _ => exact hfields hfits
    | noItem => exact hfields hfits
    | item => exact hfields hfits
    | object hmore => exact (hfields hfits).insertAll hmore

theorem corresponds_mergeParts {parts : List Json} {xs vs : List (String × Json)}
    (hparts : ∀ part ∈ parts,
      Corresponds (exampleOf doc .wildcard unseen part) (exampleOf doc .generated unseen part) (Beside fits))
    (hfields : fits → SketchesFields xs vs) :
    Corresponds (mergeParts doc .wildcard unseen xs parts) (mergeParts doc .generated unseen vs parts)
      fun xs vs => fits → SketchesFields xs vs := by
  induction parts generalizing xs vs with
  | nil =>
    rw [mergeParts, mergeParts]
    exact corresponds_pure hfields
  | cons part parts ih =>
    rw [mergeParts_cons, mergeParts_cons]
    refine (hparts part List.mem_cons_self).bind fun x v hxv => ?_
    exact ih (fun p hp => hparts p (List.mem_cons_of_mem part hp)) (hxv.setFields hfields)

theorem corresponds_exampleFields {properties : List (String × Json)}
    (hproperties : ∀ p ∈ properties,
      Corresponds (exampleOf doc .wildcard unseen p.2) (exampleOf doc .generated unseen p.2) (Beside fits)) :
    Corresponds (exampleFields doc .wildcard unseen properties)
      (exampleFields doc .generated unseen properties) fun xs vs => fits → SketchesFields xs vs := by
  induction properties with
  | nil =>
    rw [exampleFields, exampleFields]
    exact corresponds_pure fun _ => .nil
  | cons p properties ih =>
    obtain ⟨name, schema⟩ := p
    rw [exampleFields, exampleFields]
    refine (hproperties (name, schema) List.mem_cons_self).bind fun x v hxv => ?_
    refine (ih fun q hq => hproperties q (List.mem_cons_of_mem _ hq)).bind fun xs vs hfields => ?_
    cases hxv with
    | neither => exact corresponds_pure hfields
    | both hsketch => exact corresponds_pure fun hfits => .cons (hsketch hfits) (hfields hfits)

/-- The walks of the two modes take the same way. The condition on listed values matters only for what they
find, not for whether they find something or fail. -/
theorem corresponds_exampleOf (doc : Json) (unseen : List String) (schema : Json)
    (h : fits → FittingChoices doc schema) :
    Corresponds (exampleOf doc .wildcard unseen schema) (exampleOf doc .generated unseen schema)
      (Beside fits) := by
  induction unseen, schema using walk_induction doc with
  | step unseen schema hbehind hinside =>
    have hneeds : ∀ v, Inside schema v → Corresponds (exampleOf doc .wildcard unseen v)
        (exampleOf doc .generated unseen v) (Beside fits) := by
      intro v hv
      exact hinside v hv fun hfits => (h hfits).needs (.inside hv)
    rw [exampleOf_eq, exampleOf_eq]
    cases hform : formOf schema with
    | reference r =>
      dsimp only [exampleOfForm]
      by_cases hr : r ∈ unseen
      · rw [if_pos hr, if_pos hr]
        cases htarget : target doc r with
        | error e => exact corresponds_fail e
        | ok v => exact hbehind r v hform hr htarget fun hfits => (h hfits).needs (.behind hform htarget)
      · rw [if_neg hr, if_neg hr]
        exact corresponds_pure .neither
    | merged parts =>
      have hmerged := corresponds_mergeParts (fun part hpart => hneeds part (.part hform hpart))
        fun _ => SketchesFields.nil
      exact hmerged.bind fun xs vs hfields => corresponds_pure (.both fun hfits => .object (hfields hfits))
    | alternative first => exact hneeds first (.alternative hform)
    | object properties =>
      have hfields := corresponds_exampleFields fun p hp => hneeds p.2 (.property hform hp)
      exact hfields.bind fun xs vs hfields => corresponds_pure (.both fun hfits => .object (hfields hfits))
    | array items =>
      cases items with
      | none => exact corresponds_pure (.both fun _ => .noItem)
      | some items =>
        refine (hneeds items (.items hform)).bind fun x v hxv => ?_
        cases hxv with
        | neither => exact corresponds_pure (.both fun _ => .noItem)
        | both hsketch => exact corresponds_pure (.both fun hfits => .item (hsketch hfits))
    | scalar type => exact corresponds_scalar hform fun hfits => h hfits schema .refl
    | unknown => exact corresponds_pure .neither

end

/-- Whatever is drawn, the examples of a schema to be sent and to be expected fail with the same error, or there
is neither, or there are both. If the values that the schemas of the walk list are of the kinds that these name,
then the expected one is a sketch of the one that is sent, and accepts it. -/
theorem examples_correspond {doc schema : Json} (hdoc : doc.DistinctKeys) (hschema : schema.DistinctKeys)
    (s t : Source) :
    (∃ e, exampleFor doc .generated schema s = .error e ∧ exampleFor doc .wildcard schema t = .error e) ∨
    (∃ s' t', exampleFor doc .generated schema s = .ok (none, s') ∧
      exampleFor doc .wildcard schema t = .ok (none, t')) ∨
    ∃ v x s' t', exampleFor doc .generated schema s = .ok (some v, s') ∧
      exampleFor doc .wildcard schema t = .ok (some x, t') ∧
      (FittingChoices doc schema →
        Sketches x v ∧ ∀ d : Diff, x.Within d.maxDepth → d.compare x v = .ok []) := by
  have hwalks := corresponds_exampleOf doc (allReferences doc schema) schema id
  rcases hwalks t s with ⟨e, hx, hv⟩ | ⟨x, v, t', s', hx, hv, hxv⟩
  · exact .inl ⟨e, hv, hx⟩
  · cases hxv with
    | neither => exact .inr (.inl ⟨s', t', hv, hx⟩)
    | @both x v hsketch =>
      refine .inr (.inr ⟨v, x, s', t', hv, hx, fun hfits => ⟨hsketch hfits, ?_⟩⟩)
      have hkeys : v.DistinctKeys := (sample_exampleFor hdoc hschema .generated s _ s' hv v rfl).distinctKeys
      intro d hdepth
      exact (hsketch hfits).compare_eq hkeys hdepth

/-- A document with the schema of pets, which have a kind and a friend of the same schema. -/
def kindSchema : Json := .object [("type", .string "string"), ("enum", .array [.string "cat"])]

def petReference : Json := .object [("$ref", .string "#/Pet")]

def petSchema : Json :=
  .object [("properties", .object [("kind", kindSchema), ("friend", petReference)])]

def petDocument : Json := .object [("Pet", petSchema)]

theorem distinctKeys_petDocument : petDocument.DistinctKeys ∧ petReference.DistinctKeys := by
  simp [petDocument, petSchema, kindSchema, petReference, Json.DistinctKeys, Json.DistinctKeysFields,
    Json.DistinctKeysItems]

theorem needs_petDocument {v w : Json} (hv : v = petReference ∨ v = petSchema ∨ v = kindSchema)
    (h : Needs petDocument v w) : w = petReference ∨ w = petSchema ∨ w = kindSchema := by
  rcases hv with rfl | rfl | rfl
  · have htarget : target petDocument "#/Pet" = .ok w := h.of_form
    exact .inr (.inl (Except.ok.inj htarget).symm)
  · have hproperty : ∃ name, (name, w) ∈ [("kind", kindSchema), ("friend", petReference)] := h.of_form
    obtain ⟨name, hname⟩ := hproperty
    simp only [List.mem_cons, Prod.mk.injEq, List.not_mem_nil, or_false] at hname
    rcases hname with ⟨-, rfl⟩ | ⟨-, rfl⟩
    · exact .inr (.inr rfl)
    · exact .inl rfl
  · exact absurd h.of_form id

theorem fittingChoices_pet : FittingChoices petDocument petReference := by
  intro sub hsub
  have hmem : sub = petReference ∨ sub = petSchema ∨ sub = kindSchema := by
    induction hsub with
    | refl => exact .inl rfl
    | tail _ hneeds ih => exact needs_petDocument ih hneeds
  intro type w v hform hkind hchoice
  rcases hmem with rfl | rfl | rfl
  · cases hform
  · cases hform
  · cases hform
    cases hkind
    cases hchoice
    rfl

theorem example_pet (t : Source) : exampleFor petDocument .wildcard petReference t =
    .ok (some (.object [("kind", .string "<anyString>")]), t) := by
  have hkind (unseen : List String) :
      exampleOf petDocument .wildcard unseen kindSchema = pure (some (.string "<anyString>")) := by
    rw [exampleOf_eq]
    rfl
  have hfriend : exampleOf petDocument .wildcard [] petReference = pure none := by
    rw [exampleOf_eq]
    rfl
  have hpet : exampleOf petDocument .wildcard [] petSchema =
      pure (some (.object [("kind", .string "<anyString>")])) := by
    rw [exampleOf_eq]
    show exampleFields petDocument .wildcard [] [("kind", kindSchema), ("friend", petReference)] >>= _ = _
    rw [exampleFields, exampleFields, exampleFields, hkind, hfriend]
    rfl
  have hall : allReferences petDocument petReference = ["#/Pet", "#/Pet"] := rfl
  rw [exampleFor, exampleOf_eq, hall]
  show exampleOf petDocument .wildcard [] petSchema t = _
  rw [hpet]
  rfl

theorem examples_correspond_pet :
    petDocument.DistinctKeys ∧ petReference.DistinctKeys ∧ FittingChoices petDocument petReference ∧
    ∃ v s', exampleFor petDocument .generated petReference .least = .ok (some v, s') ∧
      Sketches (.object [("kind", .string "<anyString>")]) v ∧
      Diff.compare ⟨"body", 1⟩ (.object [("kind", .string "<anyString>")]) v = .ok [] := by
  obtain ⟨hdoc, hschema⟩ := distinctKeys_petDocument
  refine ⟨hdoc, hschema, fittingChoices_pet, ?_⟩
  have hwildcard := example_pet .greatest
  rcases examples_correspond hdoc hschema .least .greatest with ⟨e, -, he⟩ | ⟨s', t', -, hnone⟩ | ⟨v, x, s', t', hv, hx, h⟩
  · rw [hwildcard] at he
    cases he
  · rw [hwildcard] at hnone
    cases hnone
  · rw [hwildcard] at hx
    cases hx
    obtain ⟨hsketch, hcompare⟩ := h fittingChoices_pet
    refine ⟨v, s', hv, hsketch, hcompare _ (Json.within_of_children ?_)⟩
    intro c hc
    cases List.mem_singleton.1 hc
    exact Json.within_of_childless rfl 0

end OpenApi

end Covenant
