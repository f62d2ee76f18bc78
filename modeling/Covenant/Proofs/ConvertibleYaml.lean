import Covenant.Proofs.YamlValues

/-!
# Forms of YAML values

* `Yaml.IsKey`, `Yaml.Convertible`: keys that have a text, and values all of whose keys have one;
* `Yaml.exists_toJson?_iff`: these are the values that have a JSON value;
* `Yaml.Tagless`: values without tags, which are seen as they are.
-/

namespace Covenant.Yaml

/-! ## Values that have a JSON value -/

/-- A key that has a text: a string, a truth value or a finite number. -/
inductive IsKey : Yaml → Prop
  | string (s : String) : IsKey (.string s)
  | bool (b : Bool) : IsKey (.bool b)
  | integer (i : Int) (h : Json.Fits i) : IsKey (.number (.integer i h))
  | double (x : Binary64) : IsKey (.number (.double x))

/-- A value in which every mapping has only such keys. -/
inductive Convertible : Yaml → Prop
  | null : Convertible .null
  | bool (b : Bool) : Convertible (.bool b)
  | number (n : Number) : Convertible (.number n)
  | string (s : String) : Convertible (.string s)
  | sequence {items : List Yaml} : (∀ v ∈ items, Convertible v) → Convertible (.sequence items)
  | mapping {entries : List (Yaml × Yaml)} :
      (∀ e ∈ entries, IsKey e.1) → (∀ e ∈ entries, Convertible e.2) → Convertible (.mapping entries)
  | tagged {tag : String} {v : Yaml} : Convertible v → Convertible (.tagged tag v)

theorem exists_keyText?_iff {k : Yaml} : (∃ t, keyText? k = .ok t) ↔ IsKey k := by
  constructor
  · intro h
    obtain ⟨t, ht⟩ := h
    cases k with
    | string s => exact .string s
    | bool b => exact .bool b
    | number n =>
      cases n with
      | integer i h => exact .integer i h
      | double x => exact .double x
      | _ => cases ht
    | _ => cases ht
  · intro h
    cases h <;> exact ⟨_, rfl⟩

theorem exists_bind_eq_ok_iff {ε α β : Type} {x : Except ε α} {f : α → Except ε β} :
    (∃ b, x >>= f = .ok b) ↔ ∃ a, x = .ok a ∧ ∃ b, f a = .ok b := by
  simp only [bind_eq_ok_iff]
  constructor
  · intro h
    obtain ⟨b, a, hx, hf⟩ := h
    exact ⟨a, hx, b, hf⟩
  · intro h
    obtain ⟨a, hx, b, hf⟩ := h
    exact ⟨b, a, hx, hf⟩

mutual
/-- The values that have a JSON value. -/
theorem exists_toJson?_iff : (v : Yaml) → ((∃ j, v.toJson? = .ok j) ↔ Convertible v)
  | .null => ⟨fun _ => .null, fun _ => ⟨_, rfl⟩⟩
  | .bool b => ⟨fun _ => .bool b, fun _ => ⟨_, rfl⟩⟩
  | .number n => ⟨fun _ => .number n, fun _ => ⟨_, rfl⟩⟩
  | .string s => ⟨fun _ => .string s, fun _ => ⟨_, rfl⟩⟩
  | .sequence items => by
    rw [toJson?, exists_bind_eq_ok_iff]
    constructor
    · intro h
      obtain ⟨js, hjs, -⟩ := h
      exact .sequence ((exists_itemsToJson?_iff items).1 ⟨js, hjs⟩)
    · intro h
      cases h with
      | sequence h =>
        obtain ⟨js, hjs⟩ := (exists_itemsToJson?_iff items).2 h
        exact ⟨js, hjs, _, rfl⟩
  | .mapping entries => by
    rw [toJson?, exists_bind_eq_ok_iff]
    constructor
    · intro h
      obtain ⟨fs, hfs, -⟩ := h
      have hentries := (exists_entriesToJson?_iff entries []).1 ⟨fs, hfs⟩
      exact .mapping (fun e he => (hentries e he).1) fun e he => (hentries e he).2
    · intro h
      cases h with
      | mapping hkeys hvalues =>
        obtain ⟨fs, hfs⟩ := (exists_entriesToJson?_iff entries []).2 fun e he => ⟨hkeys e he, hvalues e he⟩
        exact ⟨fs, hfs, _, rfl⟩
  | .tagged tag v => by
    rw [toJson?, exists_bind_eq_ok_iff]
    constructor
    · intro h
      obtain ⟨j, hj, -⟩ := h
      exact .tagged ((exists_toJson?_iff v).1 ⟨j, hj⟩)
    · intro h
      cases h with
      | tagged h =>
        obtain ⟨j, hj⟩ := (exists_toJson?_iff v).2 h
        exact ⟨j, hj, _, rfl⟩
theorem exists_itemsToJson?_iff : (vs : List Yaml) →
    ((∃ js, itemsToJson? vs = .ok js) ↔ ∀ v ∈ vs, Convertible v)
  | [] => ⟨fun _ => nofun, fun _ => ⟨[], rfl⟩⟩
  | v :: vs => by
    rw [itemsToJson?, exists_bind_eq_ok_iff, List.forall_mem_cons, ← exists_toJson?_iff v,
      ← exists_itemsToJson?_iff vs]
    simp only [exists_bind_eq_ok_iff]
    constructor
    · intro h
      obtain ⟨j, hj, js, hjs, -⟩ := h
      exact ⟨⟨j, hj⟩, js, hjs⟩
    · intro h
      obtain ⟨⟨j, hj⟩, js, hjs⟩ := h
      exact ⟨j, hj, js, hjs, _, rfl⟩
theorem exists_entriesToJson?_iff : (es : List (Yaml × Yaml)) → (fields : List (String × Json)) →
    ((∃ fs, entriesToJson? fields es = .ok fs) ↔ ∀ e ∈ es, IsKey e.1 ∧ Convertible e.2)
  | [], fields => ⟨fun _ => nofun, fun _ => ⟨fields, rfl⟩⟩
  | (k, v) :: es, fields => by
    rw [entriesToJson?, exists_bind_eq_ok_iff, List.forall_mem_cons, ← exists_keyText?_iff (k := k),
      ← exists_toJson?_iff v]
    simp only [exists_bind_eq_ok_iff]
    constructor
    · intro h
      obtain ⟨t, ht, j, hj, hrest⟩ := h
      exact ⟨⟨⟨t, ht⟩, j, hj⟩, (exists_entriesToJson?_iff es _).1 hrest⟩
    · intro h
      obtain ⟨⟨⟨t, ht⟩, j, hj⟩, hrest⟩ := h
      exact ⟨t, ht, j, hj, (exists_entriesToJson?_iff es _).2 hrest⟩
end

/-! ## Values without tags -/

/-- A value without tags, in keys as well. -/
inductive Tagless : Yaml → Prop
  | null : Tagless .null
  | bool (b : Bool) : Tagless (.bool b)
  | number (n : Number) : Tagless (.number n)
  | string (s : String) : Tagless (.string s)
  | sequence {items : List Yaml} : (∀ v ∈ items, Tagless v) → Tagless (.sequence items)
  | mapping {entries : List (Yaml × Yaml)} :
      (∀ e ∈ entries, Tagless e.1) → (∀ e ∈ entries, Tagless e.2) → Tagless (.mapping entries)

theorem Tagless.untagged_eq {v : Yaml} (h : v.Tagless) : v.untagged = v := by
  cases h <;> rfl

theorem toText?_string (t : String) : (Yaml.string t).toText? = some t := rfl

theorem Tagless.get? {v x : Yaml} {key : String} (h : v.Tagless) (hx : v.get? key = some x) : x.Tagless := by
  rw [Yaml.get?, h.untagged_eq] at hx
  cases h with
  | mapping hkeys hvalues =>
    obtain ⟨e, he, rfl⟩ := Option.map_eq_some_iff.1 hx
    exact hvalues e (List.mem_of_find?_eq_some he)
  | _ => cases hx

mutual
/-- Written values have no tags. -/
theorem tagless_ofJson : (v : Json) → (ofJson v).Tagless
  | .null => .null
  | .bool b => .bool b
  | .number (.integer _ _) => .number _
  | .number (.double _) => .number _
  | .string s => .string s
  | .array items => .sequence (tagless_ofItems items)
  | .object fields => .mapping (fun e he => (tagless_ofFields fields e he).1) fun e he =>
      (tagless_ofFields fields e he).2
theorem tagless_ofItems : (vs : List Json) → ∀ w ∈ ofItems vs, w.Tagless
  | [] => nofun
  | v :: vs => List.forall_mem_cons.2 ⟨tagless_ofJson v, tagless_ofItems vs⟩
theorem tagless_ofFields : (fs : List (String × Json)) → ∀ e ∈ ofFields fs, e.1.Tagless ∧ e.2.Tagless
  | [] => nofun
  | (k, v) :: fs => List.forall_mem_cons.2 ⟨⟨.string k, tagless_ofJson v⟩, tagless_ofFields fs⟩
end

end Covenant.Yaml
