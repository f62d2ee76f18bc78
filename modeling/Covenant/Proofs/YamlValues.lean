import Covenant.Proofs.Resolving
import Covenant.Yaml.ToJson

/-!
# JSON values as YAML values

* `Yaml.ofJson`: the YAML value that a written JSON value stands for;
* `Yaml.toJson?_ofJson`: it stands for the JSON value, if no name is repeated;
* `Yaml.distinctKeys_of_toJson?`: a value read from YAML repeats no name;
* `Yaml.hasText_of_toJson?`: its strings stand in the YAML value.
-/

namespace Covenant

/-! ## Results one after the other -/

theorem bind_eq_ok_iff {ε α β : Type} {x : Except ε α} {f : α → Except ε β} {b : β} :
    x >>= f = .ok b ↔ ∃ a, x = .ok a ∧ f a = .ok b := by
  cases x with
  | error e => exact ⟨nofun, fun ⟨_, h, _⟩ => nomatch h⟩
  | ok a => exact ⟨fun h => ⟨a, rfl, h⟩, fun ⟨_, rfl, h⟩ => h⟩

theorem Json.insert_of_not_mem {fields : List (String × Json)} {key : String} {value : Json}
    (h : key ∉ fields.map Prod.fst) : Json.insert fields key value = fields ++ [(key, value)] := by
  induction fields with
  | nil => rfl
  | cons f fs ih =>
    rw [List.map_cons, List.mem_cons, not_or] at h
    rw [Json.insert, if_neg (by simpa using Ne.symm h.1), ih h.2, List.cons_append]

theorem Json.mem_insert {fields : List (String × Json)} {key : String} {value : Json} {f : String × Json}
    (h : f ∈ Json.insert fields key value) : f ∈ fields ∨ f = (key, value) := by
  induction fields with
  | nil => exact .inr (List.mem_singleton.1 h)
  | cons g gs ih =>
    rw [Json.insert] at h
    split at h
    · rcases List.mem_cons.1 h with rfl | h
      · exact .inr rfl
      · exact .inl (List.mem_cons_of_mem g h)
    · rcases List.mem_cons.1 h with rfl | h
      · exact .inl List.mem_cons_self
      · exact (ih h).imp_left (List.mem_cons_of_mem g)

namespace Yaml

/-! ## Written values -/

mutual
/-- The YAML value that a written JSON value stands for. -/
def ofJson : Json → Yaml
  | .null => .null
  | .bool b => .bool b
  | .number (.integer i h) => .number (.integer i h)
  | .number (.double x) => .number (.double x)
  | .string s => .string s
  | .array items => .sequence (ofItems items)
  | .object fields => .mapping (ofFields fields)
def ofItems : List Json → List Yaml
  | [] => []
  | v :: vs => ofJson v :: ofItems vs
def ofFields : List (String × Json) → List (Yaml × Yaml)
  | [] => []
  | (k, v) :: fs => (.string k, ofJson v) :: ofFields fs
end

theorem ofFields_eq_map (fs : List (String × Json)) :
    ofFields fs = fs.map fun f => (.string f.1, ofJson f.2) := by
  induction fs with
  | nil => rfl
  | cons f fs ih =>
    obtain ⟨k, v⟩ := f
    rw [ofFields, ih, List.map_cons]

theorem untagged_ofJson (v : Json) : (ofJson v).untagged = ofJson v := by
  cases v with
  | number n => cases n <;> rfl
  | _ => rfl

theorem isNull_ofJson (v : Json) : (ofJson v).isNull = decide (v.kind = .null) := by
  rw [isNull, untagged_ofJson]
  cases v with
  | number n => cases n <;> rfl
  | _ => rfl

/-- The entry of a written object. -/
theorem get?_ofJson (fields : List (String × Json)) (key : String) :
    (ofJson (.object fields)).get? key = (Json.lookup fields key).map ofJson := by
  rw [get?, untagged_ofJson, ofJson]
  dsimp only
  rw [ofFields_eq_map, List.find?_map, Json.lookup, Option.map_map, Option.map_map]
  rfl

mutual
/-- A written value stands for itself. -/
theorem toJson?_ofJson : (v : Json) → v.DistinctKeys → (ofJson v).toJson? = .ok v
  | .null, _ => rfl
  | .bool _, _ => rfl
  | .number (.integer _ _), _ => rfl
  | .number (.double _), _ => rfl
  | .string _, _ => rfl
  | .array items, h => by
    rw [ofJson, toJson?, itemsToJson?_ofItems items h]
    rfl
  | .object fields, h => by
    rw [ofJson, toJson?, entriesToJson?_ofFields fields [] h.1 h.2]
    rfl
theorem itemsToJson?_ofItems : (vs : List Json) → Json.DistinctKeysItems vs →
    itemsToJson? (ofItems vs) = .ok vs
  | [], _ => rfl
  | v :: vs, h => by
    rw [ofItems, itemsToJson?, toJson?_ofJson v h.1, itemsToJson?_ofItems vs h.2]
    rfl
theorem entriesToJson?_ofFields : (fs acc : List (String × Json)) → ((acc ++ fs).map Prod.fst).Nodup →
    Json.DistinctKeysFields fs → entriesToJson? acc (ofFields fs) = .ok (acc ++ fs)
  | [], acc, _, _ => by
    rw [List.append_nil]
    rfl
  | (k, v) :: fs, acc, hnodup, h => by
    have hnew : k ∉ acc.map Prod.fst := by
      intro hk
      rw [List.map_append, List.nodup_append] at hnodup
      exact hnodup.2.2 k hk k List.mem_cons_self rfl
    have happend : acc ++ (k, v) :: fs = (acc ++ [(k, v)]) ++ fs := by simp
    rw [ofFields, entriesToJson?, toJson?_ofJson v h.1]
    show entriesToJson? (Json.insert acc k v) (ofFields fs) = _
    rw [Json.insert_of_not_mem hnew, happend]
    exact entriesToJson?_ofFields fs _ (happend ▸ hnodup) h.2
end

/-! ## Values that are read -/

/-- A string that stands somewhere in a tree as a value. -/
inductive HasText : Yaml → String → Prop
  | here (t : String) : HasText (.string t) t
  | item {items : List Yaml} {v : Yaml} {t : String} : v ∈ items → HasText v t → HasText (.sequence items) t
  | value {entries : List (Yaml × Yaml)} {e : Yaml × Yaml} {t : String} :
      e ∈ entries → HasText e.2 t → HasText (.mapping entries) t
  | inside {tag t : String} {v : Yaml} : HasText v t → HasText (.tagged tag v) t

@[simp] theorem hasText_string {s t : String} : HasText (.string s) t ↔ t = s := by
  constructor
  · rintro ⟨⟩
    rfl
  · rintro rfl
    exact .here t

@[simp] theorem hasText_mapping {entries : List (Yaml × Yaml)} {t : String} :
    HasText (.mapping entries) t ↔ ∃ e ∈ entries, e.2.HasText t := by
  constructor
  · rintro (_ | _ | ⟨he, ht⟩)
    exact ⟨_, he, ht⟩
  · rintro ⟨e, he, ht⟩
    exact .value he ht

@[simp] theorem not_hasText_number {n : Number} {t : String} : ¬ HasText (.number n) t := nofun

theorem hasText_of_untagged {v : Yaml} {t : String} (h : v.untagged.HasText t) : v.HasText t := by
  induction v using untagged.induct with
  | case1 tag v ih => exact .inside (ih h)
  | case2 v hno =>
    rwa [untagged.eq_2 v hno] at h

theorem hasText_of_get? {v x : Yaml} {key t : String} (h : v.get? key = some x) (ht : x.HasText t) :
    v.HasText t := by
  refine hasText_of_untagged ?_
  rw [get?] at h
  split at h
  · rename_i entries heq
    obtain ⟨e, he, rfl⟩ := Option.map_eq_some_iff.1 h
    rw [heq]
    exact .value (List.mem_of_find?_eq_some he) ht
  · cases h

mutual
/-- The strings of a value that is read stand in the tree. -/
theorem hasText_of_toJson? : {v : Yaml} → {j : Json} → {t : String} → v.toJson? = .ok j → j.HasText t →
    v.HasText t
  | .null, _, _, h, ht => by
    cases h
    exact absurd ht (Json.not_hasText_of_kind ⟨nofun, nofun, nofun⟩)
  | .bool _, _, _, h, ht => by
    cases h
    exact absurd ht (Json.not_hasText_of_kind ⟨nofun, nofun, nofun⟩)
  | .number n, _, _, h, ht => by
    cases h
    refine absurd ht (Json.not_hasText_of_kind ?_)
    cases n <;> exact ⟨nofun, nofun, nofun⟩
  | .string s, _, _, h, ht => by
    cases h
    rw [Json.hasText_string.1 ht]
    exact .here s
  | .sequence items, _, _, h, ht => by
    rw [toJson?] at h
    obtain ⟨js, hjs, h⟩ := bind_eq_ok_iff.1 h
    cases h
    obtain ⟨j, hj, ht⟩ := Json.hasText_array.1 ht
    obtain ⟨v, hv, ht⟩ := hasText_of_itemsToJson? hjs hj ht
    exact .item hv ht
  | .mapping entries, _, _, h, ht => by
    rw [toJson?] at h
    obtain ⟨fs, hfs, h⟩ := bind_eq_ok_iff.1 h
    cases h
    obtain ⟨f, hf, ht⟩ := Json.hasText_object.1 ht
    rcases hasText_of_entriesToJson? hfs hf ht with ⟨g, hg, -⟩ | ⟨e, he, ht⟩
    · cases hg
    · exact .value he ht
  | .tagged tag v, _, _, h, ht => by
    rw [toJson?] at h
    obtain ⟨j, hj, h⟩ := bind_eq_ok_iff.1 h
    cases h
    obtain ⟨f, hf, ht⟩ := Json.hasText_object.1 ht
    cases List.mem_singleton.1 hf
    exact .inside (hasText_of_toJson? hj ht)
theorem hasText_of_itemsToJson? : {vs : List Yaml} → {js : List Json} → {j : Json} → {t : String} →
    itemsToJson? vs = .ok js → j ∈ js → j.HasText t → ∃ v ∈ vs, v.HasText t
  | [], _, _, _, h, hj, _ => by
    cases h
    cases hj
  | v :: vs, _, _, _, h, hj, ht => by
    rw [itemsToJson?] at h
    obtain ⟨w, hw, h⟩ := bind_eq_ok_iff.1 h
    obtain ⟨ws, hws, h⟩ := bind_eq_ok_iff.1 h
    cases h
    rcases List.mem_cons.1 hj with rfl | hj
    · exact ⟨v, List.mem_cons_self, hasText_of_toJson? hw ht⟩
    · obtain ⟨x, hx, ht⟩ := hasText_of_itemsToJson? hws hj ht
      exact ⟨x, List.mem_cons_of_mem v hx, ht⟩
theorem hasText_of_entriesToJson? : {es : List (Yaml × Yaml)} → {acc fs : List (String × Json)} →
    {f : String × Json} → {t : String} → entriesToJson? acc es = .ok fs → f ∈ fs → f.2.HasText t →
    (∃ g ∈ acc, g.2.HasText t) ∨ ∃ e ∈ es, e.2.HasText t
  | [], _, _, f, _, h, hf, ht => by
    cases h
    exact .inl ⟨f, hf, ht⟩
  | (k, v) :: es, _, _, _, _, h, hf, ht => by
    rw [entriesToJson?] at h
    obtain ⟨key, -, h⟩ := bind_eq_ok_iff.1 h
    obtain ⟨w, hw, h⟩ := bind_eq_ok_iff.1 h
    rcases hasText_of_entriesToJson? h hf ht with ⟨g, hg, ht⟩ | ⟨e, he, ht⟩
    · rcases Json.mem_insert hg with hg | rfl
      · exact .inl ⟨g, hg, ht⟩
      · exact .inr ⟨(k, v), List.mem_cons_self, hasText_of_toJson? hw ht⟩
    · exact .inr ⟨e, List.mem_cons_of_mem _ he, ht⟩
end

mutual
/-- A value that is read repeats no name. -/
theorem distinctKeys_of_toJson? : {v : Yaml} → {j : Json} → v.toJson? = .ok j → j.DistinctKeys
  | .null, _, h => by
    cases h
    trivial
  | .bool _, _, h => by
    cases h
    trivial
  | .number n, _, h => by
    cases h
    cases n <;> trivial
  | .string _, _, h => by
    cases h
    trivial
  | .sequence items, _, h => by
    rw [toJson?] at h
    obtain ⟨js, hjs, h⟩ := bind_eq_ok_iff.1 h
    cases h
    exact Json.distinctKeysItems_iff.2 fun _ hj => distinctKeys_of_itemsToJson? hjs hj
  | .mapping entries, _, h => by
    rw [toJson?] at h
    obtain ⟨fs, hfs, h⟩ := bind_eq_ok_iff.1 h
    cases h
    obtain ⟨hnodup, hfields⟩ := distinctKeys_of_entriesToJson? hfs List.nodup_nil nofun
    exact ⟨hnodup, Json.distinctKeysFields_iff.2 hfields⟩
  | .tagged tag v, _, h => by
    rw [toJson?] at h
    obtain ⟨j, hj, h⟩ := bind_eq_ok_iff.1 h
    cases h
    exact ⟨List.nodup_singleton _, distinctKeys_of_toJson? hj, trivial⟩
theorem distinctKeys_of_itemsToJson? : {vs : List Yaml} → {js : List Json} → {j : Json} →
    itemsToJson? vs = .ok js → j ∈ js → j.DistinctKeys
  | [], _, _, h, hj => by
    cases h
    cases hj
  | v :: vs, _, _, h, hj => by
    rw [itemsToJson?] at h
    obtain ⟨w, hw, h⟩ := bind_eq_ok_iff.1 h
    obtain ⟨ws, hws, h⟩ := bind_eq_ok_iff.1 h
    cases h
    rcases List.mem_cons.1 hj with rfl | hj
    · exact distinctKeys_of_toJson? hw
    · exact distinctKeys_of_itemsToJson? hws hj
theorem distinctKeys_of_entriesToJson? : {es : List (Yaml × Yaml)} → {acc fs : List (String × Json)} →
    entriesToJson? acc es = .ok fs → (acc.map Prod.fst).Nodup → (∀ f ∈ acc, f.2.DistinctKeys) →
    (fs.map Prod.fst).Nodup ∧ ∀ f ∈ fs, f.2.DistinctKeys
  | [], _, _, h, hnodup, hacc => by
    cases h
    exact ⟨hnodup, hacc⟩
  | (k, v) :: es, _, _, h, hnodup, hacc => by
    rw [entriesToJson?] at h
    obtain ⟨key, -, h⟩ := bind_eq_ok_iff.1 h
    obtain ⟨w, hw, h⟩ := bind_eq_ok_iff.1 h
    refine distinctKeys_of_entriesToJson? h (Json.nodup_keys_insert key w hnodup) fun f hf => ?_
    rcases Json.mem_insert hf with hf | rfl
    · exact hacc f hf
    · exact distinctKeys_of_toJson? hw
end

end Yaml

end Covenant
