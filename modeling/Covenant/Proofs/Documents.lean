import Covenant.Command.Generate
import Covenant.Proofs.ReadValues
import Covenant.Proofs.YamlValues

/-!
# API documents

No value repeats a name that is read from a file, or that is reached in such a value.

* `Json.distinctKeys_of_read?`: values read from JSON text;
* `distinctKeys_readDocument`: documents read from a file;
* `OpenApi.distinctKeys_target`, `OpenApi.distinctKeys_deref`: values behind references.
-/

namespace Covenant

namespace Json

/-! ## Values read from text -/

theorem DistinctKeys.insert {fields : List (String × Json)} {v : Json} (h : (Json.object fields).DistinctKeys)
    (hv : v.DistinctKeys) (key : String) : (Json.object (insert fields key v)).DistinctKeys := by
  refine ⟨nodup_keys_insert key v h.1, distinctKeysFields_iff.2 fun f hf => ?_⟩
  rcases mem_insert hf with hf | rfl
  · exact distinctKeysFields_iff.1 h.2 f hf
  · exact hv

theorem distinctKeys_of_leaf {v : Json} (harray : v.kind ≠ .array) (hobject : v.kind ≠ .object) :
    v.DistinctKeys := by
  cases v with
  | array => exact absurd rfl harray
  | object => exact absurd rfl hobject
  | _ => trivial

theorem distinctKeys_keptByReading :
    KeptByReading (fun _ v => v.DistinctKeys) fun _ fields => (Json.object fields).DistinctKeys where
  leaf _ _ harray hobject := distinctKeys_of_leaf harray hobject
  array _ _ h := distinctKeysItems_iff.2 h
  noField _ := ⟨List.nodup_nil, trivial⟩
  field _ _ key _ hfields hv := hfields.insert hv key
  object _ _ h := h

/-- A value that is read from text repeats no name. -/
theorem distinctKeys_of_read? {limit : Nat} {text : String} {v : Json} (h : read? limit text = some v) :
    v.DistinctKeys :=
  distinctKeys_keptByReading.of_read? h

/-! ## Values inside a value -/

theorem DistinctKeys.get? {v w : Json} {key : String} (h : v.DistinctKeys) (hget : v.get? key = some w) :
    w.DistinctKeys := by
  cases v with
  | object fields =>
    have hnext : (Json.object fields).next? (.field key) = some w := hget
    exact h.child (mem_children_of_next? hnext)
  | _ => cases hget

theorem DistinctKeys.item {items : List Json} {v : Json} (h : (Json.array items).DistinctKeys)
    (hv : v ∈ items) : v.DistinctKeys :=
  distinctKeysItems_iff.1 h v hv

theorem DistinctKeys.field {fields : List (String × Json)} {f : String × Json}
    (h : (Json.object fields).DistinctKeys) (hf : f ∈ fields) : f.2.DistinctKeys :=
  distinctKeysFields_iff.1 h.2 f hf

theorem DistinctKeys.child? {v w : Json} {name : List Char} (h : v.DistinctKeys)
    (hchild : v.child? name = some w) : w.DistinctKeys := by
  cases v with
  | object fields =>
    have hget : (Json.object fields).get? (String.ofList name) = some w := hchild
    exact h.get? hget
  | array items =>
    obtain ⟨i, -, hi⟩ := Option.bind_eq_some_iff.1 hchild
    exact h.item (List.mem_of_getElem? hi)
  | _ => cases hchild

theorem DistinctKeys.pointer? {v w : Json} {pointer : List Char} (h : v.DistinctKeys)
    (hpointer : v.pointer? pointer = some w) : w.DistinctKeys := by
  unfold Json.pointer? at hpointer
  split at hpointer
  · cases hpointer
    exact h
  · rename_i cs
    generalize Text.splitAt '/' cs = names at hpointer
    induction names generalizing v with
    | nil =>
      cases hpointer
      exact h
    | cons name names ih =>
      rw [List.foldlM_cons] at hpointer
      obtain ⟨x, hx, hpointer⟩ := Option.bind_eq_some_iff.1 hpointer
      exact ih (h.child? hx) hpointer
  · cases hpointer

end Json

/-- The document of a file repeats no name. -/
theorem distinctKeys_readDocument {path text : String} {doc : Json} (h : readDocument path text = .ok doc) :
    doc.DistinctKeys := by
  rw [readDocument] at h
  split at h
  · split at h
    · rename_i v hread
      cases h
      exact Json.distinctKeys_of_read? hread
    · cases h
  · split at h
    · cases h
    · split at h
      · rename_i j hj
        cases h
        exact Yaml.distinctKeys_of_toJson? hj
      · cases h

namespace OpenApi

theorem distinctKeys_target {doc v : Json} {reference : String} (hdoc : doc.DistinctKeys)
    (h : target doc reference = .ok v) : v.DistinctKeys := by
  rw [target] at h
  split at h
  · split at h
    · rename_i w hw
      cases h
      exact hdoc.pointer? hw
    · cases h
  · cases h

theorem distinctKeys_follow {doc v w : Json} {unseen : List String} (hdoc : doc.DistinctKeys)
    (hv : v.DistinctKeys) (h : follow doc unseen v = .ok w) : w.DistinctKeys := by
  fun_induction follow doc unseen v with
  | case1 unseen v hr =>
    cases h
    exact hv
  | case2 | case4 => cases h
  | case3 unseen v r hr hmem x hx ih => exact ih (distinctKeys_target hdoc hx) h

theorem distinctKeys_deref {doc v w : Json} (hdoc : doc.DistinctKeys) (hv : v.DistinctKeys)
    (h : deref doc v = .ok w) : w.DistinctKeys :=
  distinctKeys_follow hdoc hv h

end OpenApi

end Covenant
