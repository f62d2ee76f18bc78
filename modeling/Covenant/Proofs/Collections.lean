import Covenant.Collection
import Mathlib.Data.List.Forall2

/-!
# Entries of a collection

* `Entry.settleNames_eq_self`: entries of different names keep them;
* `Entry.distinct_of_settleNames`: entries that all keep their contracts are of different names;
* `Entry.forall₂_ofAllFound`: one entry for each thing that was found.
-/

namespace Covenant

namespace Entry

/-- An entry with a contract. -/
def Loaded (e : Entry) : Prop := ∃ c, e.contract = .ok c

theorem not_loaded_rejectName (e : Entry) : ¬ e.rejectName.Loaded := nofun

/-! ## Names -/

/-- Entries of different names keep them. -/
theorem settleNames_eq_self {taken : List String} {es : List Entry} (hnodup : (es.map Entry.name).Nodup)
    (hfree : ∀ e ∈ es, e.name ∉ taken) : settleNames taken es = es := by
  induction es generalizing taken with
  | nil => rfl
  | cons e es ih =>
    obtain ⟨hname, hnodup⟩ := List.nodup_cons.1 hnodup
    obtain ⟨he, hfree⟩ := List.forall_mem_cons.1 hfree
    rw [settleNames]
    split
    · rw [ih hnodup hfree]
    · rw [if_neg (by simpa using he), ih hnodup fun e' he' => ?_]
      rw [List.mem_cons, not_or]
      exact ⟨fun heq => hname (heq ▸ List.mem_map_of_mem he'), hfree e' he'⟩

/-- Entries that all keep their contracts are of different names, none of them taken. -/
theorem distinct_of_settleNames {taken : List String} {es : List Entry}
    (h : ∀ e ∈ settleNames taken es, e.Loaded) :
    (es.map Entry.name).Nodup ∧ ∀ e ∈ es, e.name ∉ taken := by
  induction es generalizing taken with
  | nil => exact ⟨List.nodup_nil, nofun⟩
  | cons e es ih =>
    rw [settleNames] at h
    split at h
    · rename_i err herr
      obtain ⟨c, hc⟩ := h e List.mem_cons_self
      rw [herr] at hc
      cases hc
    · split at h
      · exact absurd (h _ List.mem_cons_self) (not_loaded_rejectName e)
      · rename_i htaken
        obtain ⟨hnodup, hfree⟩ := ih fun e' he' => h e' (List.mem_cons_of_mem e he')
        refine ⟨List.nodup_cons.2 ⟨fun hname => ?_, hnodup⟩, List.forall_mem_cons.2 ⟨?_, fun e' he' => ?_⟩⟩
        · obtain ⟨e', he', heq⟩ := List.mem_map.1 hname
          exact hfree e' he' (heq ▸ List.mem_cons_self)
        · simpa using htaken
        · exact fun hmem => hfree e' he' (List.mem_cons_of_mem _ hmem)

/-! ## What was found -/

@[simp] theorem path_ofFile (d : Disk) (root path : String) (s : Source) :
    (ofFile d root path s).1.path = path := by
  rw [ofFile]
  split
  · rfl
  · split <;> rfl

@[simp] theorem name_ofFile (d : Disk) (root path : String) (s : Source) :
    (ofFile d root path s).1.name = Path.contractName root path := by
  rw [ofFile]
  split
  · rfl
  · split <;> rfl

/-- One entry for each thing that was found. -/
theorem forall₂_ofAllFound (d : Disk) (root : String) (found : List Found) (s : Source) :
    List.Forall₂ (fun f e => ∃ s', (ofFound d root f s').1 = e) found (ofAllFound d root found s).1 := by
  induction found generalizing s with
  | nil => exact .nil
  | cons f found ih => exact .cons ⟨s, rfl⟩ (ih _)

end Entry

end Covenant
