import Covenant.Proofs.ReadValues
import Covenant.Proofs.YamlValues
import Covenant.Reply

/-!
# How deep trees go

* `Json.Within`: no place of a tree lies deeper than a bound;
* `Json.within_of_read?`: a value that is read stays within the limit of the reader;
* `Reply.within_bodyOfText`: the body of a reply stays within the limit of the reader.
-/

namespace Covenant

namespace Json

/-! ## Depth -/

/-- No place of a tree lies deeper than this. -/
def Within (n : Nat) (v : Json) : Prop := ∀ p ∈ v.positions, p.length ≤ n

theorem Within.mono {m n : Nat} {v : Json} (h : v.Within m) (hle : m ≤ n) : v.Within n := by
  intro p hp
  have hlength : p.length ≤ m := h p hp
  omega

theorem within_of_childless {v : Json} (h : v.children = []) (n : Nat) : v.Within n := by
  intro p hp
  rw [positions_eq, h, List.flatMap_nil, List.mem_singleton] at hp
  rw [hp]
  exact Nat.zero_le n

theorem within_of_leaf {v : Json} (harray : v.kind ≠ .array) (hobject : v.kind ≠ .object) (n : Nat) :
    v.Within n := by
  apply within_of_childless
  cases v with
  | array => exact absurd rfl harray
  | object => exact absurd rfl hobject
  | _ => rfl

/-- A tree goes one level deeper than its children. -/
theorem within_of_children {n : Nat} {v : Json} (h : ∀ c ∈ v.children, c.2.Within n) : v.Within (n + 1) := by
  intro p hp
  cases p with
  | nil => exact Nat.zero_le _
  | cons s p =>
    obtain ⟨x, hx, hp⟩ := cons_mem_positions.1 hp
    have hlength : p.length ≤ n := h (s, x) hx p hp
    rw [List.length_cons]
    omega

theorem mem_positions_of_at? {v : Json} {p : List Step} (h : (v.at? p).isSome) : p ∈ v.positions := by
  induction p generalizing v with
  | nil => exact nil_mem_positions v
  | cons s p ih =>
    cases hnext : v.next? s with
    | none =>
      rw [at?_cons_of_none hnext] at h
      cases h
    | some x =>
      rw [at?_cons_of_some hnext] at h
      exact cons_mem_positions.2 ⟨x, mem_children_of_next? hnext, ih h⟩

/-! ## Values read from text -/

theorem within_keptByReading : KeptByReading (fun n v => v.Within n) fun n fields => ∀ f ∈ fields, f.2.Within n where
  leaf n v harray hobject := within_of_leaf harray hobject n
  array n items h := by
    apply within_of_children
    intro c hc
    obtain ⟨x, hx, rfl⟩ := List.mem_map.1 hc
    exact h x.1 (List.fst_mem_of_mem_zipIdx hx)
  noField n := nofun
  field n fields key v hfields hv := by
    intro f hf
    rcases mem_insert hf with hold | rfl
    · exact hfields f hold
    · exact hv
  object n fields h := by
    apply within_of_children
    intro c hc
    obtain ⟨f, hf, rfl⟩ := List.mem_map.1 hc
    exact h f hf

/-- A value that is read from text goes no deeper than the limit of the reader. -/
theorem within_of_read? {limit : Nat} {text : String} {v : Json} (h : read? limit text = some v) :
    v.Within limit :=
  within_keptByReading.of_read? h

end Json

/-- The body of a reply goes no deeper than the reader follows it, whatever text was received. -/
theorem Reply.within_bodyOfText (text : String) : (bodyOfText text).Within Json.standardLimit := by
  rw [bodyOfText]
  split
  · exact Json.within_of_childless rfl _
  · cases hread : Json.read? Json.standardLimit text with
    | none => exact Json.within_of_childless rfl _
    | some v => exact Json.within_of_read? hread

end Covenant
