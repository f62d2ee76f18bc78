import Covenant.Json.Reader

/-!
# Values read from JSON text

The reader counts the arrays and objects that it is in, and refuses a text that goes beyond its limit.

* `Json.KeptByReading`: a property that passes from items and fields to the array or object around them;
* `Json.KeptByReading.of_read?`: such a property holds of whatever is read.
-/

namespace Covenant.Json

/-- A property of values at a distance from the limit. It holds of leaves, and passes from the items and the
fields, which are set one after the other, to the array or object around them, one level further out. -/
structure KeptByReading (P : Nat → Json → Prop) (Q : Nat → List (String × Json) → Prop) : Prop where
  leaf : ∀ n v, v.kind ≠ .array → v.kind ≠ .object → P n v
  array : ∀ n items, (∀ v ∈ items, P n v) → P (n + 1) (.array items)
  noField : ∀ n, Q n []
  field : ∀ n fields key v, Q n fields → P n v → Q n (insert fields key v)
  object : ∀ n fields, Q n fields → P (n + 1) (.object fields)

section

variable {P : Nat → Json → Prop} {Q : Nat → List (String × Json) → Prop}

/-- A property of whatever is read with some fuel. -/
structure HoldsOfRead (P : Nat → Json → Prop) (Q : Nat → List (String × Json) → Prop) (fuel : Nat) : Prop where
  value : ∀ depth cs v rest, readValue? fuel depth cs = some (v, rest) → P depth v
  items : ∀ depth cs vs rest, readItems? fuel depth cs = some (vs, rest) → ∀ v ∈ vs, P depth v
  fields : ∀ depth before cs fs rest, readFields? fuel depth before cs = some (fs, rest) →
    Q depth before → Q depth fs

theorem of_map_eq_some {α : Type} {r : Option α} {f : α → Json × List Char} {n : Nat} {v : Json}
    {rest : List Char} (h : r.map f = some (v, rest)) (hf : ∀ x, r = some x → P n (f x).1) : P n v := by
  obtain ⟨x, hx, heq⟩ := Option.map_eq_some_iff.1 h
  have hv : (f x).1 = v := congrArg Prod.fst heq
  rw [← hv]
  exact hf x hx

namespace HoldsOfRead

variable {fuel depth : Nat} {cs rest : List Char} (hkept : KeptByReading P Q) (ih : HoldsOfRead P Q fuel)
include hkept ih

theorem readValue {v : Json} (h : readValue? (fuel + 1) depth cs = some (v, rest)) : P depth v := by
  rw [readValue?] at h
  split at h
  · cases h
  · exact of_map_eq_some h fun _ _ => hkept.leaf depth _ nofun nofun
  · exact of_map_eq_some h fun _ _ => hkept.leaf depth _ nofun nofun
  · exact of_map_eq_some h fun _ _ => hkept.leaf depth _ nofun nofun
  · exact of_map_eq_some h fun _ _ => hkept.leaf depth _ nofun nofun
  · -- An array spends one level.
    split at h
    · cases h
    · split at h
      · cases h
        exact hkept.array _ [] nofun
      · exact of_map_eq_some h fun _ hitems => hkept.array _ _ (ih.items _ _ _ _ hitems)
  · -- So does an object.
    split at h
    · cases h
    · split at h
      · cases h
        exact hkept.object _ [] (hkept.noField _)
      · exact of_map_eq_some h fun _ hfields =>
          hkept.object _ _ (ih.fields _ _ _ _ _ hfields (hkept.noField _))
  · exact of_map_eq_some h fun _ _ => hkept.leaf depth _ nofun nofun

omit hkept in
theorem readItems {vs : List Json} (h : readItems? (fuel + 1) depth cs = some (vs, rest)) :
    ∀ v ∈ vs, P depth v := by
  rw [readItems?] at h
  split at h
  · cases h
  · rename_i v r hv
    have hfirst : P depth v := ih.value _ _ _ _ hv
    split at h
    · cases h
      exact List.forall_mem_singleton.2 hfirst
    · obtain ⟨_, hitems, heq⟩ := Option.map_eq_some_iff.1 h
      cases heq
      exact List.forall_mem_cons.2 ⟨hfirst, ih.items _ _ _ _ hitems⟩
    · cases h

theorem readFields {before fs : List (String × Json)}
    (h : readFields? (fuel + 1) depth before cs = some (fs, rest)) (hbefore : Q depth before) :
    Q depth fs := by
  rw [readFields?] at h
  split at h
  · split at h
    · cases h
    · split at h
      · split at h
        · cases h
        · rename_i k _ _ _ _ v r hv
          have hset := fun key => hkept.field depth before key v hbefore (ih.value _ _ _ _ hv)
          split at h
          · cases h
            exact hset _
          · exact ih.fields _ _ _ _ _ h (hset _)
          · cases h
      · cases h
  · cases h

end HoldsOfRead

/-- With any fuel, by induction on it. -/
theorem KeptByReading.holdsOfRead (h : KeptByReading P Q) (fuel : Nat) : HoldsOfRead P Q fuel := by
  induction fuel with
  | zero => exact ⟨nofun, nofun, nofun⟩
  | succ fuel ih =>
    exact ⟨fun _ _ _ _ hread => ih.readValue h hread, fun _ _ _ _ hread => ih.readItems hread,
      fun _ _ _ _ _ hread => ih.readFields h hread⟩

/-- A value that is read is at the distance of the whole limit. -/
theorem KeptByReading.of_read? (h : KeptByReading P Q) {limit : Nat} {text : String} {v : Json}
    (hread : read? limit text = some v) : P limit v := by
  rw [read?] at hread
  split at hread
  · rename_i w rest hvalue
    split at hread
    · cases hread
      exact (h.holdsOfRead _).value _ _ _ _ hvalue
    · cases hread
  · cases hread

end

end Covenant.Json
