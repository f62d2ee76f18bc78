import Covenant.Proofs.Comparison

/-!
# What a comparison does not look at

An actual tree may hold more than the expected one asks for. A comparison takes no notice of it.

* `Json.restrict`: the part of an actual tree that an expected tree asks for;
* `AgreeAlong`: two actual trees that hold the same where an expected tree looks;
* `agreeAlong_restrict`: a tree and its restriction agree;
* `AgreeAlong.reached_eq`, `AgreeAlong.differences_eq`: where trees agree they are reached and differ alike;
* `compare_restrict`: a comparison with a tree is that with its restriction.
-/

namespace Covenant

/-! ## Restriction to an expected tree -/

namespace Json

mutual
/-- The part of an actual tree that an expected tree asks for: of an object the fields that are expected, in
their expected order, of an array the leading items. What is not of the expected kind stays as it is. -/
def restrict : Json → Json → Json
  | .object es, .object as => .object (restrictFields es as)
  | .array es, .array as => .array (restrictItems es as)
  | _, a => a
def restrictFields : List (String × Json) → List (String × Json) → List (String × Json)
  | [], _ => []
  | (key, e) :: es, as =>
    match lookup as key with
    | some a => (key, restrict e a) :: restrictFields es as
    | none => restrictFields es as
def restrictItems : List Json → List Json → List Json
  | e :: es, a :: as => restrict e a :: restrictItems es as
  | _, _ => []
end

theorem restrict_of_not_alike {e a : Json} (h : ¬ Alike e a) : e.restrict a = a := by
  cases e with
  | object es =>
    cases a with
    | object as => exact absurd (.objects es as) h
    | _ => rfl
  | array es =>
    cases a with
    | array as => exact absurd (.arrays es as) h
    | _ => rfl
  | _ => rfl

theorem lookup_restrictFields_of_not_mem {es : List (String × Json)} {key : String}
    (h : key ∉ es.map Prod.fst) (as : List (String × Json)) : lookup (restrictFields es as) key = none := by
  induction es with
  | nil => rfl
  | cons f es ih =>
    obtain ⟨k, e⟩ := f
    rw [List.map_cons, List.mem_cons, not_or] at h
    rw [restrictFields]
    cases lookup as k with
    | none => exact ih h.2
    | some a =>
      show lookup ((k, restrict e a) :: restrictFields es as) key = none
      rw [lookup_cons_of_ne (fun heq => h.1 heq.symm)]
      exact ih h.2

/-- The restriction has the expected fields that are there, each restricted. -/
theorem lookup_restrictFields {es : List (String × Json)} (hkeys : (es.map Prod.fst).Nodup) {key : String}
    {e : Json} (h : (key, e) ∈ es) (as : List (String × Json)) :
    lookup (restrictFields es as) key = (lookup as key).map e.restrict := by
  induction es with
  | nil => cases h
  | cons f es ih =>
    obtain ⟨k, x⟩ := f
    rw [List.map_cons, List.nodup_cons] at hkeys
    rw [restrictFields]
    rcases List.mem_cons.1 h with heq | hmem
    · obtain ⟨rfl, rfl⟩ := Prod.mk.inj heq
      cases hlookup : lookup as key with
      | none => exact lookup_restrictFields_of_not_mem hkeys.1 as
      | some a => exact lookup_cons_self key (restrict e a) (restrictFields es as)
    · have hne : k ≠ key := by
        rintro rfl
        exact hkeys.1 (List.mem_map.2 ⟨(k, e), hmem, rfl⟩)
      cases lookup as k with
      | none => exact ih hkeys.2 hmem
      | some a =>
        show lookup ((k, restrict x a) :: restrictFields es as) key = _
        rw [lookup_cons_of_ne hne]
        exact ih hkeys.2 hmem

theorem getElem?_restrictItems {es as : List Json} {i : Nat} {e : Json} (h : es[i]? = some e) :
    (restrictItems es as)[i]? = as[i]?.map e.restrict := by
  induction es generalizing as i with
  | nil => cases h
  | cons x es ih =>
    cases as with
    | nil => rfl
    | cons a as =>
      cases i with
      | zero =>
        cases h
        rfl
      | succ i => exact ih h

theorem alike_restrict {e a : Json} (h : Alike e a) : Alike e (e.restrict a) := by
  cases h with
  | objects es as => exact .objects es _
  | arrays es as => exact .arrays es _

theorem alike_restrict_iff {e a : Json} : Alike e (e.restrict a) ↔ Alike e a := by
  constructor
  · intro h
    by_contra hnot
    rw [restrict_of_not_alike hnot] at h
    exact hnot h
  · exact alike_restrict

/-- Behind a step that is expected the restriction has what the tree has, restricted. -/
theorem next?_restrict {e a x : Json} {s : Step} (he : e.DistinctKeys) (h : Alike e a)
    (hx : (s, x) ∈ e.children) : (e.restrict a).next? s = (a.next? s).map x.restrict := by
  cases h with
  | objects es as =>
    obtain ⟨⟨key, y⟩, hf, heq⟩ := List.mem_map.1 hx
    obtain ⟨rfl, rfl⟩ := Prod.mk.inj heq
    exact lookup_restrictFields he.1 hf as
  | arrays es as =>
    obtain ⟨⟨y, i⟩, hi, heq⟩ := List.mem_map.1 hx
    obtain ⟨rfl, rfl⟩ := Prod.mk.inj heq
    exact getElem?_restrictItems (List.mem_zipIdx_iff_getElem?.1 hi)

/-! ## Equal restrictions -/

theorem restrictFields_congr {es as bs : List (String × Json)}
    (h : ∀ f ∈ es, (lookup as f.1).map f.2.restrict = (lookup bs f.1).map f.2.restrict) :
    restrictFields es as = restrictFields es bs := by
  induction es with
  | nil => rfl
  | cons f es ih =>
    obtain ⟨key, e⟩ := f
    have hfirst : (lookup as key).map e.restrict = (lookup bs key).map e.restrict :=
      h (key, e) List.mem_cons_self
    have hrest := ih fun g hg => h g (List.mem_cons_of_mem _ hg)
    rw [restrictFields, restrictFields, hrest]
    cases ha : lookup as key with
    | none =>
      rw [ha, Option.map_none] at hfirst
      rw [Option.map_eq_none_iff.1 hfirst.symm]
    | some x =>
      rw [ha, Option.map_some] at hfirst
      obtain ⟨y, hb, hxy⟩ := Option.map_eq_some_iff.1 hfirst.symm
      simp only [hb, hxy]

theorem restrictItems_congr {es as bs : List Json}
    (h : ∀ (i : Nat) e, es[i]? = some e → as[i]?.map e.restrict = bs[i]?.map e.restrict) :
    restrictItems es as = restrictItems es bs := by
  induction es generalizing as bs with
  | nil => rfl
  | cons e es ih =>
    have hfirst := h 0 e rfl
    cases as with
    | nil =>
      cases bs with
      | nil => rfl
      | cons b bs => cases hfirst
    | cons a as =>
      cases bs with
      | nil => cases hfirst
      | cons b bs =>
        rw [restrictItems, restrictItems, Option.some.inj hfirst, ih fun i x hx => h (i + 1) x hx]

theorem restrict_congr {e a b : Json} (ha : Alike e a) (hb : Alike e b)
    (h : ∀ s x, (s, x) ∈ e.children → (a.next? s).map x.restrict = (b.next? s).map x.restrict) :
    e.restrict a = e.restrict b := by
  cases ha with
  | objects es as =>
    cases hb with
    | objects _ bs =>
      refine congrArg Json.object (restrictFields_congr fun f hf => ?_)
      exact h (.field f.1) f.2 (List.mem_map.2 ⟨f, hf, rfl⟩)
  | arrays es as =>
    cases hb with
    | arrays _ bs =>
      refine congrArg Json.array (restrictItems_congr fun i e he => ?_)
      exact h (.index i) e (List.mem_map.2 ⟨(e, i), List.mem_zipIdx_iff_getElem?.2 he, rfl⟩)

end Json

/-! ## Agreement along an expected tree -/

/-- Two actual trees that hold the same where an expected tree looks: they may differ in further fields, in
the order of fields and in further items, at any place of the expected tree. -/
inductive AgreeAlong : Json → Json → Json → Prop
  | same (e a : Json) : AgreeAlong e a a
  | children {e a b : Json} : Alike e a → Alike e b →
      (∀ s x, (s, x) ∈ e.children → (a.next? s).isSome = (b.next? s).isSome) →
      (∀ s x y z, (s, x) ∈ e.children → a.next? s = some y → b.next? s = some z → AgreeAlong x y z) →
      AgreeAlong e a b

theorem agreeAlong_restrict {e : Json} (he : e.DistinctKeys) (a : Json) : AgreeAlong e a (e.restrict a) := by
  induction e, a using pair_induction with
  | step e a ih =>
    by_cases halike : Alike e a
    · refine .children halike (Json.alike_restrict halike) ?_ ?_
      · intro s x hx
        rw [Json.next?_restrict he halike hx, Option.isSome_map]
      · intro s x y z hx hy hz
        rw [Json.next?_restrict he halike hx, hy] at hz
        rw [← Option.some.inj hz]
        exact ih s x y hx hy (he.child hx)
    · rw [Json.restrict_of_not_alike halike]
      exact .same e a

/-- What two trees hold behind a step is mapped alike, if it is there in both or in neither. -/
theorem map_next?_eq {β : Type} {a b : Json} {s : Step} {f : Json → β}
    (hsome : (a.next? s).isSome = (b.next? s).isSome)
    (h : ∀ y z, a.next? s = some y → b.next? s = some z → f y = f z) :
    (a.next? s).map f = (b.next? s).map f := by
  cases hy : a.next? s with
  | none =>
    rw [hy] at hsome
    rw [Option.isNone_iff_eq_none.1 (Option.isSome_eq_false_iff.1 hsome.symm)]
  | some y =>
    rw [hy] at hsome
    obtain ⟨z, hz⟩ := Option.isSome_iff_exists.1 hsome.symm
    rw [hz, Option.map_some, Option.map_some, h y z hy hz]

theorem childReached_eq (a : Json) (c : Step × Json) :
    childReached a c = ((a.next? c.1).map fun y => (reached c.2 y).map (c.1 :: ·)).getD [] := by
  rw [childReached]
  cases a.next? c.1 <;> rfl

theorem childDifferences_eq (a : Json) (c : Step × Json) :
    childDifferences a c =
      ((a.next? c.1).map fun y => (differences c.2 y).map (·.below [c.1])).getD [⟨[c.1], c.2, .missing⟩] := by
  rw [childDifferences]
  cases a.next? c.1 <;> rfl

namespace AgreeAlong

/-- The same places are reached in trees that agree. -/
theorem reached_eq {e a b : Json} (h : AgreeAlong e a b) : reached e a = reached e b := by
  induction h with
  | same => rfl
  | children halike halike' hsome hbelow ih =>
    rw [Covenant.reached_eq, Covenant.reached_eq]
    refine congrArg _ (List.flatMap_congr fun c hc => ?_)
    rw [childReached_eq, childReached_eq, map_next?_eq (hsome c.1 c.2 hc)]
    intro y z hy hz
    rw [ih c.1 c.2 y z hc hy hz]

/-- The same differences are found in trees that agree. -/
theorem differences_eq {e a b : Json} (h : AgreeAlong e a b) : differences e a = differences e b := by
  induction h with
  | same => rfl
  | children halike halike' hsome hbelow ih =>
    rw [differences_of_alike halike, differences_of_alike halike']
    refine List.flatMap_congr fun c hc => ?_
    rw [childDifferences_eq, childDifferences_eq, map_next?_eq (hsome c.1 c.2 hc)]
    intro y z hy hz
    rw [ih c.1 c.2 y z hc hy hz]

theorem compare_eq {e a b : Json} (h : AgreeAlong e a b) (d : Diff) : d.compare e a = d.compare e b := by
  rw [d.compare_eq, d.compare_eq, h.reached_eq, h.differences_eq]

theorem restrict_eq {e a b : Json} (h : AgreeAlong e a b) : e.restrict a = e.restrict b := by
  induction h with
  | same => rfl
  | children halike halike' hsome hbelow ih =>
    refine Json.restrict_congr halike halike' ?_
    intro s x hx
    refine map_next?_eq (hsome s x hx) ?_
    intro y z hy hz
    exact ih s x y z hx hy hz

end AgreeAlong

/-- Trees with the same restriction agree. -/
theorem agreeAlong_of_restrict_eq {e a b : Json} (he : e.DistinctKeys) (h : e.restrict a = e.restrict b) :
    AgreeAlong e a b := by
  induction e, a using pair_induction generalizing b with
  | step e a ih =>
    have halike : Alike e a ↔ Alike e b := by
      rw [← Json.alike_restrict_iff, h, Json.alike_restrict_iff]
    by_cases ha : Alike e a
    · have hb := halike.1 ha
      have hnext : ∀ s x, (s, x) ∈ e.children → (a.next? s).map x.restrict = (b.next? s).map x.restrict := by
        intro s x hx
        rw [← Json.next?_restrict he ha hx, ← Json.next?_restrict he hb hx, h]
      refine .children ha hb ?_ ?_
      · intro s x hx
        rw [← Option.isSome_map (f := x.restrict), hnext s x hx, Option.isSome_map]
      · intro s x y z hx hy hz
        have heq := hnext s x hx
        rw [hy, hz] at heq
        exact ih s x y hx hy (he.child hx) (Option.some.inj heq)
    · rw [Json.restrict_of_not_alike ha, Json.restrict_of_not_alike (halike.not.1 ha)] at h
      rw [h]
      exact .same e b

/-- A comparison returns for a tree what it returns for its restriction to the expected tree, differences and
errors alike. So it returns the same for trees that agree along the expected tree, which are those of the same
restriction. -/
theorem compare_restrict (d : Diff) {e : Json} (he : e.DistinctKeys) (a : Json) :
    d.compare e a = d.compare e (e.restrict a) ∧
    ∀ b, (AgreeAlong e a b ↔ e.restrict a = e.restrict b) ∧
      (AgreeAlong e a b → d.compare e a = d.compare e b) := by
  refine ⟨(agreeAlong_restrict he a).compare_eq d, fun b => ⟨⟨?_, ?_⟩, ?_⟩⟩
  · intro h
    exact h.restrict_eq
  · intro h
    exact agreeAlong_of_restrict_eq he h
  · intro h
    exact h.compare_eq d

/-- An order that is asked for, one that holds more, and what is asked for of it. -/
def askedOrder : Json :=
  .object [("id", .string "<anyNumber>"), ("items", .array [.object [("sku", .string "a")]])]

def fullOrder : Json :=
  .object [("note", .null), ("items", .array [.object [("size", .null), ("sku", .string "b")], .null]),
    ("id", .bool true)]

def restrictedOrder : Json :=
  .object [("id", .bool true), ("items", .array [.object [("sku", .string "b")]])]

theorem askedOrder_distinctKeys : askedOrder.DistinctKeys := by
  simp [askedOrder, Json.DistinctKeys, Json.DistinctKeysFields, Json.DistinctKeysItems]

theorem compare_restrict_order :
    askedOrder.DistinctKeys ∧ askedOrder.restrict fullOrder = restrictedOrder ∧
    Diff.compare ⟨"body", 2⟩ askedOrder fullOrder = Diff.compare ⟨"body", 2⟩ askedOrder restrictedOrder ∧
    Diff.compare ⟨"body", 1⟩ askedOrder fullOrder = Diff.compare ⟨"body", 1⟩ askedOrder restrictedOrder :=
  ⟨askedOrder_distinctKeys, rfl, (compare_restrict ⟨"body", 2⟩ askedOrder_distinctKeys fullOrder).1,
    (compare_restrict ⟨"body", 1⟩ askedOrder_distinctKeys fullOrder).1⟩

end Covenant
