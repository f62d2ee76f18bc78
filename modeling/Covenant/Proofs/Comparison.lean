import Covenant.Proofs.Places
import Covenant.Proofs.Tokens

/-!
# What a comparison finds

The comparison of two trees in closed form: the places that both trees reach, and the places where
they differ, each as a list in document order. The first place beyond the depth limit decides between
an error and the differences.

* `LeafAccepts`: the values that an expected leaf accepts;
* `meets`: the verdict on two values that are not containers of the same kind;
* `Difference`, `differences`: a place where two trees differ, and all of them;
* `ReachedTogether`, `reached`: the places that two trees reach together, as a relation and as a list;
* `Diff.compare_eq`: what a comparison returns.
-/

namespace Covenant

/-! ## Leaves -/

/-- Acceptance by an expected leaf that is no wildcard. An escaped token stands for its text. -/
inductive LeafAccepts : Json → Json → Prop
  | null : LeafAccepts .null .null
  | bool (b : Bool) : LeafAccepts (.bool b) (.bool b)
  | number {m n : Json.Number} : m.same n = true → LeafAccepts (.number m) (.number n)
  | escape {t : String} : IsToken t → LeafAccepts (.string ("\\" ++ t)) (.string t)
  | text {s : String} : (∀ t, IsToken t → s ≠ "\\" ++ t) → LeafAccepts (.string s) (.string s)

theorem leafMatches_iff {e a : Json} : leafMatches e a = true ↔ LeafAccepts e a := by
  constructor
  · intro h
    cases e <;> cases a <;> simp only [leafMatches, beq_iff_eq, reduceCtorEq] at h
    case null.null => exact .null
    case bool.bool b c => rw [h]; exact .bool c
    case number.number => exact .number h
    case string.string s t =>
      rcases escaped?_cases s with ⟨u, hu, rfl, htoken⟩ | ⟨hnone, hplain⟩
      · rw [hu, Option.getD_some] at h
        rw [← h]
        exact .escape htoken
      · rw [hnone, Option.getD_none] at h
        rw [← h]
        exact .text hplain
  · rintro (_ | _ | h | h | h)
    · rfl
    · simp [leafMatches]
    · exact h
    · simp [leafMatches, escaped?_eq_some_iff.2 ⟨rfl, h⟩]
    · rename_i s
      rcases escaped?_cases s with ⟨u, -, rfl, htoken⟩ | ⟨hnone, -⟩
      · exact absurd rfl (h u htoken)
      · simp [leafMatches, hnone]

/-- A leaf accepts no containers, and a container is no leaf. -/
theorem LeafAccepts.not_container {e a : Json} (h : LeafAccepts e a) :
    e.kind ≠ .object ∧ e.kind ≠ .array := by
  cases h <;> exact ⟨nofun, nofun⟩

/-! ## Differences -/

/-- Whether a value meets an expected one that is not a container of the same kind. -/
def meets (e a : Json) : Bool :=
  match Wildcard.ofJson? e with
  | some w => w.accepts a
  | none => leafMatches e a

theorem meets_wildcard (w : Wildcard) (a : Json) : meets (.string w.label) a = true ↔ a.kind = w.kind := by
  rw [meets, ofJson?_eq_some_iff.2 rfl]
  exact decide_eq_true_iff

theorem meets_leaf {e a : Json} (h : ∀ w : Wildcard, e ≠ .string w.label) :
    meets e a = true ↔ LeafAccepts e a := by
  rw [meets, ofJson?_eq_none_iff.2 h]
  exact leafMatches_iff

/-- A place where an actual tree differs from the expected one. -/
structure Difference where
  place : List Step
  expected : Json
  actual : Observed

/-- The same difference seen from further up. -/
def Difference.below (x : Difference) (p : List Step) : Difference := { x with place := p ++ x.place }

theorem Difference.below_below (x : Difference) (p q : List Step) :
    (x.below q).below p = x.below (p ++ q) := by
  simp [below]

/-- The differences of two trees, in document order of the expected one. -/
def differences (e a : Json) : List Difference :=
  if Alike e a then
    e.children.attach.flatMap fun c =>
      match a.next? c.1.1 with
      | some y => (differences c.1.2 y).map (·.below [c.1.1])
      | none => [⟨[c.1.1], c.1.2, .missing⟩]
  else if meets e a then [] else [⟨[], e, .present a⟩]
termination_by sizeOf e
decreasing_by exact Json.sizeOf_children c.2

/-- The differences at and below one child. -/
def childDifferences (a : Json) (c : Step × Json) : List Difference :=
  match a.next? c.1 with
  | some y => (differences c.2 y).map (·.below [c.1])
  | none => [⟨[c.1], c.2, .missing⟩]

theorem differences_of_alike {e a : Json} (h : Alike e a) :
    differences e a = e.children.flatMap (childDifferences a) := by
  rw [differences, if_pos h, List.flatMap_subtype (g := childDifferences a) fun _ _ => rfl,
    List.unattach_attach]

theorem differences_of_not_alike {e a : Json} (h : ¬ Alike e a) :
    differences e a = if meets e a then [] else [⟨[], e, .present a⟩] := by
  rw [differences, if_neg h]

/-! ## Places reached -/

/-- A place that two trees reach together: each step leads down in both of them. -/
inductive ReachedTogether : Json → Json → List Step → Prop
  | root (e a : Json) : ReachedTogether e a []
  | child {e a x y : Json} {s : Step} {p : List Step} :
      (s, x) ∈ e.children → a.next? s = some y → ReachedTogether x y p → ReachedTogether e a (s :: p)

/-- The places that two trees reach together, in document order. -/
def reached (e a : Json) : List (List Step) :=
  [] :: e.children.attach.flatMap fun c =>
    match a.next? c.1.1 with
    | some y => (reached c.1.2 y).map (c.1.1 :: ·)
    | none => []
termination_by sizeOf e
decreasing_by exact Json.sizeOf_children c.2

/-- The places reached at and below one child. -/
def childReached (a : Json) (c : Step × Json) : List (List Step) :=
  match a.next? c.1 with
  | some y => (reached c.2 y).map (c.1 :: ·)
  | none => []

theorem reached_eq (e a : Json) : reached e a = [] :: e.children.flatMap (childReached a) := by
  rw [reached, List.flatMap_subtype (g := childReached a) fun _ _ => rfl, List.unattach_attach]

theorem mem_reached_iff {e a : Json} {p : List Step} : p ∈ reached e a ↔ ReachedTogether e a p := by
  induction p generalizing e a with
  | nil =>
    rw [reached_eq]
    exact ⟨fun _ => .root e a, fun _ => List.mem_cons_self⟩
  | cons s p ih =>
    rw [reached_eq, List.mem_cons, List.mem_flatMap]
    constructor
    · rintro (hnil | ⟨⟨t, x⟩, hx, hp⟩)
      · cases hnil
      · rw [childReached] at hp
        split at hp
        · rename_i y hy
          obtain ⟨q, hq, heq⟩ := List.mem_map.1 hp
          cases heq
          exact .child hx hy (ih.1 hq)
        · cases hp
    · rintro (_ | ⟨hx, hy, hp⟩)
      refine Or.inr ⟨_, hx, ?_⟩
      rw [childReached, hy]
      exact List.mem_map.2 ⟨p, ih.2 hp, rfl⟩

/-! ## Results of children -/

/-- The findings of several comparisons one after the other, up to the first that fails. -/
def gather {ε α : Type} : List (Except ε (List α)) → Except ε (List α)
  | [] => .ok []
  | .error err :: _ => .error err
  | .ok xs :: rs =>
    match gather rs with
    | .error err => .error err
    | .ok ys => .ok (xs ++ ys)

theorem gather_cons {ε α : Type} (r : Except ε (List α)) (rs : List (Except ε (List α))) :
    gather (r :: rs) = match r with
      | .error err => .error err
      | .ok xs => match gather rs with
        | .error err => .error err
        | .ok ys => .ok (xs ++ ys) := by
  cases r <;> rfl

/-- What was found, unless there is an error. -/
def unlessError {ε α : Type} (err : Option ε) (found : α) : Except ε α :=
  match err with
  | some err => .error err
  | none => .ok found

/-- If the first hit in a list makes each result an error, it does so for all of them together. -/
theorem gather_map_eq {ε α β γ : Type} {cs : List γ} {f : γ → Except ε (List α)} {hits : γ → List β}
    {found : γ → List α} {p : β → Bool} {err : β → ε}
    (h : ∀ c ∈ cs, f c = unlessError (((hits c).find? p).map err) (found c)) :
    gather (cs.map f) = unlessError (((cs.flatMap hits).find? p).map err) (cs.flatMap found) := by
  induction cs with
  | nil => rfl
  | cons c cs ih =>
    have hc := h c List.mem_cons_self
    have hcs := ih fun c' hc' => h c' (List.mem_cons_of_mem c hc')
    rw [List.map_cons, List.flatMap_cons, List.flatMap_cons, List.find?_append, gather_cons, hc, hcs]
    cases (hits c).find? p with
    | some b => rfl
    | none =>
      rw [Option.none_or]
      cases (cs.flatMap hits).find? p <;> rfl

namespace Diff

variable (d : Diff)

/-- What a comparison finds at and below one child. -/
def compareChild (path : String) (depth : Nat) (a : Json) (c : Step × Json) :
    Except CheckError (List Violation) :=
  match a.next? c.1 with
  | some y => d.compareAt (extendPath path c.1) depth c.2 y
  | none => .ok [⟨extendPath path c.1, c.2, .missing⟩]

theorem compareFields_eq_gather (path : String) (depth : Nat) (es as : List (String × Json)) :
    d.compareFields path depth es as =
      gather ((Json.object es).children.map (d.compareChild path depth (.object as))) := by
  induction es with
  | nil => rfl
  | cons f es ih =>
    obtain ⟨key, e⟩ := f
    rw [compareFields, ih]
    show _ = gather (d.compareChild path depth (.object as) (.field key, e) ::
      (Json.object es).children.map (d.compareChild path depth (.object as)))
    rw [gather_cons]
    generalize gather ((Json.object es).children.map _) = rest
    rw [compareChild, show (Json.object as).next? (.field key) = Json.lookup as key from rfl]
    cases Json.lookup as key with
    | none => cases rest <;> rfl
    | some a =>
      dsimp only
      cases d.compareAt (extendPath path (.field key)) depth e a <;> cases rest <;> rfl

theorem compareItems_eq_gather (path : String) (depth i : Nat) (es as all : List Json)
    (h : all.drop i = as) :
    d.compareItems path depth i es as =
      gather ((es.zipIdx i).map fun x => d.compareChild path depth (.array all) (.index x.2, x.1)) := by
  induction es generalizing i as with
  | nil => cases as <;> rfl
  | cons e es ih =>
    have hhead : all[i]? = as.head? := by rw [← h, List.head?_drop]
    have htail : all.drop (i + 1) = as.tail := by rw [← h, List.tail_drop]
    rw [List.zipIdx_cons, List.map_cons, gather_cons, compareChild]
    rw [show (Json.array all).next? (.index i) = as.head? from hhead]
    have hrest := ih (i + 1) as.tail htail
    generalize gather ((es.zipIdx (i + 1)).map _) = rest at hrest ⊢
    cases as with
    | nil =>
      rw [compareItems, show d.compareItems path depth (i + 1) es [] = rest from hrest]
      cases rest <;> rfl
    | cons a as =>
      rw [compareItems, show d.compareItems path depth (i + 1) es as = rest from hrest]
      dsimp only [List.head?_cons]
      cases d.compareAt (extendPath path (.index i)) depth e a <;> cases rest <;> rfl

/-- Containers of the same kind are compared child by child. -/
theorem compareAt_of_alike {e a : Json} (h : Alike e a) (path : String) {depth : Nat}
    (hdepth : depth ≤ d.maxDepth) :
    d.compareAt path depth e a =
      gather (e.children.map (d.compareChild path (depth + 1) a)) := by
  cases h with
  | objects es as =>
    rw [compareAt, if_neg (Nat.not_lt.2 hdepth)]
    exact d.compareFields_eq_gather path (depth + 1) es as
  | arrays es as =>
    rw [compareAt, if_neg (Nat.not_lt.2 hdepth)]
    show d.compareItems path (depth + 1) 0 es as = _
    rw [d.compareItems_eq_gather path (depth + 1) 0 es as as rfl, Json.children, List.map_map]
    rfl

/-- All other values are compared at once. -/
theorem compareAt_of_not_alike {e a : Json} (h : ¬ Alike e a) (path : String) {depth : Nat}
    (hdepth : depth ≤ d.maxDepth) :
    d.compareAt path depth e a = .ok (if meets e a then [] else [d.unmet path e a]) := by
  unfold compareAt
  rw [if_neg (Nat.not_lt.2 hdepth), meets]
  cases Wildcard.ofJson? e with
  | some w => rfl
  | none =>
    cases e with
    | object es =>
      cases a with
      | object as => exact absurd (.objects es as) h
      | _ => rfl
    | array es =>
      cases a with
      | array as => exact absurd (.arrays es as) h
      | _ => rfl
    | _ => rfl

/-! ## The result -/

/-- The violation for a difference. Where the text of a place is empty, what is present there has the root label
as its key, and what is missing has the empty key. -/
def violation (x : Difference) : Violation where
  key := match x.actual with
    | .present _ => d.label (pathText x.place)
    | .missing => pathText x.place
  expected := x.expected
  actual := x.actual

/-- A violation tells of a difference: what the trees hold, under the text of the place. The root label stands
for a text that is empty, unless nothing is present at the place. -/
structure Tells (v : Violation) (x : Difference) : Prop where
  expected : v.expected = x.expected
  actual : v.actual = x.actual
  labelled : pathText x.place = "" → (∃ w, x.actual = .present w) → v.key = d.rootLabel
  named : pathText x.place ≠ "" ∨ x.actual = .missing → v.key = pathText x.place

theorem tells_violation (x : Difference) : d.Tells (d.violation x) x := by
  obtain ⟨place, u, o⟩ := x
  cases o with
  | present w => exact ⟨rfl, rfl, fun hempty _ => if_pos hempty, fun h => if_neg (h.resolve_right nofun)⟩
  | missing =>
    refine ⟨rfl, rfl, fun _ hpresent => ?_, fun _ => rfl⟩
    obtain ⟨w, hw⟩ := hpresent
    cases hw

/-- Whether a place lies beyond the limit. -/
def isTooDeep (p : List Step) : Bool := decide (d.maxDepth < p.length)

/-- The error for a place beyond the limit. -/
def depthError (p : List Step) : CheckError := .tooDeep (d.label (pathText p)) d.maxDepth

/-- What a comparison that starts at a place of larger trees returns. -/
theorem compareAt_eq (e a : Json) (pre : List Step) :
    d.compareAt (pathText pre) pre.length e a =
      unlessError (((reached e a).find? fun p => d.isTooDeep (pre ++ p)).map fun p => d.depthError (pre ++ p))
        ((differences e a).map fun x => d.violation (x.below pre)) := by
  induction e, a using pair_induction generalizing pre with
  | step e a ih =>
    by_cases hdeep : d.maxDepth < pre.length
    · -- The place itself is too deep, so nothing below it matters.
      have hroot : (reached e a).find? (fun p => d.isTooDeep (pre ++ p)) = some [] := by
        rw [reached_eq, List.find?_cons_of_pos]
        simpa [isTooDeep] using hdeep
      unfold compareAt
      rw [hroot, if_pos hdeep]
      simp [depthError, unlessError]
    · have hdepth : pre.length ≤ d.maxDepth := Nat.le_of_not_lt hdeep
      have hroot : (reached e a).find? (fun p => d.isTooDeep (pre ++ p)) =
          (e.children.flatMap (childReached a)).find? fun p => d.isTooDeep (pre ++ p) := by
        rw [reached_eq, List.find?_cons_of_neg]
        simpa [isTooDeep] using hdepth
      rw [hroot]
      by_cases halike : Alike e a
      · rw [d.compareAt_of_alike halike _ hdepth, differences_of_alike halike, List.map_flatMap]
        refine gather_map_eq fun c hc => ?_
        rw [compareChild, childReached, childDifferences, ← pathText_append_singleton]
        cases hy : a.next? c.1 with
        | none => rfl
        | some y =>
          have hchild := ih c.1 c.2 y hc hy (pre ++ [c.1])
          rw [List.length_append, List.length_singleton] at hchild
          dsimp only
          rw [hchild, List.find?_map, Option.map_map, List.map_map]
          simp only [Function.comp_def, List.append_assoc, List.singleton_append, Difference.below_below]
      · -- No child is reached, and the values are compared at once.
        have hnone : e.children.flatMap (childReached a) = [] := by
          refine List.flatMap_eq_nil_iff.2 fun c hc => ?_
          rw [childReached]
          cases hy : a.next? c.1 with
          | none => rfl
          | some y => exact absurd (alike_of_next? hc hy) halike
        rw [hnone, d.compareAt_of_not_alike halike _ hdepth, differences_of_not_alike halike]
        cases meets e a with
        | true => rfl
        | false => simp [unlessError, unmet, violation, Difference.below]

/-- A comparison fails at the first place that both trees reach beyond the limit. If there is none, it
reports the differences. -/
theorem compare_eq (e a : Json) :
    d.compare e a =
      unlessError (((reached e a).find? d.isTooDeep).map d.depthError) ((differences e a).map d.violation) :=
  d.compareAt_eq e a []

theorem compare_eq_ok_iff {e a : Json} {vs : List Violation} :
    d.compare e a = .ok vs ↔
      (∀ p, ReachedTogether e a p → p.length ≤ d.maxDepth) ∧ vs = (differences e a).map d.violation := by
  have hshallow : (reached e a).find? d.isTooDeep = none ↔
      ∀ p, ReachedTogether e a p → p.length ≤ d.maxDepth := by
    simp [List.find?_eq_none, mem_reached_iff, isTooDeep]
  rw [compare_eq, ← hshallow]
  cases (reached e a).find? d.isTooDeep with
  | none => simp [unlessError, eq_comm]
  | some p => simp [unlessError]

end Diff

end Covenant
