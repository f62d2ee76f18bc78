import Covenant.Proofs.Comparison
import Covenant.Proofs.Nesting

/-!
# The depth limit of a comparison

A comparison goes down where both trees do. It fails at the first place beyond its limit that both trees reach,
and a place that only one of them reaches does not count.

* `reached_eq_filter`, `reachedTogether_iff`: the places that two trees reach together are those of the
  expected tree that the actual tree has as well;
* `find?_reached`: the first of them beyond a limit lies one level beyond it;
* `FirstReached`: the first place at a depth that both trees reach;
* `compare_depth_limited`: when a comparison fails, and how.
-/

namespace Covenant

/-! ## Places of both trees -/

/-- The places of the expected tree that the actual tree has as well, in document order. -/
theorem reached_eq_filter (e a : Json) : reached e a = e.positions.filter fun p => (a.at? p).isSome := by
  induction e, a using pair_induction with
  | step e a ih =>
    rw [reached_eq, Json.positions_eq, List.filter_cons_of_pos rfl, List.filter_flatMap]
    congr 1
    apply List.flatMap_congr
    intro c hc
    rw [childReached, List.filter_map]
    cases hy : a.next? c.1 with
    | none =>
      have hno : (fun p => (a.at? p).isSome) ∘ (c.1 :: ·) = fun _ => false := by
        funext p
        simp [Json.at?_cons_of_none hy]
      rw [hno]
      simp
    | some y =>
      have hbelow : (fun p => (a.at? p).isSome) ∘ (c.1 :: ·) = fun p => (y.at? p).isSome := by
        funext p
        simp [Json.at?_cons_of_some hy]
      rw [hbelow]
      show (reached c.2 y).map (c.1 :: ·) = _
      rw [ih c.1 c.2 y hc hy]

/-- Going down from the root, the first place beyond a limit lies one level beyond it. -/
theorem find?_reached (m : Nat) (e a : Json) :
    (reached e a).find? (fun p => decide (m < p.length)) =
      (reached e a).find? (fun p => decide (p.length = m + 1)) := by
  induction m generalizing e a with
  | zero =>
    rw [reached_eq, List.find?_cons_of_neg (by simp), List.find?_cons_of_neg (by simp), List.find?_flatMap,
      List.find?_flatMap]
    congr 1
    funext c
    rw [childReached]
    cases a.next? c.1 with
    | none => rfl
    | some y =>
      -- The child itself is the first place of both kinds.
      dsimp only
      rw [reached_eq, List.map_cons, List.find?_cons_of_pos (by simp), List.find?_cons_of_pos (by simp)]
  | succ m ih =>
    rw [reached_eq, List.find?_cons_of_neg (by simp), List.find?_cons_of_neg (by simp), List.find?_flatMap,
      List.find?_flatMap]
    congr 1
    funext c
    rw [childReached]
    cases a.next? c.1 with
    | none => rfl
    | some y =>
      dsimp only
      rw [List.find?_map, List.find?_map]
      have hchild := ih c.2 y
      simpa [Function.comp_def] using congrArg (Option.map (c.1 :: ·)) hchild

/-- The first place at a depth, in document order of the expected tree, that both trees reach. -/
def FirstReached (e a : Json) (n : Nat) (p : List Step) : Prop :=
  ∃ before after, e.positions = before ++ p :: after ∧ ReachedTogether e a p ∧ p.length = n ∧
    ∀ q ∈ before, q.length = n → ¬ ReachedTogether e a q

theorem reachedTogether_iff {e a : Json} {p : List Step} :
    ReachedTogether e a p ↔ p ∈ e.positions ∧ (a.at? p).isSome := by
  rw [← mem_reached_iff, reached_eq_filter, List.mem_filter]

theorem firstReached_of_find? {e a : Json} {n : Nat} {p : List Step}
    (h : (reached e a).find? (fun p => decide (p.length = n)) = some p) : FirstReached e a n p := by
  rw [reached_eq_filter, List.find?_filter] at h
  obtain ⟨hp, before, after, hsplit, hbefore⟩ := List.find?_eq_some_iff_append.1 h
  have hmem : ∀ q ∈ before ++ p :: after, q ∈ e.positions := by
    intro q hq
    rw [hsplit]
    exact hq
  obtain ⟨hp, hlength⟩ : (a.at? p).isSome ∧ p.length = n := by simpa using hp
  refine ⟨before, after, hsplit, reachedTogether_iff.2 ⟨hmem p (by simp), hp⟩, hlength, ?_⟩
  intro q hq hlength hreached
  have hno := hbefore q hq
  simp [(reachedTogether_iff.1 hreached).2, hlength] at hno

/-! ## The limit -/

namespace Diff

variable (d : Diff)

/-- A comparison fails at the first place one level beyond its limit that both trees reach. -/
theorem compare_eq_find? (e a : Json) :
    d.compare e a =
      unlessError (((reached e a).find? fun p => decide (p.length = d.maxDepth + 1)).map d.depthError)
        ((differences e a).map d.violation) := by
  rw [compare_eq, ← find?_reached]
  rfl

theorem exists_of_compare_error {e a : Json} {err : CheckError} (h : d.compare e a = .error err) :
    ∃ p, FirstReached e a (d.maxDepth + 1) p ∧ err = d.depthError p := by
  rw [compare_eq_find?] at h
  cases hfind : (reached e a).find? (fun p => decide (p.length = d.maxDepth + 1)) with
  | none =>
    rw [hfind] at h
    cases h
  | some p =>
    rw [hfind] at h
    have herr : d.depthError p = err := Except.error.inj h
    exact ⟨p, firstReached_of_find? hfind, herr.symm⟩

theorem exists_compare_error_iff {e a : Json} :
    (∃ err, d.compare e a = .error err) ↔ ∃ p, ReachedTogether e a p ∧ p.length = d.maxDepth + 1 := by
  constructor
  · intro h
    obtain ⟨err, herr⟩ := h
    obtain ⟨p, ⟨_, _, _, hreached, hlength, _⟩, _⟩ := d.exists_of_compare_error herr
    exact ⟨p, hreached, hlength⟩
  · intro h
    obtain ⟨p, hreached, hlength⟩ := h
    rw [compare_eq_find?]
    cases hfind : (reached e a).find? (fun p => decide (p.length = d.maxDepth + 1)) with
    | none =>
      have hno := List.find?_eq_none.1 hfind p (mem_reached_iff.2 hreached)
      simp [hlength] at hno
    | some q => exact ⟨d.depthError q, rfl⟩

theorem compare_ok_of_within {e a : Json} (h : e.Within d.maxDepth) : ∃ vs, d.compare e a = .ok vs := by
  refine ⟨_, d.compare_eq_ok_iff.2 ⟨?_, rfl⟩⟩
  intro p hp
  exact h p (reachedTogether_iff.1 hp).1

/-- It is enough that the actual tree is not too deep. -/
theorem compare_ok_of_within_actual {e a : Json} (h : a.Within d.maxDepth) : ∃ vs, d.compare e a = .ok vs := by
  refine ⟨_, d.compare_eq_ok_iff.2 ⟨?_, rfl⟩⟩
  intro p hp
  have hp := (reachedTogether_iff.1 hp).2
  exact h p (Json.mem_positions_of_at? hp)

theorem compare_ok_of_le {e a : Json} {m : Nat} {vs : List Violation} (hle : d.maxDepth ≤ m)
    (h : d.compare e a = .ok vs) : Diff.compare { d with maxDepth := m } e a = .ok vs := by
  obtain ⟨hdepth, hvs⟩ := d.compare_eq_ok_iff.1 h
  refine (Diff.compare_eq_ok_iff _).2 ⟨?_, hvs⟩
  intro p hp
  have hlength := hdepth p hp
  show p.length ≤ m
  omega

end Diff

/-- A comparison fails exactly if both trees reach a place one level beyond its limit. The error names the
first such place and the limit, and is the only violation where the limit is the standard one and a violation
stands for it. A result stays what it is under a higher limit. There is always one if no place of the expected
tree lies beyond the limit, and, under the standard limit, for the body of every reply. -/
theorem compare_depth_limited (d : Diff) (e a : Json) :
    ((∃ err, d.compare e a = .error err) ↔ ∃ p, ReachedTogether e a p ∧ p.length = d.maxDepth + 1) ∧
    (∀ err, d.compare e a = .error err →
      ∃ p, FirstReached e a (d.maxDepth + 1) p ∧ err = .tooDeep (d.label (pathText p)) d.maxDepth) ∧
    (∀ err, Diff.standard.compare e a = .error err →
      ∃ p v, FirstReached e a (Diff.defaultDepth + 1) p ∧ compare e a = [v] ∧
        v.key = Diff.standard.label (pathText p)) ∧
    (∀ m vs, d.maxDepth ≤ m → d.compare e a = .ok vs → Diff.compare { d with maxDepth := m } e a = .ok vs) ∧
    (e.Within d.maxDepth → ∃ vs, d.compare e a = .ok vs) ∧
    (d.maxDepth = Diff.defaultDepth → ∀ text, ∃ vs, d.compare e (Reply.bodyOfText text) = .ok vs) := by
  refine ⟨d.exists_compare_error_iff, fun err => d.exists_of_compare_error, ?_,
    fun m vs => d.compare_ok_of_le, d.compare_ok_of_within, ?_⟩
  · intro err herr
    obtain ⟨p, hfirst, rfl⟩ := Diff.standard.exists_of_compare_error herr
    refine ⟨p, depthViolation (Diff.standard.depthError p), hfirst, ?_, rfl⟩
    rw [compare, herr]
  · intro hlimit text
    apply d.compare_ok_of_within_actual
    rw [hlimit]
    exact (Reply.within_bodyOfText text).mono (by decide)

/-- Lists in a field that is compared, and a field before it that only the expected tree has. -/
def nestedLists : Json :=
  .object [("a", .array [.array [.null]]), ("b", .array [.array [.null]])]

def nestedLists' : Json :=
  .object [("b", .array [.array [.bool true]])]

theorem compare_depth_limited_nestedLists :
    Diff.compare ⟨"body", 1⟩ nestedLists nestedLists' = .error (.tooDeep "b[0]" 1) ∧
    (∃ p, FirstReached nestedLists nestedLists' 2 p ∧
      CheckError.tooDeep "b[0]" 1 = .tooDeep (Diff.label ⟨"body", 1⟩ (pathText p)) 1) ∧
    ∃ vs, Diff.compare ⟨"body", 3⟩ nestedLists nestedLists' = .ok vs ∧
      Diff.compare ⟨"body", 5⟩ nestedLists nestedLists' = .ok vs := by
  have herr : Diff.compare ⟨"body", 1⟩ nestedLists nestedLists' = .error (.tooDeep "b[0]" 1) := rfl
  have hshallow := compare_depth_limited ⟨"body", 1⟩ nestedLists nestedLists'
  have hdeep := compare_depth_limited ⟨"body", 3⟩ nestedLists nestedLists'
  exact ⟨herr, hshallow.2.1 _ herr, _, rfl, hdeep.2.2.2.1 5 _ (by decide) rfl⟩

end Covenant
