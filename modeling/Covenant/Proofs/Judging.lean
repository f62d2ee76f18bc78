import Covenant.Contract.Loading
import Mathlib.Data.List.Basic

/-!
# Checks one after the other

* `FirstFault`: the first element of a list that is not good is to blame for an error;
* `Loading.Judges`: a computation succeeds if a condition holds, and otherwise blames something;
* `Loading.JudgesAll`: it checks the elements of a list one after the other, up to the first that is not good.
-/

namespace Covenant

/-- The first element of a list that is not good is to blame for an error. -/
inductive FirstFault {α ε : Type} (good : α → Prop) (blames : α → ε → Prop) : List α → ε → Prop
  | here {x : α} {xs : List α} {e : ε} : ¬ good x → blames x e → FirstFault good blames (x :: xs) e
  | later {x : α} {xs : List α} {e : ε} :
      good x → FirstFault good blames xs e → FirstFault good blames (x :: xs) e

namespace FirstFault

variable {α ε : Type} {good : α → Prop} {blames : α → ε → Prop} {e : ε}

theorem append_right {xs : List α} (h : FirstFault good blames xs e) (ys : List α) :
    FirstFault good blames (xs ++ ys) e := by
  induction h with
  | here hno hblames => exact .here hno hblames
  | later hgood _ ih => exact .later hgood ih

theorem append_left {xs ys : List α} (hxs : ∀ x ∈ xs, good x) (h : FirstFault good blames ys e) :
    FirstFault good blames (xs ++ ys) e := by
  induction xs with
  | nil => exact h
  | cons x xs ih =>
    refine .later (hxs x List.mem_cons_self) (ih ?_)
    intro y hy
    exact hxs y (List.mem_cons_of_mem x hy)

/-- The element that is to blame is known by the good ones in front of it. -/
theorem blames_of_append {before after : List α} {x : α} (h : FirstFault good blames (before ++ x :: after) e)
    (hbefore : ∀ y ∈ before, good y) (hx : ¬ good x) : blames x e := by
  induction before with
  | nil =>
    cases h with
    | here _ hblames => exact hblames
    | later hgood => exact absurd hgood hx
  | cons y before ih =>
    have hgood := hbefore y List.mem_cons_self
    cases h with
    | here hno => exact absurd hgood hno
    | later _ h => exact ih h fun z hz => hbefore z (List.mem_cons_of_mem y hz)

end FirstFault

/-! ## Computations that judge -/

namespace Loading

/-- Whatever is drawn, a computation succeeds if a condition holds, and otherwise blames something. -/
def Judges {α : Type} (accepted : Prop) (blames : ContractError → Prop) (x : Loading α) : Prop :=
  ∀ s, match x s with
    | .ok _ => accepted
    | .error e => ¬ accepted ∧ blames e

section

variable {α β : Type} {accepted accepted' : Prop} {blames blames' : ContractError → Prop}

theorem judges_pure {a : α} (h : accepted) : Judges accepted blames (pure a) := fun _ => h

theorem judges_fail {e : ContractError} (h : ¬ accepted) (he : blames e) :
    Judges accepted blames (fail e : Loading α) := fun _ => ⟨h, he⟩

theorem judges_of_eq_ok {x : Except ContractError α} {a : α} (hx : x = .ok a) (h : accepted) :
    Judges accepted blames (Loading.ofExcept x) := by
  subst hx
  exact fun _ => h

theorem judges_of_eq_error {x : Except ContractError α} {e : ContractError} (hx : x = .error e)
    (h : ¬ accepted) (he : blames e) : Judges accepted blames (Loading.ofExcept x) := by
  subst hx
  exact fun _ => ⟨h, he⟩

theorem Judges.imp {x : Loading α} (h : Judges accepted blames x) (hiff : accepted ↔ accepted')
    (himp : ∀ e, ¬ accepted → blames e → blames' e) : Judges accepted' blames' x := by
  intro s
  have hs := h s
  cases hx : x s with
  | ok p =>
    rw [hx] at hs
    exact hiff.1 hs
  | error e =>
    rw [hx] at hs
    exact ⟨fun haccepted => hs.1 (hiff.2 haccepted), himp e hs.1 hs.2⟩

/-- Two computations one after the other. What the first one finds decides nothing for the second. -/
theorem Judges.bind {x : Loading α} {f : α → Loading β} (hx : Judges accepted blames x)
    (hf : ∀ a, Judges accepted' blames' (f a)) :
    Judges (accepted ∧ accepted') (fun e => (¬ accepted ∧ blames e) ∨ (accepted ∧ blames' e)) (x >>= f) := by
  intro s
  have hs := hx s
  show match (x s >>= fun p => f p.1 p.2) with | .ok _ => _ | .error e => _
  cases h : x s with
  | error e =>
    rw [h] at hs
    exact ⟨fun haccepted => hs.1 haccepted.1, .inl hs⟩
  | ok p =>
    rw [h] at hs
    have hnext := hf p.1 p.2
    show match f p.1 p.2 with | .ok _ => _ | .error e => _
    cases h' : f p.1 p.2 with
    | ok q =>
      rw [h'] at hnext
      exact ⟨hs, hnext⟩
    | error e =>
      rw [h'] at hnext
      exact ⟨fun haccepted => hnext.1 haccepted.2, .inr ⟨hs, hnext.2⟩⟩

theorem Judges.map {x : Loading α} (h : Judges accepted blames x) (f : α → β) :
    Judges accepted blames (x >>= fun a => pure (f a)) := by
  have hpure : ∀ a, Judges True (fun _ => False) (pure (f a) : Loading β) := fun a => judges_pure trivial
  refine (h.bind hpure).imp (and_iff_left trivial) ?_
  intro e _ he
  exact (he.resolve_right fun hno => hno.2).2

end

section

variable {α β ι : Type} {good : ι → Prop} {blames : ι → ContractError → Prop} {i : ι} {is js : List ι}

/-- A computation checks the elements of a list one after the other. -/
def JudgesAll (good : ι → Prop) (blames : ι → ContractError → Prop) (is : List ι) (x : Loading α) : Prop :=
  Judges (∀ i ∈ is, good i) (FirstFault good blames is) x

theorem judgesAll_nil {a : α} : JudgesAll good blames [] (pure a) := judges_pure nofun

theorem JudgesAll.cons {x : Loading α} {f : α → Loading β} (hx : Judges (good i) (blames i) x)
    (hf : ∀ a, JudgesAll good blames is (f a)) : JudgesAll good blames (i :: is) (x >>= f) := by
  refine (hx.bind hf).imp List.forall_mem_cons.symm ?_
  intro e _ he
  cases he with
  | inl h => exact .here h.1 h.2
  | inr h => exact .later h.1 h.2

theorem JudgesAll.append {x : Loading α} {f : α → Loading β} (hx : JudgesAll good blames is x)
    (hf : ∀ a, JudgesAll good blames js (f a)) : JudgesAll good blames (is ++ js) (x >>= f) := by
  refine (Judges.bind hx hf).imp List.forall_mem_append.symm ?_
  intro e _ he
  cases he with
  | inl h => exact h.2.append_right js
  | inr h => exact .append_left h.1 h.2

end

end Loading

end Covenant
