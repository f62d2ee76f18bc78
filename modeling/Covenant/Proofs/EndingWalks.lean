import Covenant.Proofs.ReferenceChains
import Covenant.Proofs.Reloading
import Mathlib.Computability.StateTransition

/-!
# Walks end

Nothing gets smaller where a reference is followed, and documents may lead back to where a walk came from. Both
walks of a document are taken apart into their steps here, which know no bound: they end because no reference
is followed while it is being followed.

* `OpenApi.round`: one more reference of a chain is followed;
* `OpenApi.Moment`, `OpenApi.Moment.next`: a moment of the walk through a schema, with the stack of the references
  being followed and what waits for the example, and the moment after it;
* `OpenApi.Moment.nodup_active_next`: a step keeps the references of the stack distinct;
* `OpenApi.comesTo_exampleOf`: the walk comes to the example of the schema and leaves the stack as it was;
* `OpenApi.walks_end`: what either walk comes to, for every document.
-/

namespace Covenant.OpenApi

open StateTransition

/-! ## Rounds of a chain -/

/-- One more reference is followed, unless that has been done already. -/
def round (doc : Json) (seen : List String × Json) : Option (List String × Json) :=
  seen.2.reference?.bind fun r =>
    if r ∈ seen.1 then none
    else (target doc r).toOption.map fun v => (r :: seen.1, v)

theorem round_of_resolves {doc v w : Json} {seen : List String} {r : String} (hr : v.reference? = some r)
    (hseen : r ∉ seen) (hw : Resolves doc r w) : round doc (seen, v) = some (r :: seen, w) := by
  rw [round, hr, Option.bind_some, if_neg hseen, target_eq_ok_iff.2 hw]
  rfl

/-- What is found once no more reference is followed. -/
def answer (doc : Json) (seen : List String × Json) : Except ContractError Json :=
  match seen.2.reference? with
  | none => .ok seen.2
  | some r =>
    if r ∈ seen.1 then .error (.invalidField documentName r .circularReference)
    else target doc r

theorem Chain.reaches {doc v w : Json} {rs seen : List String} (h : Chain doc v rs w)
    (hnodup : (rs.reverse ++ seen).Nodup) : Reaches (round doc) (seen, v) (rs.reverse ++ seen, w) := by
  induction h generalizing seen with
  | here => exact .refl
  | @step v x w r rs hr htarget _ ih =>
    rw [List.reverse_cons, List.append_assoc] at hnodup ⊢
    have hseen : r ∉ seen := (List.nodup_cons.1 (List.nodup_append.1 hnodup).2.1).1
    exact .head (round_of_resolves hr hseen htarget) (ih hnodup)

/-- The rounds come to an end, with no more of them than there are references, and with what is found. -/
theorem exists_mem_eval_round (doc v : Json) :
    ∃ last ∈ eval (round doc) ([], v), last.1.length ≤ (allReferences doc v).length ∧
      deref doc v = answer doc last := by
  have hstop {rs : List String} {w : Json} (h : Chain doc v rs w) (hnodup : rs.Nodup)
      (hround : round doc (rs.reverse, w) = none) :
      (rs.reverse, w) ∈ eval (round doc) ([], v) ∧ rs.reverse.length ≤ (allReferences doc v).length := by
    have hreaches : Reaches (round doc) ([], v) (rs.reverse ++ [], w) :=
      h.reaches (by rwa [List.append_nil, List.nodup_reverse])
    rw [List.append_nil] at hreaches
    refine ⟨mem_eval.2 ⟨hreaches, hround⟩, ?_⟩
    rw [List.length_reverse]
    exact h.length_le hnodup
  have hfinish : Finish doc v (deref doc v) := deref_eq_iff.1 rfl
  generalize deref doc v = result at hfinish
  cases hfinish with
  | @value rs w h hnone =>
    have hlast := hstop h (h.nodup_of_isEnd (isEnd_of_none hnone)) (by rw [round, hnone, Option.bind_none])
    exact ⟨_, hlast.1, hlast.2, by rw [answer, hnone]⟩
  | @circle rs w r h hnodup hr hpassed =>
    have hmem : r ∈ rs.reverse := List.mem_reverse.2 hpassed
    have hlast := hstop h hnodup (by rw [round, hr, Option.bind_some, if_pos hmem])
    refine ⟨_, hlast.1, hlast.2, ?_⟩
    rw [answer, hr]
    exact (if_pos hmem).symm
  | @lost rs w r e h hr he =>
    have hend := isEnd_of_error hr he
    have hlast := hstop h (h.nodup_of_isEnd hend) (by rw [round, hr, Option.bind_some, he]; exact ite_self none)
    refine ⟨_, hlast.1, hlast.2, ?_⟩
    have hnew : r ∉ rs.reverse := by
      intro hmem
      obtain ⟨u, -, hu, -, -⟩ := h.exists_behind (List.mem_reverse.1 hmem)
      exact hend r u hr hu
    rw [answer, hr]
    exact ((if_neg hnew).trans he).symm

/-! ## Moments of a walk -/

/-- What waits for the example of a schema. -/
inductive Pending where
  /-- A reference, to be left behind its target. -/
  | reference
  /-- The fields merged so far, and the parts that follow. -/
  | merge (fields : List (String × Json)) (parts : List Json)
  /-- The fields made so far, the name of the property, and the properties that follow. -/
  | property (fields : List (String × Json)) (name : String) (properties : List (String × Json))
  /-- An array, for its item. -/
  | items

/-- A moment of the walk through a schema. The references that are being followed are a stack, the last one
first. -/
inductive Moment where
  | entering (active : List String) (pending : List Pending) (schema : Json) (s : Source)
  | leaving (active : List String) (pending : List Pending) (v : Option Json) (s : Source)
  | failed (active : List String) (e : ContractError)

namespace Moment

/-- The references that are being followed. -/
def active : Moment → List String
  | .entering active .. => active
  | .leaving active .. => active
  | .failed active .. => active

section

variable (doc : Json) (mode : Mode) (active : List String) (pending : List Pending) (s : Source)

/-- The next part is entered. -/
def merging (fields : List (String × Json)) : List Json → Moment
  | [] => .leaving active pending (some (.object fields)) s
  | part :: parts => .entering active (.merge fields parts :: pending) part s

/-- The next property is entered. -/
def listing (fields : List (String × Json)) : List (String × Json) → Moment
  | [] => .leaving active pending (some (.object fields)) s
  | (name, schema) :: properties => .entering active (.property fields name properties :: pending) schema s

/-- A reference is put on the stack, and its target entered. -/
def following (r : String) : Moment :=
  match target doc r with
  | .ok v => .entering (r :: active) (.reference :: pending) v s
  | .error e => .failed (r :: active) e

/-- What is done with a schema of a form. -/
def enter (schema : Json) : Form → Moment
  | .reference r => if r ∈ active then .leaving active pending none s else following doc active pending s r
  | .merged parts => merging active pending s [] parts
  | .alternative first => .entering active pending first s
  | .object properties => listing active pending s [] properties
  | .array (some items) => .entering active (.items :: pending) items s
  | .array none => .leaving active pending (some (.array [])) s
  | .scalar type => .leaving active pending (scalar type schema mode s).1 (scalar type schema mode s).2
  | .unknown => .leaving active pending none s

/-- What is done with an example that something waits for. -/
def leave (v : Option Json) : Pending → Moment
  | .reference => .leaving active.tail pending v s
  | .merge fields parts => merging active pending s (setFields fields v) parts
  | .property fields name properties =>
    listing active pending s (fields ++ fieldOf name v) properties
  | .items => .leaving active pending (some (.array v.toList)) s

/-- The moment after a moment. There is none after a failure, nor once nothing waits for the example. -/
def next : Moment → Option Moment
  | .entering active pending schema s => some (enter doc mode active pending s schema (formOf schema))
  | .leaving active (p :: pending) v s => some (leave active pending s v p)
  | .leaving _ [] _ _ => none
  | .failed .. => none

end

/-! ## The stack -/

section

variable {doc : Json} {mode : Mode} {active : List String} {pending : List Pending} {s : Source}

@[simp]
theorem active_merging (fields : List (String × Json)) (parts : List Json) :
    (merging active pending s fields parts).active = active := by
  cases parts <;> rfl

@[simp]
theorem active_listing (fields properties : List (String × Json)) :
    (listing active pending s fields properties).active = active := by
  cases properties <;> rfl

@[simp]
theorem active_following (r : String) : (following doc active pending s r).active = r :: active := by
  rw [following]
  cases target doc r <;> rfl

/-- A schema of a form puts its reference on the stack, if it is not there, and nothing else. -/
theorem active_enter (schema : Json) (form : Form) :
    (enter doc mode active pending s schema form).active = active ∨
    ∃ r, form = .reference r ∧ r ∉ active ∧
      (enter doc mode active pending s schema form).active = r :: active := by
  cases form with
  | reference r =>
    rw [enter]
    by_cases hr : r ∈ active
    · rw [if_pos hr]
      exact .inl rfl
    · rw [if_neg hr]
      exact .inr ⟨r, rfl, hr, active_following r⟩
  | merged parts => exact .inl (active_merging [] parts)
  | object properties => exact .inl (active_listing [] properties)
  | array items => cases items <;> exact .inl rfl
  | _ => exact .inl rfl

/-- An example takes at most the last reference off the stack. -/
theorem active_leave (v : Option Json) (p : Pending) :
    (leave active pending s v p).active = active ∨ (leave active pending s v p).active = active.tail := by
  cases p with
  | reference => exact .inr rfl
  | merge fields parts => exact .inl (active_merging _ parts)
  | property fields name properties => exact .inl (active_listing _ properties)
  | items => exact .inl rfl

/-- A step keeps the references of the stack distinct. -/
theorem nodup_active_next {m m' : Moment} (h : m.active.Nodup) (hnext : m' ∈ next doc mode m) :
    m'.active.Nodup := by
  cases m with
  | entering active pending schema s =>
    cases hnext
    rcases active_enter schema (formOf schema) with hsame | ⟨r, -, hr, hpushed⟩
    · exact hsame ▸ h
    · exact hpushed ▸ List.nodup_cons.2 ⟨hr, h⟩
  | leaving active pending v s =>
    cases pending with
    | nil => cases hnext
    | cons p pending =>
      cases hnext
      rcases active_leave v p with hsame | hpopped
      · exact hsame ▸ h
      · exact hpopped ▸ h.tail
  | failed active e => cases hnext

theorem nodup_active_of_reaches {m m' : Moment} (h : m.active.Nodup) (hreaches : Reaches (next doc mode) m m') :
    m'.active.Nodup := by
  induction hreaches with
  | refl => exact h
  | tail _ hnext ih => exact nodup_active_next ih hnext

end

end Moment

open Moment

/-! ## What a walk comes to -/

section

variable {doc : Json} {mode : Mode} {active : List String} {pending : List Pending} {start : Moment}

/-- The walk from a moment comes to the outcome of a computation: back to what is pending, with the stack as it
is said to be, or to a failure. -/
def ComesTo (doc : Json) (mode : Mode) (start : Moment) (active : List String) (pending : List Pending) :
    Except ContractError (Option Json × Source) → Prop
  | .ok (v, s) => Reaches (next doc mode) start (.leaving active pending v s)
  | .error e => ∃ stack, Reaches (next doc mode) start (.failed stack e)

theorem ComesTo.after {m : Moment} {result : Except ContractError (Option Json × Source)}
    (hreaches : Reaches (next doc mode) start m) (h : ComesTo doc mode m active pending result) :
    ComesTo doc mode start active pending result := by
  cases result with
  | ok p => exact hreaches.trans h
  | error e =>
    obtain ⟨stack, hfailed⟩ := h
    exact ⟨stack, hreaches.trans hfailed⟩

theorem ComesTo.step {m : Moment} {result : Except ContractError (Option Json × Source)}
    (hnext : next doc mode start = some m) (h : ComesTo doc mode m active pending result) :
    ComesTo doc mode start active pending result :=
  .after (.single hnext) h

/-- What waits for an example goes on with it. -/
theorem ComesTo.bind {active' : List String} {p : Pending} {x : Loading (Option Json)}
    {f : Option Json → Loading (Option Json)} {s : Source}
    (hx : ComesTo doc mode start active' (p :: pending) (x s))
    (hf : ∀ v s', ComesTo doc mode (leave active' pending s' v p) active pending (f v s')) :
    ComesTo doc mode start active pending ((x >>= f) s) := by
  show ComesTo doc mode start active pending (x s >>= fun r => f r.1 r.2)
  cases hresult : x s with
  | error e =>
    rw [hresult] at hx
    exact hx
  | ok r =>
    rw [hresult] at hx
    obtain ⟨v, s'⟩ := r
    exact .after hx (.step rfl (hf v s'))

/-- Behind its target, a reference is taken off the stack. -/
theorem ComesTo.behind {r : String} {result : Except ContractError (Option Json × Source)}
    (h : ComesTo doc mode start (r :: active) (.reference :: pending) result) :
    ComesTo doc mode start active pending result := by
  cases result with
  | ok p => exact .tail h rfl
  | error e => exact h

theorem next_entering {schema : Json} {form : Form} (hform : formOf schema = form) (s : Source) :
    next doc mode (.entering active pending schema s) = some (enter doc mode active pending s schema form) := by
  rw [next, hform]

/-- The parts of a schema are entered one after the other. -/
theorem comesTo_mergeParts {unseen : List String} {parts : List Json}
    (hparts : ∀ part ∈ parts, ∀ pending s, ComesTo doc mode (.entering active pending part s) active pending
      (exampleOf doc mode unseen part s)) (fields : List (String × Json)) (s : Source) :
    ComesTo doc mode (merging active pending s fields parts) active pending
      ((mergeParts doc mode unseen fields parts >>= fun merged => pure (some (.object merged))) s) := by
  induction parts generalizing fields s with
  | nil =>
    rw [mergeParts]
    exact .refl
  | cons part parts ih =>
    rw [mergeParts_cons, bind_assoc]
    refine (hparts part List.mem_cons_self (.merge fields parts :: pending) s).bind fun v s' => ?_
    exact ih (fun q hq => hparts q (List.mem_cons_of_mem part hq)) (setFields fields v) s'

/-- The properties of a schema are entered one after the other. -/
theorem comesTo_exampleFields {unseen : List String} {properties : List (String × Json)}
    (hproperties : ∀ p ∈ properties, ∀ pending s, ComesTo doc mode (.entering active pending p.2 s) active pending
      (exampleOf doc mode unseen p.2 s)) (fields : List (String × Json)) (s : Source) :
    ComesTo doc mode (listing active pending s fields properties) active pending
      ((exampleFields doc mode unseen properties >>= fun more => pure (some (.object (fields ++ more)))) s) := by
  induction properties generalizing fields s with
  | nil =>
    rw [exampleFields, pure_bind, List.append_nil]
    exact .refl
  | cons p properties ih =>
    obtain ⟨name, schema⟩ := p
    rw [exampleFields_cons, bind_assoc]
    refine (hproperties (name, schema) List.mem_cons_self (.property fields name properties :: pending) s).bind
      fun v s' => ?_
    have hrest := ih (fun q hq => hproperties q (List.mem_cons_of_mem _ hq)) (fields ++ fieldOf name v) s'
    simp only [bind_assoc, pure_bind, ← List.append_assoc]
    exact hrest

/-- The walk through a schema comes to its example. The references of the stack are those that count as seen. -/
theorem comesTo_exampleOf (unseen : List String) (schema : Json)
    (hunseen : ∀ r ∈ allReferences doc schema, r ∈ unseen ↔ r ∉ active) (s : Source) :
    ComesTo doc mode (.entering active pending schema s) active pending
      (exampleOf doc mode unseen schema s) := by
  induction unseen, schema using walk_induction doc generalizing active pending s with
  | step unseen schema hbehind hinside =>
    have hparts : ∀ v, Inside schema v → ∀ pending s, ComesTo doc mode (.entering active pending v s) active
        pending (exampleOf doc mode unseen v s) :=
      fun v hv pending s => hinside v hv (fun r hr => hunseen r (mem_allReferences_inside hv hr)) s
    rw [exampleOf_eq]
    cases hform : formOf schema with
    | reference r =>
      refine .step (next_entering hform s) ?_
      have hr := hunseen r (mem_allReferences_of_reference? (formOf_eq_reference_iff.1 hform))
      rw [exampleOfForm, enter]
      by_cases hactive : r ∈ active
      · rw [if_pos hactive, if_neg fun hmem => hr.1 hmem hactive]
        exact .refl
      · rw [if_neg hactive, if_pos (hr.2 hactive), following]
        cases htarget : target doc r with
        | error e => exact ⟨_, .refl⟩
        | ok v =>
          have hbelow : ∀ q ∈ allReferences doc v, q ∈ without unseen r ↔ q ∉ r :: active := by
            intro q hq
            have hq := hunseen q (mem_allReferences_behind (target_eq_ok_iff.1 htarget) hq)
            rw [mem_without, hq, List.mem_cons, not_or, and_comm]
          exact (hbehind r v hform (hr.2 hactive) htarget hbelow s).behind
    | merged parts =>
      refine .step (next_entering hform s) ?_
      exact comesTo_mergeParts (fun part hpart => hparts part (.part hform hpart)) [] s
    | alternative first =>
      refine .step (next_entering hform s) ?_
      exact hparts first (.alternative hform) pending s
    | object properties =>
      refine .step (next_entering hform s) ?_
      exact comesTo_exampleFields (fun p hp => hparts p.2 (.property hform hp)) [] s
    | array items =>
      refine .step (next_entering hform s) ?_
      cases items with
      | none => exact .refl
      | some items =>
        refine (hparts items (.items hform) (.items :: pending) s).bind fun v s' => ?_
        exact .refl
    | scalar type => exact .step (next_entering hform s) .refl
    | unknown => exact .step (next_entering hform s) .refl

/-- Whatever is on the stack, the walk through a schema ends: with the stack as it was, or with a failure. -/
theorem exists_mem_eval_next (doc : Json) (mode : Mode) (active : List String) (schema : Json) (s : Source) :
    ∃ m ∈ eval (next doc mode) (.entering active [] schema s),
      (∃ v s', m = .leaving active [] v s') ∨ ∃ stack e, m = .failed stack e := by
  have hunseen : ∀ r ∈ allReferences doc schema,
      r ∈ (allReferences doc schema).filter (· ∉ active) ↔ r ∉ active := by
    intro r hr
    simp [hr]
  have hcomes : ComesTo doc mode (.entering active [] schema s) active [] _ :=
    comesTo_exampleOf _ schema hunseen s
  cases hresult : exampleOf doc mode ((allReferences doc schema).filter (· ∉ active)) schema s with
  | ok r =>
    rw [hresult] at hcomes
    exact ⟨_, mem_eval.2 ⟨hcomes, rfl⟩, .inl ⟨r.1, r.2, rfl⟩⟩
  | error e =>
    rw [hresult] at hcomes
    obtain ⟨stack, hfailed⟩ := hcomes
    exact ⟨_, mem_eval.2 ⟨hfailed, rfl⟩, .inr ⟨stack, e, rfl⟩⟩

end

section

variable {doc : Json} {mode : Mode} {schema : Json} {s : Source}

/-- With nothing on the stack, the walk comes to what is found as the example. -/
theorem comesTo_exampleFor (doc : Json) (mode : Mode) (schema : Json) (s : Source) :
    ComesTo doc mode (.entering [] [] schema s) [] [] (exampleFor doc mode schema s) :=
  comesTo_exampleOf (allReferences doc schema) schema (by simp) s

theorem exampleFor_eq_ok_iff {v : Option Json} {s' : Source} :
    exampleFor doc mode schema s = .ok (v, s') ↔
      .leaving [] [] v s' ∈ eval (next doc mode) (.entering [] [] schema s) := by
  have hcomes := comesTo_exampleFor doc mode schema s
  constructor
  · intro h
    rw [h] at hcomes
    exact mem_eval.2 ⟨hcomes, rfl⟩
  · intro h
    cases hresult : exampleFor doc mode schema s with
    | ok r =>
      rw [hresult] at hcomes
      cases Part.mem_unique h (mem_eval.2 ⟨hcomes, rfl⟩)
      rfl
    | error e =>
      rw [hresult] at hcomes
      obtain ⟨stack, hfailed⟩ := hcomes
      cases Part.mem_unique h (mem_eval.2 ⟨hfailed, rfl⟩)

theorem exampleFor_eq_error_iff {e : ContractError} :
    exampleFor doc mode schema s = .error e ↔
      ∃ stack, .failed stack e ∈ eval (next doc mode) (.entering [] [] schema s) := by
  have hcomes := comesTo_exampleFor doc mode schema s
  constructor
  · intro h
    rw [h] at hcomes
    obtain ⟨stack, hfailed⟩ := hcomes
    exact ⟨stack, mem_eval.2 ⟨hfailed, rfl⟩⟩
  · rintro ⟨stack, h⟩
    cases hresult : exampleFor doc mode schema s with
    | ok r =>
      rw [hresult] at hcomes
      cases Part.mem_unique h (mem_eval.2 ⟨hcomes, rfl⟩)
    | error e' =>
      rw [hresult] at hcomes
      obtain ⟨stack', hfailed⟩ := hcomes
      cases Part.mem_unique h (mem_eval.2 ⟨hfailed, rfl⟩)
      rfl

/-- On the way through a schema, the walk comes to a reference that is not being followed already. -/
def Follows (doc : Json) (mode : Mode) (schema : Json) (s : Source) (r : String) : Prop :=
  ∃ active pending v s', Reaches (next doc mode) (.entering [] [] schema s) (.entering active pending v s') ∧
    v.reference? = some r ∧ r ∉ active

/-- Only a reference that is followed can fail. -/
theorem exists_of_next_eq_failed {m : Moment} {stack : List String} {e : ContractError}
    (h : next doc mode m = some (.failed stack e)) :
    ∃ active pending v s' r, m = .entering active pending v s' ∧ v.reference? = some r ∧ r ∉ active ∧
      target doc r = .error e := by
  cases m with
  | entering active pending v s' =>
    cases hform : formOf v with
    | reference r =>
      rw [next_entering hform, Option.some.injEq, enter] at h
      by_cases hr : r ∈ active
      · rw [if_pos hr] at h
        cases h
      · rw [if_neg hr, following] at h
        cases htarget : target doc r with
        | ok w =>
          rw [htarget] at h
          cases h
        | error e' =>
          rw [htarget] at h
          cases h
          exact ⟨active, pending, v, s', r, rfl, formOf_eq_reference_iff.1 hform, hr, htarget⟩
    | merged parts =>
      rw [next_entering hform] at h
      cases parts <;> cases h
    | object properties =>
      rw [next_entering hform] at h
      cases properties <;> cases h
    | array items =>
      rw [next_entering hform] at h
      cases items <;> cases h
    | _ =>
      rw [next_entering hform] at h
      cases h
  | leaving active pending v s' =>
    cases pending with
    | nil => cases h
    | cons p pending =>
      cases p with
      | merge fields parts => cases parts <;> cases h
      | property fields name properties => cases properties <;> cases h
      | _ => cases h
  | failed active e' => cases h

/-- There is an example, or none is due, exactly if every reference that is followed leads to a value. -/
theorem exists_exampleFor_eq_ok_iff :
    (∃ v s', exampleFor doc mode schema s = .ok (v, s')) ↔
      ∀ r, Follows doc mode schema s r → ∃ v, Resolves doc r v := by
  constructor
  · rintro ⟨v, s', h⟩ r ⟨active, pending, w, s'', hreaches, hr, hactive⟩
    cases htarget : target doc r with
    | ok u => exact ⟨u, target_eq_ok_iff.1 htarget⟩
    | error e =>
      -- the failure would be where the walk ends
      have hnext : next doc mode (.entering active pending w s'') = some (.failed (r :: active) e) := by
        rw [next_entering (formOf_eq_reference_iff.2 hr), enter, if_neg hactive, following, htarget]
      have hfailed := mem_eval.2 ⟨hreaches.tail hnext, rfl⟩
      cases Part.mem_unique (exampleFor_eq_ok_iff.1 h) hfailed
  · intro h
    cases hresult : exampleFor doc mode schema s with
    | ok r => exact ⟨r.1, r.2, rfl⟩
    | error e =>
      obtain ⟨stack, hfailed⟩ := exampleFor_eq_error_iff.1 hresult
      rcases Relation.ReflTransGen.cases_tail (mem_eval.1 hfailed).1 with hsame | ⟨m, hreaches, hnext⟩
      · cases hsame
      · obtain ⟨active, pending, v, s', r, rfl, hr, hactive, htarget⟩ := exists_of_next_eq_failed hnext
        obtain ⟨u, hu⟩ := h r ⟨active, pending, v, s', hreaches, hr, hactive⟩
        rw [target_eq_ok_iff.2 hu] at htarget
        cases htarget

end

/-! ## Both walks -/

/-- For every document and value: the rounds of following references come to an end, with what is found. A value
is found exactly if the chain of references is local, resolves at every step and leads to a value that is no
reference; a circle is reported exactly if the chain comes back to a reference that it has followed. The walk
through a schema ends as well, whatever is on the stack; it never has a reference on the stack twice, and comes
back with the stack as it was. With an empty stack it comes to the example, and it fails exactly if a reference
that it follows is not local or leads nowhere. -/
theorem walks_end (doc v : Json) :
    (∃ last ∈ eval (round doc) ([], v), last.1.length ≤ (allReferences doc v).length ∧
      deref doc v = answer doc last) ∧
    (∀ w, deref doc v = .ok w ↔ ∃ rs, Chain doc v rs w ∧ w.reference? = none) ∧
    (∀ r, deref doc v = .error (.invalidField documentName r .circularReference) ↔
      ∃ rs w, Chain doc v rs w ∧ rs.Nodup ∧ w.reference? = some r ∧ r ∈ rs) ∧
    ∀ mode s,
      (∀ active, ∃ m ∈ eval (next doc mode) (.entering active [] v s),
        (∃ x s', m = .leaving active [] x s') ∨ ∃ stack e, m = .failed stack e) ∧
      (∀ active m, active.Nodup → Reaches (next doc mode) (.entering active [] v s) m → m.active.Nodup) ∧
      (∀ x s', exampleFor doc mode v s = .ok (x, s') ↔
        .leaving [] [] x s' ∈ eval (next doc mode) (.entering [] [] v s)) ∧
      ((∃ x s', exampleFor doc mode v s = .ok (x, s')) ↔
        ∀ r, Follows doc mode v s r → ∃ w, Resolves doc r w) := by
  refine ⟨exists_mem_eval_round doc v, fun w => ?_, fun r => ?_, fun mode s => ⟨fun active => ?_, ?_, ?_, ?_⟩⟩
  · rw [deref_eq_iff]
    constructor
    · intro h
      cases h with
      | value h hnone => exact ⟨_, h, hnone⟩
    · rintro ⟨rs, h, hnone⟩
      exact .value h hnone
  · rw [deref_eq_iff]
    constructor
    · intro h
      cases h with
      | circle h hnodup hr hpassed => exact ⟨_, _, h, hnodup, hr, hpassed⟩
      | lost h hr he => exact absurd rfl (not_circular_of_target he)
    · rintro ⟨rs, w, h, hnodup, hr, hpassed⟩
      exact .circle h hnodup hr hpassed
  · exact exists_mem_eval_next doc mode active v s
  · intro active m hactive hreaches
    have hstart : (Moment.entering active [] v s).active.Nodup := hactive
    exact nodup_active_of_reaches hstart hreaches
  · exact fun x s' => exampleFor_eq_ok_iff
  · exact exists_exampleFor_eq_ok_iff

/-- A document in which two references lead to each other. -/
def circleDocument : Json :=
  .object [("A", .object [("$ref", .string "#/B")]), ("B", .object [("$ref", .string "#/A")])]

def circleReference : Json := .object [("$ref", .string "#/A")]

theorem chain_circle : Chain circleDocument circleReference ["#/A", "#/B"] (.object [("$ref", .string "#/A")]) :=
  .step rfl ⟨"/A".toList, by decide, rfl⟩ (.step rfl ⟨"/B".toList, by decide, rfl⟩ .here)

theorem reaches_circle (s : Source) :
    Reaches (next circleDocument .generated) (.entering [] [] circleReference s) (.leaving [] [] none s) :=
  .head rfl (.head rfl (.head rfl (.head rfl (.head rfl .refl))))

theorem walks_end_circle :
    deref circleDocument circleReference = .error (.invalidField documentName "#/A" .circularReference) ∧
    exampleFor circleDocument .generated circleReference .least = .ok (none, .least) ∧
    ∀ m, Reaches (next circleDocument .generated) (.entering [] [] circleReference .least) m →
      m.active.Nodup := by
  obtain ⟨-, -, hcircle, hwalk⟩ := walks_end circleDocument circleReference
  obtain ⟨-, hnodup, hexample, -⟩ := hwalk .generated .least
  refine ⟨(hcircle "#/A").2 ⟨_, _, chain_circle, by decide, rfl, by decide⟩, ?_, fun m =>
    hnodup [] m List.nodup_nil⟩
  exact (hexample none .least).2 (mem_eval.2 ⟨reaches_circle .least, rfl⟩)

end Covenant.OpenApi
