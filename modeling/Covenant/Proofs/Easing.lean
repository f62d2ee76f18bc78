import Covenant.Proofs.Conformance
import Mathlib.Logic.Relation

/-!
# Expectations that ask for less

A reply that satisfies an expectation satisfies whatever asks for less.

* `Json.Eased`: an edit at some place of an expected tree that takes a demand away;
* `Json.Eased.conforms`, `Json.Eased.reached`: the edited tree accepts what the tree accepts, and is compared
  at no further places;
* `Expectation.Eased`: such an edit of the body, or one of the headers;
* `Expectation.SatisfiedBy`: what a reply has to be so that the standard checks find nothing;
* `validate_eased`: they find nothing after any number of edits, if they found nothing before.
-/

namespace Covenant

/-! ## Bodies -/

/-- An edit of an expected tree that asks for less: a string, number or truth value that is no wildcard becomes
the wildcard of its kind, a field or trailing items are left out, or a field or item is edited itself. -/
inductive Json.Eased : Json → Json → Prop
  | wildcard {e : Json} {w : Wildcard} :
      e.kind = w.kind → (∀ v : Wildcard, e ≠ .string v.label) → Eased e (.string w.label)
  | dropField (before : List (String × Json)) (f : String × Json) (after : List (String × Json)) :
      Eased (.object (before ++ f :: after)) (.object (before ++ after))
  | dropItems (items dropped : List Json) : Eased (.array (items ++ dropped)) (.array items)
  | field {key : String} {x y : Json} (before after : List (String × Json)) :
      Eased x y → Eased (.object (before ++ (key, x) :: after)) (.object (before ++ (key, y) :: after))
  | item {x y : Json} (before after : List Json) :
      Eased x y → Eased (.array (before ++ x :: after)) (.array (before ++ y :: after))

namespace Json

theorem children_object_append (before after : List (String × Json)) :
    (Json.object (before ++ after)).children =
      (Json.object before).children ++ (Json.object after).children :=
  List.map_append

theorem children_array_append (before after : List Json) :
    (Json.array (before ++ after)).children =
      (Json.array before).children ++ (after.zipIdx before.length).map fun x => (.index x.2, x.1) := by
  rw [children, List.zipIdx_append, List.map_append, Nat.zero_add]
  rfl

/-- Where one child is edited, the others stay as they are. -/
theorem Eased.mem_edited {s : Step} {x y : Json} (h : x.Eased y) {before after : List (Step × Json)}
    {c : Step × Json} (hc : c ∈ before ++ (s, y) :: after) :
    c ∈ before ++ (s, x) :: after ∨ ∃ z, (c.1, z) ∈ before ++ (s, x) :: after ∧ z.Eased c.2 := by
  rcases List.mem_append.1 hc with hbefore | hc
  · exact .inl (List.mem_append_left _ hbefore)
  · rcases List.mem_cons.1 hc with rfl | hafter
    · exact .inr ⟨x, List.mem_append_right _ List.mem_cons_self, h⟩
    · exact .inl (List.mem_append_right _ (List.mem_cons_of_mem _ hafter))

/-- The children of an edited container are those of the container, or one of them is edited. -/
theorem Eased.children {e e' : Json} (h : e.Eased e') (hcontainer : e.kind = .object ∨ e.kind = .array) :
    e'.kind = e.kind ∧
      ∀ c ∈ e'.children, c ∈ e.children ∨ ∃ x, (c.1, x) ∈ e.children ∧ x.Eased c.2 := by
  cases h with
  | @wildcard _ w hkind =>
    rw [hkind] at hcontainer
    cases w <;> simp [Wildcard.kind] at hcontainer
  | dropField before f after =>
    refine ⟨rfl, fun c hc => .inl ?_⟩
    rw [children_object_append, List.mem_append] at hc ⊢
    exact hc.imp_right (List.mem_cons_of_mem _)
  | dropItems items dropped =>
    refine ⟨rfl, fun c hc => .inl ?_⟩
    rw [children_array_append]
    exact List.mem_append_left _ hc
  | field before after hxy =>
    refine ⟨rfl, fun c hc => ?_⟩
    rw [children_object_append] at hc ⊢
    exact hxy.mem_edited hc
  | item before after hxy =>
    refine ⟨rfl, fun c hc => ?_⟩
    rw [children_array_append, List.zipIdx_cons, List.map_cons] at hc ⊢
    exact hxy.mem_edited hc

end Json

/-- A container accepts containers of its kind only. -/
theorem Conforms.alike {e a : Json} (h : Conforms e a) (hcontainer : e.kind = .object ∨ e.kind = .array) :
    Alike e a := by
  cases h with
  | wildcard => rcases hcontainer with hkind | hkind <;> cases hkind
  | object => exact .objects _ _
  | array => exact .arrays _ _
  | leaf _ hleaf =>
    rcases hcontainer with hkind | hkind
    · exact absurd hkind hleaf.not_container.1
    · exact absurd hkind hleaf.not_container.2

/-- An edited tree accepts what the tree accepts. -/
theorem Json.Eased.conforms {e e' a : Json} (h : e.Eased e') (hconf : Conforms e a) : Conforms e' a := by
  induction e', a using pair_induction generalizing e with
  | step e' a ih =>
    by_cases hcontainer : e.kind = .object ∨ e.kind = .array
    · obtain ⟨hkind, hchildren⟩ := h.children hcontainer
      have halike := hconf.alike hcontainer
      have halike' : Alike e' a := by
        rw [← hkind] at hcontainer
        cases halike <;> cases e' <;> first | constructor | cases hkind
      rw [conforms_iff_of_alike halike] at hconf
      rw [conforms_iff_of_alike halike']
      intro c hc
      rcases hchildren c hc with hsame | ⟨x, hx, heased⟩
      · exact hconf c hsame
      · obtain ⟨y, hy, hxy⟩ := hconf (c.1, x) hx
        exact ⟨y, hy, ih c.1 c.2 y hc hy heased hxy⟩
    · cases h with
      | wildcard hkind hno =>
        have hdemanded := hconf.demandedKind_eq
        rw [demandedKind, ofJson?_eq_none_iff.2 hno] at hdemanded
        exact .wildcard (hdemanded.symm.trans hkind)
      | dropField | field => exact absurd (.inl rfl) hcontainer
      | dropItems | item => exact absurd (.inr rfl) hcontainer

/-- An edited tree is compared at no places where the tree is not. -/
theorem Json.Eased.reached {e e' a : Json} {p : List Step} (h : e.Eased e') (hp : ReachedTogether e' a p) :
    ReachedTogether e a p := by
  induction hp generalizing e with
  | root => exact .root _ _
  | @child e' a x y s p hx hy hp ih =>
    by_cases hcontainer : e.kind = .object ∨ e.kind = .array
    · rcases (h.children hcontainer).2 (s, x) hx with hsame | ⟨x', hx', heased⟩
      · exact .child hsame hy hp
      · exact .child hx' hy (ih heased)
    · cases h with
      | wildcard => cases hx
      | dropField | field => exact absurd (.inl rfl) hcontainer
      | dropItems | item => exact absurd (.inr rfl) hcontainer

/-! ## Expectations -/

namespace Expectation

/-- An edit of an expectation that asks for less: of the body, which may be left out as a whole, or of the
headers, each of which may be left out or have any text as its value. -/
inductive Eased : Expectation → Expectation → Prop
  | dropBody (e : Expectation) : Eased e { e with body := none }
  | body {e : Expectation} {b b' : Json} :
      e.body = some b → b.Eased b' → Eased e { e with body := some b' }
  | dropHeaders (e : Expectation) : Eased e { e with headers := none }
  | dropHeader {e : Expectation} (before : List NamedValue) (h : NamedValue) (after : List NamedValue) :
      e.headers = some (before ++ h :: after) → Eased e { e with headers := some (before ++ after) }
  | anyText {e : Expectation} (before : List NamedValue) (h : NamedValue) (after : List NamedValue) :
      e.headers = some (before ++ h :: after) →
      Eased e { e with
        headers := some (before ++ { h with value := .string Wildcard.anyString.label } :: after) }

/-- A reply with the declared status, a conforming body within the depth limit and all declared headers. -/
structure SatisfiedBy (e : Expectation) (a : Reply) (o : CheckOptions) : Prop where
  status : e.status = a.status
  body : ∀ b, e.body = some b → Conforms b a.body ∧ ∀ p, ReachedTogether b a.body p → p.length ≤ o.maxDepth
  headers : ∀ headers, e.headers = some headers → ∀ h ∈ headers, HeaderMet a o.ignoreHeaderCase h

variable {e e' : Expectation} {a : Reply} {o : CheckOptions}

theorem hasViolations_validate_iff : (validate e a o).hasViolations = false ↔ e.SatisfiedBy a o := by
  let found := Report.empty.append (statusCheck.contribution e a o .empty)
  have hrun := run_structure_headers_iff (e := e) (a := a) (o := o)
    (r := found.append (bodyTypeCheck.contribution e a o found))
  rw [Report.hasViolations_append_eq_false_iff, Report.hasViolations_append_eq_false_iff,
    statusCheck_contribution_eq_nil_iff, bodyTypeCheck_contribution_eq_nil_iff] at hrun
  refine hrun.trans ⟨?_, ?_⟩
  · rintro ⟨⟨⟨-, hstatus⟩, -⟩, hbody, hheaders⟩
    exact ⟨hstatus, hbody, hheaders⟩
  · intro h
    exact ⟨⟨⟨rfl, h.status⟩, fun b hb => (h.body b hb).1.demandedKind_eq⟩, h.body, h.headers⟩

/-- A header that is received has a text. -/
theorem headerMet_anyText {ignoreCase : Bool} {h : NamedValue} (hmet : HeaderMet a ignoreCase h) :
    HeaderMet a ignoreCase { h with value := .string Wildcard.anyString.label } := by
  obtain ⟨before, name, value, after, hheaders, hsame, hbefore, -⟩ := hmet
  exact ⟨before, name, value, after, hheaders, hsame, hbefore, .anyString value⟩

/-- What satisfies an expectation satisfies the edited one. -/
theorem Eased.satisfiedBy (h : e.Eased e') (hsat : e.SatisfiedBy a o) : e'.SatisfiedBy a o := by
  cases h with
  | dropBody => exact ⟨hsat.status, nofun, hsat.headers⟩
  | dropHeaders => exact ⟨hsat.status, hsat.body, nofun⟩
  | body hbody heased =>
    obtain ⟨hconf, hdepth⟩ := hsat.body _ hbody
    refine ⟨hsat.status, fun b hb => ?_, hsat.headers⟩
    cases hb
    exact ⟨heased.conforms hconf, fun p hp => hdepth p (heased.reached hp)⟩
  | dropHeader before h after hheaders =>
    have hmet := hsat.headers _ hheaders
    refine ⟨hsat.status, hsat.body, fun headers heq g hg => hmet g ?_⟩
    cases heq
    rw [List.mem_append] at hg ⊢
    exact hg.imp_right (List.mem_cons_of_mem _)
  | anyText before h after hheaders =>
    have hmet := hsat.headers _ hheaders
    refine ⟨hsat.status, hsat.body, fun headers heq g hg => ?_⟩
    cases heq
    rcases List.mem_append.1 hg with hbefore | hg
    · exact hmet g (List.mem_append_left _ hbefore)
    · rcases List.mem_cons.1 hg with rfl | hafter
      · exact headerMet_anyText (hmet h (List.mem_append_right _ List.mem_cons_self))
      · exact hmet g (List.mem_append_right _ (List.mem_cons_of_mem _ hafter))

end Expectation

/-- The standard checks find nothing after any number of edits that ask for less, if they found nothing
before. -/
theorem validate_eased {e e' : Expectation} (hedits : Relation.ReflTransGen Expectation.Eased e e')
    {a : Reply} {o : CheckOptions} (hclean : (validate e a o).hasViolations = false) :
    (validate e' a o).hasViolations = false := by
  rw [Expectation.hasViolations_validate_iff] at hclean ⊢
  induction hedits with
  | refl => exact hclean
  | tail _ hedit ih => exact hedit.satisfiedBy ih

/-! ## An example -/

/-- What a search for orders has to return: two of them, of which only the first is known. -/
def searchBody : Json :=
  .object [("total", .ofNat 2), ("orders", .array [.object [("sku", .string "x"), ("paid", .bool true)], .null])]

/-- The same with any number and any text, and without the second order. -/
def easedSearchBody : Json :=
  .object [("total", .string "<anyNumber>"), ("orders", .array [.object [("sku", .string "<anyString>")]])]

def search : Expectation := ⟨200, some [⟨"etag", .string "7"⟩, ⟨"server", .string "a"⟩], some searchBody⟩

def easedSearch : Expectation := ⟨200, some [⟨"etag", .string "<anyString>"⟩], some easedSearchBody⟩

def searchReply : Reply where
  status := 200
  headers := [("server", "a"), ("etag", "7")]
  body := .object [("orders", .array [.object [("paid", .bool true), ("sku", .string "x")], .null]),
    ("total", .ofNat 2)]

theorem easedSearchBody_of_searchBody : Relation.ReflTransGen Json.Eased searchBody easedSearchBody := by
  have htotal : (Json.ofNat 2).Eased (.string Wildcard.anyNumber.label) := .wildcard rfl nofun
  have hsku : (Json.string "x").Eased (.string Wildcard.anyString.label) :=
    .wildcard rfl fun v => by cases v <;> decide
  refine .head (.field [] _ htotal) ?_
  refine .head (.field [_] _ (.dropItems [_] _)) ?_
  refine .head (.field [_] _ (.item [] _ (.dropField [_] _ _))) ?_
  exact .single (.field [_] _ (.item [] _ (.field [] _ hsku)))

theorem easedSearch_of_search : Relation.ReflTransGen Expectation.Eased search easedSearch := by
  have hbody : Relation.ReflTransGen Expectation.Eased search { search with body := some easedSearchBody } :=
    easedSearchBody_of_searchBody.lift (fun b => { search with body := some b })
      fun b _ h => Expectation.Eased.body (e := { search with body := some b }) rfl h
  refine hbody.trans (.head (.dropHeader [_] _ [] rfl) (.single ?_))
  exact .anyText [] ⟨"etag", .string "7"⟩ [] rfl

theorem validate_eased_search :
    Relation.ReflTransGen Expectation.Eased search easedSearch ∧
    (validate search searchReply .standard).hasViolations = false ∧
    (validate easedSearch searchReply .standard).hasViolations = false := by
  have hclean : (validate search searchReply .standard).hasViolations = false := by decide +kernel
  exact ⟨easedSearch_of_search, hclean, validate_eased easedSearch_of_search hclean⟩

end Covenant
