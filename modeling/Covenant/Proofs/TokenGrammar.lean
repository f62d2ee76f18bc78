import Covenant.Placeholder
import Covenant.Proofs.Numerals
import Mathlib.Data.List.Forall2
import Mathlib.Data.List.Nodup

/-!
# The grammar of generator tokens

What a text has to be to stand for a random value, without reference to how it is read.

* `IsParameter`, `HasParameters`: a segment `key=value`, and the segments between parentheses;
* `IsWritten`: a text that is a token of a kind with parameters;
* `Valid`: no key comes twice, and each parameter is one that the kind has;
* `Denotes`: what a token with valid parameters asks for;
* `parameters?_eq_some_iff`: the parameters that are read are those that are written, no key coming twice;
* `isWritten_iff`: a text is written as a token of a kind if its frame and its word are those of one.
-/

namespace Covenant.Generator

open Covenant.Text Covenant.Decimal

/-! ## Written tokens -/

/-- A segment with a key before its first equals sign and a value behind it. Neither is blank, and the blanks
around them do not count. -/
inductive IsParameter : List Char → String × String → Prop
  | intro {key value : List Char} : '=' ∉ key → trimList key ≠ [] → trimList value ≠ [] →
      IsParameter (key ++ '=' :: value) (String.ofList (trimList key), String.ofList (trimList value))

/-- A text between parentheses with its parameters: it is blank, or consists of segments with semicolons
between them. -/
inductive HasParameters : List Char → List (String × String) → Prop
  | blank {inner : List Char} : trimList inner = [] → HasParameters inner []
  | segments {inner : List Char} {segs : List (List Char)} {ps : List (String × String)} :
      segs ≠ [] → (∀ seg ∈ segs, ';' ∉ seg) → trimList inner = joinWith ';' segs →
      List.Forall₂ IsParameter segs ps → HasParameters inner ps

/-- A text that is a token of a kind, with parameters in parentheses or without any. -/
inductive IsWritten : String → Kind → List (String × String) → Prop
  | bare (k : Kind) : IsWritten ("<generate[" ++ k.word ++ "]>") k []
  | withParameters {inner : List Char} {ps : List (String × String)} (k : Kind) :
      '(' ∉ inner → ')' ∉ inner → HasParameters inner ps →
      IsWritten ("<generate[" ++ k.word ++ "(" ++ String.ofList inner ++ ")]>") k ps

/-- A parameter that a kind has, with a value that is fit for it. -/
inductive Admits : Kind → String × String → Prop
  | length {v : String} {n : Nat} : UnsignedNumeral v n → n ≤ maxLength → Admits .string ("length", v)
  | low {v : String} {i : Int64Value} : SignedNumeral v i.val → Admits .number ("min", v)
  | high {v : String} {i : Int64Value} : SignedNumeral v i.val → Admits .number ("max", v)

/-- Parameters that a token of a kind may have. -/
structure Valid (k : Kind) (ps : List (String × String)) : Prop where
  distinct : (ps.map Prod.fst).Nodup
  admitted : ∀ p ∈ ps, Admits k p

/-- What parameters say for a key: what its value reads as, and a default if it has none. -/
inductive Gives {α : Type} (ps : List (String × String)) (key : String) (reads : String → α → Prop)
    (default : α) : α → Prop
  | given {v : String} {x : α} : (key, v) ∈ ps → reads v x → Gives ps key reads default x
  | absent : key ∉ ps.map Prod.fst → Gives ps key reads default default

/-- What a token asks for: a string of the given length, or a number between the given bounds, in whichever
order they come. -/
inductive Denotes (ps : List (String × String)) : Kind → Generator → Prop
  | string {n : Nat} (h : n ≤ maxLength) :
      Gives ps "length" UnsignedNumeral defaultLength n → Denotes ps .string (.string n h)
  | number {a b : Int64Value} {bounds : Bounds} :
      Gives ps "min" (fun v i => SignedNumeral v i.val) defaultLow a →
      Gives ps "max" (fun v i => SignedNumeral v i.val) defaultHigh b →
      bounds.low.val = min a.val b.val → bounds.high.val = max a.val b.val →
      Denotes ps .number (.number bounds)
  | bool : Denotes ps .bool .bool
  | uuid : Denotes ps .uuid .uuid

/-! ## Reading parameters -/

theorem parameter?_eq_some_iff {seg : List Char} {p : String × String} :
    parameter? seg = some p ↔ IsParameter seg p := by
  rw [parameter?, Option.bind_eq_some_iff]
  constructor
  · intro h
    obtain ⟨⟨key, value⟩, hsplit, h⟩ := h
    obtain ⟨hno, rfl⟩ := splitFirst?_eq_some_iff.1 hsplit
    dsimp only at h
    split at h
    · cases h
    · rename_i hblank
      cases h
      simp only [Bool.or_eq_true, List.isEmpty_iff, not_or] at hblank
      exact .intro hno hblank.1 hblank.2
  · intro h
    cases h with
    | intro hno hkey hvalue =>
      refine ⟨_, splitFirst?_eq_some_iff.2 ⟨hno, rfl⟩, ?_⟩
      simp [hkey, hvalue]

theorem any_key_iff {p : String × String} {ps : List (String × String)} :
    ps.any (fun q => q.1 == p.1) = true ↔ p.1 ∈ ps.map Prod.fst := by
  rw [List.any_eq_true, List.mem_map]
  simp

theorem parametersOf?_cons (seg : List Char) (segs : List (List Char)) :
    parametersOf? (seg :: segs) = (parameter? seg).bind fun p => (parametersOf? segs).bind fun ps =>
      if ps.any (fun q => q.1 == p.1) then none else some (p :: ps) := rfl

theorem parametersOf?_eq_some_iff {segs : List (List Char)} {ps : List (String × String)} :
    parametersOf? segs = some ps ↔ List.Forall₂ IsParameter segs ps ∧ (ps.map Prod.fst).Nodup := by
  induction segs generalizing ps with
  | nil =>
    rw [parametersOf?, List.forall₂_nil_left_iff, Option.some.injEq]
    constructor
    · rintro rfl
      exact ⟨rfl, List.nodup_nil⟩
    · intro h
      exact h.1.symm
  | cons seg segs ih =>
    rw [parametersOf?_cons]
    constructor
    · intro h
      obtain ⟨p, hp, h⟩ := Option.bind_eq_some_iff.1 h
      obtain ⟨qs, hqs, h⟩ := Option.bind_eq_some_iff.1 h
      obtain ⟨hall, hnodup⟩ := ih.1 hqs
      split at h
      · cases h
      · rename_i hno
        cases h
        rw [any_key_iff] at hno
        refine ⟨.cons (parameter?_eq_some_iff.1 hp) hall, ?_⟩
        rw [List.map_cons]
        exact List.nodup_cons.2 ⟨hno, hnodup⟩
    · intro h
      obtain ⟨hall, hnodup⟩ := h
      cases hall with
      | cons hp hall =>
        rename_i p qs
        rw [List.map_cons, List.nodup_cons] at hnodup
        rw [parameter?_eq_some_iff.2 hp, ih.2 ⟨hall, hnodup.2⟩, Option.bind_some, Option.bind_some, if_neg]
        rw [any_key_iff]
        exact hnodup.1

/-- A text that is not blank has its parameters between its semicolons. -/
theorem hasParameters_iff {inner : List Char} {ps : List (String × String)} :
    HasParameters inner ps ↔ (trimList inner = [] ∧ ps = []) ∨
      (trimList inner ≠ [] ∧ List.Forall₂ IsParameter (splitAt ';' (trimList inner)) ps) := by
  constructor
  · intro h
    cases h with
    | blank hblank => exact .inl ⟨hblank, rfl⟩
    | segments hne hsegs hinner hall =>
      right
      rw [hinner, splitAt_joinWith hne hsegs]
      refine ⟨?_, hall⟩
      -- A segment holds an equals sign, so the text of all of them is not empty.
      cases hall with
      | nil => exact absurd rfl hne
      | cons hfirst hrest =>
        cases hfirst with
        | intro =>
          cases hrest with
          | nil => simp [joinWith]
          | cons => simp [joinWith]
  · intro h
    rcases h with ⟨hblank, rfl⟩ | ⟨hne, hall⟩
    · exact .blank hblank
    · exact .segments (splitAt_ne_nil _ _) (fun seg hseg => not_mem_of_mem_splitAt hseg)
        (joinWith_splitAt _ _).symm hall

theorem parameters?_eq_some_iff {inner : List Char} {ps : List (String × String)} :
    parameters? inner = some ps ↔ HasParameters inner ps ∧ (ps.map Prod.fst).Nodup := by
  rw [parameters?, hasParameters_iff]
  by_cases hblank : trimList inner = []
  · simp only [hblank, List.isEmpty_nil, if_true, Option.some.injEq, ne_eq, not_true, false_and, or_false,
      true_and]
    constructor
    · intro h
      rw [← h]
      exact ⟨rfl, List.nodup_nil⟩
    · intro h
      exact h.1.symm
  · have hne : (trimList inner).isEmpty = false := by simpa using hblank
    simp only [hne, Bool.false_eq_true, if_false, parametersOf?_eq_some_iff, hblank, ne_eq, not_false_eq_true,
      false_and, false_or, true_and]

theorem IsParameter.unique {seg : List Char} {p q : String × String} (hp : IsParameter seg p)
    (hq : IsParameter seg q) : p = q := by
  have hsome : some p = some q := by rw [← parameter?_eq_some_iff.2 hp, parameter?_eq_some_iff.2 hq]
  exact Option.some.inj hsome

theorem HasParameters.unique {inner : List Char} {ps qs : List (String × String)} (hp : HasParameters inner ps)
    (hq : HasParameters inner qs) : ps = qs := by
  rcases hasParameters_iff.1 hp with ⟨hblank, rfl⟩ | ⟨hne, hps⟩
  · rcases hasParameters_iff.1 hq with ⟨-, rfl⟩ | ⟨hne, -⟩
    · rfl
    · exact absurd hblank hne
  · rcases hasParameters_iff.1 hq with ⟨hblank, -⟩ | ⟨-, hqs⟩
    · exact absurd hblank hne
    · have hunique : Relator.RightUnique IsParameter := fun _ _ _ h h' => h.unique h'
      exact Relator.RightUnique.forall₂ hunique hps hqs

/-! ## Reading the frame -/

theorem body?_eq_some_iff {cs body : List Char} :
    body? cs = some body ↔ cs = "<generate[".toList ++ (body ++ [']', '>']) := by
  rw [body?]
  constructor
  · intro h
    split at h
    · rename_i hopen
      obtain ⟨rest, rfl⟩ := List.isPrefixOf_iff_prefix.1 hopen
      rw [List.drop_left] at h
      split at h
      · rename_i r hr
        cases h
        have hrest := congrArg List.reverse hr
        rw [List.reverse_reverse] at hrest
        rw [hrest]
        simp
      · cases h
    · cases h
  · rintro rfl
    rw [if_pos (List.isPrefixOf_iff_prefix.2 (List.prefix_append _ _)), List.drop_left]
    simp

/-- A text without parentheses in front of a closing one. -/
theorem closed_eq_some_iff {rest inner : List Char} :
    (match rest.reverse with
      | ')' :: r => if r.any (fun c => c = '(' || c = ')') then none else some r.reverse
      | _ => none) = some inner ↔ rest = inner ++ [')'] ∧ '(' ∉ inner ∧ ')' ∉ inner := by
  constructor
  · intro h
    split at h
    · rename_i r hr
      have hrest := congrArg List.reverse hr
      rw [List.reverse_reverse, List.reverse_cons] at hrest
      split at h
      · cases h
      · rename_i hno
        cases h
        have hno : ∀ c ∈ r, c ≠ '(' ∧ c ≠ ')' := by simpa using hno
        refine ⟨hrest, ?_, ?_⟩
        · intro hmem
          exact (hno _ (List.mem_reverse.1 hmem)).1 rfl
        · intro hmem
          exact (hno _ (List.mem_reverse.1 hmem)).2 rfl
    · cases h
  · intro h
    obtain ⟨rfl, hopen, hclose⟩ := h
    have hno : (inner.reverse.any fun c => c = '(' || c = ')') = false := by
      rw [List.any_eq_false]
      intro c hc
      have hc := List.mem_reverse.1 hc
      have hne : c ≠ '(' ∧ c ≠ ')' := ⟨fun h => hopen (h ▸ hc), fun h => hclose (h ▸ hc)⟩
      simp [hne.1, hne.2]
    rw [List.reverse_append, List.reverse_singleton, List.singleton_append]
    show (if inner.reverse.any (fun c => c = '(' || c = ')') then none else some inner.reverse.reverse) = _
    rw [hno, List.reverse_reverse]
    rfl

theorem enclosed?_eq_some_iff {word body inner : List Char} :
    enclosed? word body = some inner ↔ (body = word ∧ inner = []) ∨
      (body = word ++ '(' :: (inner ++ [')']) ∧ '(' ∉ inner ∧ ')' ∉ inner) := by
  have hdrop : ∀ rest, (word ++ ['('] ++ rest).drop (word.length + 1) = rest := by
    intro rest
    rw [List.append_assoc]
    simp
  rw [enclosed?]
  constructor
  · intro h
    split at h
    · rename_i hword
      exact .inl ⟨hword, (Option.some.inj h).symm⟩
    · right
      split at h
      · rename_i hopen
        obtain ⟨rest, rfl⟩ := List.isPrefixOf_iff_prefix.1 hopen
        dsimp only at h
        rw [hdrop] at h
        obtain ⟨rfl, hno⟩ := closed_eq_some_iff.1 h
        exact ⟨by simp, hno⟩
      · cases h
  · intro h
    rcases h with ⟨rfl, rfl⟩ | ⟨hbody, hno⟩
    · rw [if_pos rfl]
    · have hbody : body = word ++ ['('] ++ (inner ++ [')']) := by simpa using hbody
      have hne : body ≠ word := by simp [hbody]
      have hopen : word ++ ['('] <+: body := ⟨inner ++ [')'], hbody.symm⟩
      rw [if_neg hne, if_pos (List.isPrefixOf_iff_prefix.2 hopen)]
      dsimp only
      rw [hbody, hdrop]
      exact closed_eq_some_iff.2 ⟨rfl, hno⟩

/-- A text is a token of a kind if its frame is that of a token and the word of the kind stands in it. -/
theorem isWritten_iff {s : String} {k : Kind} {ps : List (String × String)} :
    IsWritten s k ps ↔ ∃ body inner, body? s.toList = some body ∧ enclosed? k.word.toList body = some inner ∧
      HasParameters inner ps := by
  constructor
  · intro h
    cases h with
    | bare k =>
      refine ⟨k.word.toList, [], body?_eq_some_iff.2 ?_, enclosed?_eq_some_iff.2 (.inl ⟨rfl, rfl⟩), .blank rfl⟩
      simp
    | @withParameters inner ps k hopen hclose hps =>
      refine ⟨k.word.toList ++ '(' :: (inner ++ [')']), inner, body?_eq_some_iff.2 ?_,
        enclosed?_eq_some_iff.2 (.inr ⟨rfl, hopen, hclose⟩), hps⟩
      simp
  · intro h
    obtain ⟨body, inner, hbody, hinner, hps⟩ := h
    have hs : s = String.ofList ("<generate[".toList ++ (body ++ [']', '>'])) := by
      rw [← body?_eq_some_iff.1 hbody, String.ofList_toList]
    rcases enclosed?_eq_some_iff.1 hinner with ⟨rfl, rfl⟩ | ⟨rfl, hopen, hclose⟩
    · have hnone : ps = [] := hps.unique (.blank rfl)
      rw [hs, hnone]
      convert IsWritten.bare k using 1
      simp [← String.toList_inj]
    · rw [hs]
      convert IsWritten.withParameters k hopen hclose hps using 1
      simp [← String.toList_inj]

end Covenant.Generator
