import Covenant.Proofs.TokenGrammar

/-!
# Reading generator tokens

* `gives_iff`: what is read for a key is what the parameters say for it;
* `ofParameters?_eq_some_iff`: the parameters of each kind, and what they ask for;
* `parse?_eq_some_iff`: exactly the written tokens with valid parameters are read, for what they ask for;
* `isSome_parse?_iff`: all of them are;
* `parse?_of_perm`: the order of the parameters makes no difference.
-/

namespace Covenant.Generator

open Covenant.Text Covenant.Decimal

/-! ## Reading the parameters of a kind -/

theorem gives_iff {α : Type} {ps : List (String × String)} (hps : (ps.map Prod.fst).Nodup) {key : String}
    {read : String → Option α} {reads : String → α → Prop} (hread : ∀ v x, read v = some x ↔ reads v x)
    {default x : α} : valueOr? ps key read default = some x ↔ Gives ps key reads default x := by
  rw [valueOr?]
  cases hfind : ps.find? (fun p => p.1 == key) with
  | none =>
    have hno : key ∉ ps.map Prod.fst := by
      intro hmem
      obtain ⟨p, hp, hkey⟩ := List.mem_map.1 hmem
      have hne := List.find?_eq_none.1 hfind p hp
      simp [hkey] at hne
    constructor
    · intro h
      cases h
      exact .absent hno
    · intro h
      cases h with
      | given hmem => exact absurd (List.mem_map.2 ⟨_, hmem, rfl⟩) hno
      | absent => rfl
  | some p =>
    have hkey : p.1 = key := by simpa using List.find?_some hfind
    have hmem : (key, p.2) ∈ ps := by
      rw [← hkey]
      exact List.mem_of_find?_eq_some hfind
    constructor
    · intro h
      exact .given hmem ((hread p.2 x).1 h)
    · intro h
      cases h with
      | @given v x hv hreads =>
        -- Keys are distinct, so this is the value that was found.
        have hsame : (key, v) = (key, p.2) := List.inj_on_of_nodup_map hps hv hmem rfl
        have hvalue : v = p.2 := congrArg Prod.snd hsame
        show read p.2 = some x
        rw [← hvalue]
        exact (hread v x).2 hreads
      | absent hno => exact absurd (List.mem_map.2 ⟨_, hmem, rfl⟩) hno

section

variable {α : Type} {ps : List (String × String)} {key : String} {reads reads' : String → α → Prop} {default x : α}

theorem Gives.imp (h : Gives ps key reads default x) (himp : ∀ v, reads v x → reads' v x) :
    Gives ps key reads' default x := by
  cases h with
  | given hmem hreads => exact .given hmem (himp _ hreads)
  | absent hno => exact .absent hno

/-- A key that is there is read, and no other value of the key. -/
theorem Gives.reads_of_mem (h : Gives ps key reads default x) (hps : (ps.map Prod.fst).Nodup) {v : String}
    (hv : (key, v) ∈ ps) : reads v x := by
  cases h with
  | @given w _ hmem hreads =>
    have hsame : (key, v) = (key, w) := List.inj_on_of_nodup_map hps hv hmem rfl
    have hvalue : v = w := congrArg Prod.snd hsame
    rw [hvalue]
    exact hreads
  | absent hno => exact absurd (List.mem_map.2 ⟨_, hv, rfl⟩) hno

end

/-- A key has a value that is read, or its default. -/
theorem exists_gives {α : Type} {ps : List (String × String)} {key : String} {reads : String → α → Prop}
    (default : α) (h : ∀ v, (key, v) ∈ ps → ∃ x, reads v x) : ∃ x, Gives ps key reads default x := by
  by_cases hkey : key ∈ ps.map Prod.fst
  · obtain ⟨p, hp, rfl⟩ := List.mem_map.1 hkey
    obtain ⟨x, hx⟩ := h p.2 hp
    exact ⟨x, .given hp hx⟩
  · exact ⟨default, .absent hkey⟩

theorem ofEnds_eq_iff {a b : Int64Value} {bounds : Bounds} :
    Bounds.ofEnds a b = bounds ↔ bounds.low.val = min a.val b.val ∧ bounds.high.val = max a.val b.val := by
  obtain ⟨low, high, hle⟩ := bounds
  have hext : ∀ (l h : Int64Value) (hlh : l.val ≤ h.val),
      (⟨l, h, hlh⟩ : Bounds) = ⟨low, high, hle⟩ ↔ low.val = l.val ∧ high.val = h.val := by
    intro l h hlh
    rw [Bounds.mk.injEq, Subtype.ext_iff, Subtype.ext_iff, eq_comm, @eq_comm _ h.val]
  rw [Bounds.ofEnds]
  split
  · rename_i h
    rw [hext, Int.min_eq_left h, Int.max_eq_right h]
  · rename_i h
    have h : b.val ≤ a.val := by omega
    rw [hext, Int.min_eq_right h, Int.max_eq_left h]

theorem ofParameters?_string {ps : List (String × String)} (hps : (ps.map Prod.fst).Nodup) {g : Generator} :
    ofParameters? .string ps = some g ↔ (∀ p ∈ ps, Admits .string p) ∧ Denotes ps .string g := by
  have hvalue : ∀ n, valueOr? ps "length" (unsigned? 0xFFFFFFFFFFFFFFFF) defaultLength = some n ↔
      Gives ps "length" (fun v n => UnsignedNumeral v n ∧ n ≤ 0xFFFFFFFFFFFFFFFF) defaultLength n :=
    fun n => gives_iff hps fun _ _ => unsigned?_eq_some_iff
  rw [ofParameters?]
  constructor
  · intro h
    split at h
    · rename_i hkeys
      obtain ⟨n, hn, h⟩ := Option.bind_eq_some_iff.1 h
      have hgives := (hvalue n).1 hn
      split at h
      · rename_i hle
        cases h
        refine ⟨?_, .string hle (hgives.imp fun _ hv => hv.1)⟩
        intro p hp
        obtain ⟨key, v⟩ := p
        have hkey : key = "length" := by simpa using List.all_eq_true.1 hkeys _ hp
        subst hkey
        exact .length (hgives.reads_of_mem hps hp).1 hle
      · cases h
    · cases h
  · intro h
    obtain ⟨hadmits, hdenotes⟩ := h
    cases hdenotes with
    | @string n hle hgives =>
      have hkeys : ps.all (fun p => p.1 == "length") = true := by
        apply List.all_eq_true.2
        intro p hp
        cases hadmits p hp
        rfl
      have hbound : n ≤ 0xFFFFFFFFFFFFFFFF := Nat.le_trans hle (by decide)
      rw [if_pos hkeys, (hvalue n).2 (hgives.imp fun _ hv => ⟨hv, hbound⟩), Option.bind_some, dif_pos hle]

theorem ofParameters?_number {ps : List (String × String)} (hps : (ps.map Prod.fst).Nodup) {g : Generator} :
    ofParameters? .number ps = some g ↔ (∀ p ∈ ps, Admits .number p) ∧ Denotes ps .number g := by
  have hvalue : ∀ key default i, valueOr? ps key int64? default = some i ↔
      Gives ps key (fun v i => SignedNumeral v i.val) default i :=
    fun _ _ _ => gives_iff hps fun _ _ => int64?_eq_some_iff
  have hbind : ofParameters? .number ps =
      if ps.all (fun p => p.1 == "min" || p.1 == "max") then
        (valueOr? ps "min" int64? defaultLow).bind fun low =>
          (valueOr? ps "max" int64? defaultHigh).bind fun high => some (.number (.ofEnds low high))
      else none := rfl
  rw [hbind]
  constructor
  · intro h
    split at h
    · rename_i hkeys
      obtain ⟨low, hlow, h⟩ := Option.bind_eq_some_iff.1 h
      obtain ⟨high, hhigh, h⟩ := Option.bind_eq_some_iff.1 h
      have hlow := (hvalue _ _ low).1 hlow
      have hhigh := (hvalue _ _ high).1 hhigh
      have hends := ofEnds_eq_iff.1 (rfl : Bounds.ofEnds low high = _)
      cases h
      refine ⟨?_, .number hlow hhigh hends.1 hends.2⟩
      intro p hp
      obtain ⟨key, v⟩ := p
      have hkey : key = "min" ∨ key = "max" := by simpa using List.all_eq_true.1 hkeys _ hp
      rcases hkey with rfl | rfl
      · exact .low (hlow.reads_of_mem hps hp)
      · exact .high (hhigh.reads_of_mem hps hp)
    · cases h
  · intro h
    obtain ⟨hadmits, hdenotes⟩ := h
    cases hdenotes with
    | @number low high bounds hlow hhigh hmin hmax =>
      have hkeys : ps.all (fun p => p.1 == "min" || p.1 == "max") = true := by
        apply List.all_eq_true.2
        intro p hp
        cases hadmits p hp <;> rfl
      rw [if_pos hkeys, (hvalue _ _ low).2 hlow, (hvalue _ _ high).2 hhigh, Option.bind_some, Option.bind_some,
        ofEnds_eq_iff.2 ⟨hmin, hmax⟩]

/-- A kind that has no parameters, and asks for one thing. -/
theorem ofNoParameter_iff {k : Kind} {g₀ : Generator} (hk : ∀ p, ¬ Admits k p)
    (hg : ∀ ps g, Denotes ps k g ↔ g = g₀) {ps : List (String × String)} {g : Generator} :
    (if ps.isEmpty then some g₀ else none) = some g ↔ (∀ p ∈ ps, Admits k p) ∧ Denotes ps k g := by
  rw [hg]
  cases ps with
  | nil => simp [eq_comm]
  | cons p ps => simp [hk p]

/-- The parameters of a token are read for what it asks for, if they are parameters of its kind. -/
theorem ofParameters?_eq_some_iff {k : Kind} {ps : List (String × String)} (hps : (ps.map Prod.fst).Nodup)
    {g : Generator} : ofParameters? k ps = some g ↔ (∀ p ∈ ps, Admits k p) ∧ Denotes ps k g := by
  cases k with
  | string => exact ofParameters?_string hps
  | number => exact ofParameters?_number hps
  | bool =>
    refine ofNoParameter_iff (fun p h => by cases h) fun ps g => ?_
    constructor
    · rintro ⟨⟩
      rfl
    · rintro rfl
      exact .bool
  | uuid =>
    refine ofNoParameter_iff (fun p h => by cases h) fun ps g => ?_
    constructor
    · rintro ⟨⟩
      rfl
    · rintro rfl
      exact .uuid

/-! ## Reading tokens -/

theorem IsWritten.unique {s : String} {k l : Kind} {ps qs : List (String × String)} (hk : IsWritten s k ps)
    (hl : IsWritten s l qs) : k = l ∧ ps = qs := by
  obtain ⟨body, inner, hbody, hinner, hps⟩ := isWritten_iff.1 hk
  obtain ⟨body', inner', hbody', hinner', hqs⟩ := isWritten_iff.1 hl
  rw [hbody] at hbody'
  cases hbody'
  have hhead : ∀ (m : Kind) (rest : List Char), enclosed? m.word.toList body = some rest →
      body.head? = m.word.toList.head? := by
    intro m rest h
    have hword : m.word.toList ≠ [] := by cases m <;> decide
    rcases enclosed?_eq_some_iff.1 h with ⟨rfl, -⟩ | ⟨rfl, -, -⟩
    · rfl
    · exact List.head?_append_of_ne_nil _ hword
  -- The words of the kinds start with different letters.
  have hkind : k = l := by
    have hletters := (hhead k inner hinner).symm.trans (hhead l inner' hinner')
    revert hletters
    cases k <;> cases l <;> decide
  subst hkind
  rw [hinner] at hinner'
  cases hinner'
  exact ⟨rfl, hps.unique hqs⟩

theorem exists_of_parse? {s : String} {g : Generator} (h : parse? s = some g) :
    ∃ k ps, IsWritten s k ps ∧ Valid k ps ∧ Denotes ps k g := by
  obtain ⟨body, hbody, h⟩ := Option.bind_eq_some_iff.1 h
  obtain ⟨k, -, hk⟩ := List.exists_of_findSome?_eq_some h
  obtain ⟨inner, hinner, hk⟩ := Option.bind_eq_some_iff.1 hk
  obtain ⟨ps, hps, hk⟩ := Option.bind_eq_some_iff.1 hk
  obtain ⟨hps, hnodup⟩ := parameters?_eq_some_iff.1 hps
  obtain ⟨hadmits, hdenotes⟩ := (ofParameters?_eq_some_iff hnodup).1 hk
  exact ⟨k, ps, isWritten_iff.2 ⟨body, inner, hbody, hinner, hps⟩, ⟨hnodup, hadmits⟩, hdenotes⟩

/-- Parameters ask for one thing at most. -/
theorem Denotes.unique {k : Kind} {ps : List (String × String)} {g g' : Generator} (hps : Valid k ps)
    (h : Denotes ps k g) (h' : Denotes ps k g') : g = g' := by
  have hg := (ofParameters?_eq_some_iff hps.distinct).2 ⟨hps.admitted, h⟩
  have hg' := (ofParameters?_eq_some_iff hps.distinct).2 ⟨hps.admitted, h'⟩
  exact Option.some.inj (hg.symm.trans hg')

theorem parse?_of_isWritten {s : String} {k : Kind} {ps : List (String × String)} {g : Generator}
    (h : IsWritten s k ps) (hps : Valid k ps) (hg : Denotes ps k g) : parse? s = some g := by
  have hsome : (parse? s).isSome := by
    obtain ⟨body, inner, hbody, hinner, hparameters⟩ := isWritten_iff.1 h
    rw [parse?, hbody, Option.bind_some, List.findSome?_isSome_iff]
    refine ⟨k, by cases k <;> simp, ?_⟩
    rw [hinner, Option.bind_some, parameters?_eq_some_iff.2 ⟨hparameters, hps.distinct⟩, Option.bind_some,
      (ofParameters?_eq_some_iff hps.distinct).2 ⟨hps.admitted, hg⟩]
    rfl
  -- No other kind can be read, so what is read is what the parameters ask for.
  obtain ⟨g', hg'⟩ := Option.isSome_iff_exists.1 hsome
  obtain ⟨l, qs, hwritten, hvalid, hdenotes⟩ := exists_of_parse? hg'
  obtain ⟨rfl, rfl⟩ := h.unique hwritten
  rw [hg', hg.unique hps hdenotes]

/-- The texts that are read as tokens are the written ones with valid parameters. -/
theorem parse?_eq_some_iff {s : String} {g : Generator} :
    parse? s = some g ↔ ∃ k ps, IsWritten s k ps ∧ Valid k ps ∧ Denotes ps k g := by
  refine ⟨exists_of_parse?, fun h => ?_⟩
  obtain ⟨k, ps, hwritten, hvalid, hdenotes⟩ := h
  exact parse?_of_isWritten hwritten hvalid hdenotes

/-- Valid parameters ask for something. -/
theorem Valid.exists_denotes {k : Kind} {ps : List (String × String)} (h : Valid k ps) : ∃ g, Denotes ps k g := by
  cases k with
  | string =>
    have hlength : ∀ v, ("length", v) ∈ ps → ∃ n, UnsignedNumeral v n ∧ n ≤ maxLength := by
      intro v hv
      cases h.admitted _ hv with
      | length hnumeral hle => exact ⟨_, hnumeral, hle⟩
    obtain ⟨n, hn⟩ := exists_gives defaultLength hlength
    have hle : n ≤ maxLength := by
      cases hn with
      | given _ hreads => exact hreads.2
      | absent => decide
    exact ⟨_, .string hle (hn.imp fun _ hv => hv.1)⟩
  | number =>
    have hbound : ∀ key v, (key, v) ∈ ps → ∃ i : Int64Value, SignedNumeral v i.val := by
      intro key v hv
      cases h.admitted _ hv with
      | low hnumeral => exact ⟨_, hnumeral⟩
      | high hnumeral => exact ⟨_, hnumeral⟩
    obtain ⟨a, ha⟩ := exists_gives defaultLow (hbound "min")
    obtain ⟨b, hb⟩ := exists_gives defaultHigh (hbound "max")
    obtain ⟨hmin, hmax⟩ := ofEnds_eq_iff.1 (rfl : Bounds.ofEnds a b = _)
    exact ⟨_, .number ha hb hmin hmax⟩
  | bool => exact ⟨_, .bool⟩
  | uuid => exact ⟨_, .uuid⟩

/-- A text is a token exactly if it is written as one with valid parameters. -/
theorem isSome_parse?_iff {s : String} : (parse? s).isSome ↔ ∃ k ps, IsWritten s k ps ∧ Valid k ps := by
  rw [Option.isSome_iff_exists]
  constructor
  · intro h
    obtain ⟨g, hg⟩ := h
    obtain ⟨k, ps, hwritten, hvalid, -⟩ := exists_of_parse? hg
    exact ⟨k, ps, hwritten, hvalid⟩
  · intro h
    obtain ⟨k, ps, hwritten, hvalid⟩ := h
    obtain ⟨g, hdenotes⟩ := hvalid.exists_denotes
    exact ⟨g, parse?_of_isWritten hwritten hvalid hdenotes⟩

/-! ## The order of parameters -/

theorem Valid.perm {k : Kind} {ps qs : List (String × String)} (h : Valid k ps) (hperm : ps.Perm qs) :
    Valid k qs where
  distinct := (hperm.map Prod.fst).nodup_iff.1 h.distinct
  admitted p hp := h.admitted p (hperm.mem_iff.2 hp)

theorem Gives.perm {α : Type} {ps qs : List (String × String)} {key : String} {reads : String → α → Prop}
    {default x : α} (h : Gives ps key reads default x) (hperm : ps.Perm qs) : Gives qs key reads default x := by
  cases h with
  | given hmem hreads => exact .given (hperm.mem_iff.1 hmem) hreads
  | absent hno =>
    apply Gives.absent
    intro hmem
    exact hno ((hperm.map Prod.fst).mem_iff.2 hmem)

theorem Denotes.perm {k : Kind} {ps qs : List (String × String)} {g : Generator} (h : Denotes ps k g)
    (hperm : ps.Perm qs) : Denotes qs k g := by
  cases h with
  | string hle hlength => exact .string hle (hlength.perm hperm)
  | number hlow hhigh hmin hmax => exact .number (hlow.perm hperm) (hhigh.perm hperm) hmin hmax
  | bool => exact .bool
  | uuid => exact .uuid

theorem parse?_eq_some_of_perm {s t : String} {k : Kind} {ps qs : List (String × String)} {g : Generator}
    (hs : IsWritten s k ps) (ht : IsWritten t k qs) (hperm : ps.Perm qs) (h : parse? s = some g) :
    parse? t = some g := by
  obtain ⟨l, rs, hwritten, hvalid, hdenotes⟩ := exists_of_parse? h
  obtain ⟨rfl, rfl⟩ := hs.unique hwritten
  exact parse?_of_isWritten ht (hvalid.perm hperm) (hdenotes.perm hperm)

/-- Two texts that are written with the same parameters, in whatever order and with whatever blanks around
them, are the same token, or neither is one. -/
theorem parse?_of_perm {s t : String} {k : Kind} {ps qs : List (String × String)} (hs : IsWritten s k ps)
    (ht : IsWritten t k qs) (hperm : ps.Perm qs) : parse? s = parse? t := by
  apply Option.ext
  intro g
  exact ⟨parse?_eq_some_of_perm hs ht hperm, parse?_eq_some_of_perm ht hs hperm.symm⟩

end Covenant.Generator
