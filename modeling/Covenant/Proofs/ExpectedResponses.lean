import Covenant.OpenApi.Contracts
import Covenant.Proofs.Numerals

/-!
# The response that is expected

An operation declares responses under status codes and under the word `default`, in any order.

* `OpenApi.FirstLeast`, `OpenApi.leastCode?_eq_some_iff`: the fold over the codes keeps the first of the least;
* `OpenApi.StatusCode`, `OpenApi.LeastCode`: the keys that are codes, and the least code of a kind with the first
  response that is declared under it;
* `OpenApi.Expects`, `OpenApi.expects_iff`: the status and the response that are expected.
-/

namespace Covenant.OpenApi

/-! ## The first of the least -/

/-- An item of a list before which every code is greater and behind which none is less. -/
inductive FirstLeast (c : UInt16 × Json) : List (UInt16 × Json) → Prop
  | here {codes : List (UInt16 × Json)} : (∀ d ∈ codes, c.1 ≤ d.1) → FirstLeast c (c :: codes)
  | there {d : UInt16 × Json} {codes : List (UInt16 × Json)} : c.1 < d.1 → FirstLeast c codes →
      FirstLeast c (d :: codes)

section

variable {c d l : UInt16 × Json} {codes : List (UInt16 × Json)}

theorem FirstLeast.mem (h : FirstLeast c codes) : c ∈ codes := by
  induction h with
  | here _ => exact List.mem_cons_self
  | there _ _ ih => exact List.mem_cons_of_mem _ ih

theorem FirstLeast.le (h : FirstLeast c codes) : ∀ d ∈ codes, c.1 ≤ d.1 := by
  induction h with
  | here hle => exact List.forall_mem_cons.2 ⟨UInt16.le_refl _, hle⟩
  | there hlt _ ih => exact List.forall_mem_cons.2 ⟨UInt16.le_of_lt hlt, ih⟩

theorem FirstLeast.unique (hc : FirstLeast c codes) (hd : FirstLeast d codes) : c = d := by
  induction hc with
  | here hle =>
    cases hd with
    | here _ => rfl
    | there hlt hd => exact absurd (hle d hd.mem) (UInt16.not_le.2 hlt)
  | there hlt hc ih =>
    cases hd with
    | here hle => exact absurd (hle c hc.mem) (UInt16.not_le.2 hlt)
    | there _ hd => exact ih hd

/-- A code that is no less than the first one may stand behind it. -/
theorem FirstLeast.insert (h : FirstLeast c (l :: codes)) (hd : l.1 ≤ d.1) : FirstLeast c (l :: d :: codes) := by
  cases h with
  | here hle => exact .here (List.forall_mem_cons.2 ⟨hd, hle⟩)
  | there hlt h => exact .there hlt (.there (UInt16.lt_of_lt_of_le hlt hd) h)

/-- The fold keeps the first of the least, from the one that it starts with on. -/
theorem exists_foldl_least (codes : List (UInt16 × Json)) (l : UInt16 × Json) :
    ∃ c, FirstLeast c (l :: codes) ∧ codes.foldl (fun least c => match least with
      | some l => if c.1 < l.1 then some c else some l
      | none => some c) (some l) = some c := by
  induction codes generalizing l with
  | nil => exact ⟨l, .here nofun, rfl⟩
  | cons d codes ih =>
    rw [List.foldl_cons]
    dsimp only
    by_cases hless : d.1 < l.1
    · obtain ⟨c, hc, hfold⟩ := ih d
      have hlt : c.1 < l.1 := UInt16.lt_of_le_of_lt (hc.le d List.mem_cons_self) hless
      exact ⟨c, .there hlt hc, by rw [if_pos hless, hfold]⟩
    · obtain ⟨c, hc, hfold⟩ := ih l
      exact ⟨c, hc.insert (UInt16.not_lt.1 hless), by rw [if_neg hless, hfold]⟩

theorem leastCode?_eq_some_iff : leastCode? codes = some c ↔ FirstLeast c codes := by
  cases codes with
  | nil => exact ⟨nofun, nofun⟩
  | cons l codes =>
    obtain ⟨d, hd, hfold⟩ := exists_foldl_least codes l
    have hleast : leastCode? (l :: codes) = some d := hfold
    rw [hleast, Option.some.injEq]
    constructor
    · rintro rfl
      exact hd
    · exact hd.unique

theorem leastCode?_eq_none_iff : leastCode? codes = none ↔ codes = [] := by
  cases codes with
  | nil => exact ⟨fun _ => rfl, fun _ => rfl⟩
  | cons l codes =>
    obtain ⟨d, -, hfold⟩ := exists_foldl_least codes l
    have hleast : leastCode? (l :: codes) = some d := hfold
    rw [hleast]
    exact ⟨nofun, nofun⟩

end

/-! ## Codes -/

/-- The key of a response is a numeral for a status code. -/
def StatusCode (key : String) (n : UInt16) : Prop := Decimal.UnsignedNumeral key n.toNat

/-- The code that a response is declared under, with the response. -/
def codeOf? (f : String × Json) : Option (UInt16 × Json) :=
  (Decimal.unsigned? 65535 f.1).map fun n => (n.toUInt16, f.2)

theorem codeOf?_eq_some_iff {f : String × Json} {n : UInt16} {response : Json} :
    codeOf? f = some (n, response) ↔ StatusCode f.1 n ∧ f.2 = response := by
  rw [codeOf?, Option.map_eq_some_iff, StatusCode]
  constructor
  · intro h
    obtain ⟨m, hm, heq⟩ := h
    obtain ⟨hnumeral, hle⟩ := Decimal.unsigned?_eq_some_iff.1 hm
    obtain ⟨rfl, rfl⟩ := Prod.mk.inj heq
    have hvalue : m.toUInt16.toNat = m := by
      rw [UInt16.toNat_ofNat']
      omega
    exact ⟨hvalue.symm ▸ hnumeral, rfl⟩
  · intro h
    obtain ⟨hnumeral, rfl⟩ := h
    have hlt := n.toNat_lt
    exact ⟨n.toNat, Decimal.unsigned?_eq_some_iff.2 ⟨hnumeral, by omega⟩, congrArg (·, f.2) UInt16.ofNat_toNat⟩

theorem StatusCode.unique {key : String} {m n : UInt16} (hm : StatusCode key m) (hn : StatusCode key n) : m = n := by
  have hm : codeOf? (key, .null) = some (m, .null) := codeOf?_eq_some_iff.2 ⟨hm, rfl⟩
  have hn : codeOf? (key, .null) = some (n, .null) := codeOf?_eq_some_iff.2 ⟨hn, rfl⟩
  exact congrArg Prod.fst (Option.some.inj (hm.symm.trans hn))

/-- The least code that satisfies a condition, with the first response that is declared under it. -/
inductive LeastCode (p : UInt16 → Bool) : List (String × Json) → UInt16 → Json → Prop
  | here {key : String} {n : UInt16} {response : Json} {responses : List (String × Json)} :
      StatusCode key n → p n → (∀ f ∈ responses, ∀ m, StatusCode f.1 m → p m → n ≤ m) →
      LeastCode p ((key, response) :: responses) n response
  | there {f : String × Json} {n : UInt16} {response : Json} {responses : List (String × Json)} :
      (∀ m, StatusCode f.1 m → p m → n < m) → LeastCode p responses n response →
      LeastCode p (f :: responses) n response

theorem LeastCode.exists_mem {p : UInt16 → Bool} {responses : List (String × Json)} {n : UInt16} {response : Json}
    (h : LeastCode p responses n response) : ∃ f ∈ responses, f.2 = response := by
  induction h with
  | here _ _ _ => exact ⟨_, List.mem_cons_self, rfl⟩
  | there _ _ ih =>
    obtain ⟨f, hf, hresponse⟩ := ih
    exact ⟨f, List.mem_cons_of_mem _ hf, hresponse⟩

/-- The codes that satisfy a condition. -/
def codesOf (p : UInt16 → Bool) (responses : List (String × Json)) : List (UInt16 × Json) :=
  (responses.filterMap codeOf?).filter fun c => p c.1

section

variable {p : UInt16 → Bool} {responses : List (String × Json)} {f : String × Json} {n : UInt16}

theorem mem_codesOf {response : Json} :
    (n, response) ∈ codesOf p responses ↔ p n ∧ ∃ f ∈ responses, StatusCode f.1 n ∧ f.2 = response := by
  rw [codesOf, List.mem_filter, List.mem_filterMap, and_comm]
  simp only [codeOf?_eq_some_iff]

theorem codesOf_cons_of_code (hf : StatusCode f.1 n) (hn : p n) :
    codesOf p (f :: responses) = (n, f.2) :: codesOf p responses := by
  rw [codesOf, List.filterMap_cons_some (codeOf?_eq_some_iff.2 ⟨hf, rfl⟩)]
  exact List.filter_cons_of_pos hn

theorem codesOf_cons_of_no_code (hf : ∀ n, StatusCode f.1 n → ¬ p n) :
    codesOf p (f :: responses) = codesOf p responses := by
  cases hcode : codeOf? f with
  | none => rw [codesOf, List.filterMap_cons_none hcode, codesOf]
  | some c =>
    have hc := (codeOf?_eq_some_iff.1 hcode).1
    rw [codesOf, List.filterMap_cons_some hcode]
    exact List.filter_cons_of_neg (hf c.1 hc)

theorem firstLeast_codesOf_iff {response : Json} :
    FirstLeast (n, response) (codesOf p responses) ↔ LeastCode p responses n response := by
  have hbehind {responses : List (String × Json)} :
      (∀ c ∈ codesOf p responses, n ≤ c.1) ↔ ∀ f ∈ responses, ∀ m, StatusCode f.1 m → p m → n ≤ m := by
    constructor
    · intro h f hf m hm hp
      exact h (m, f.2) (mem_codesOf.2 ⟨hp, f, hf, hm, rfl⟩)
    · intro h c hc
      obtain ⟨hp, f, hf, hm, -⟩ := mem_codesOf.1 hc
      exact h f hf c.1 hm hp
  induction responses with
  | nil => exact ⟨nofun, nofun⟩
  | cons f responses ih =>
    obtain ⟨key, value⟩ := f
    by_cases hcode : ∃ m, StatusCode key m ∧ p m
    · obtain ⟨m, hkey, hm⟩ := hcode
      rw [codesOf_cons_of_code hkey hm]
      constructor
      · intro h
        cases h with
        | here hle => exact .here hkey hm (hbehind.1 hle)
        | there hlt h =>
          refine .there ?_ (ih.1 h)
          intro m' hm' _
          rwa [hm'.unique hkey]
      · intro h
        cases h with
        | here hn _ hle =>
          obtain rfl := hn.unique hkey
          exact .here (hbehind.2 hle)
        | there hlt h => exact .there (hlt m hkey hm) (ih.2 h)
    · have hno : ∀ n, StatusCode key n → ¬ p n := fun n hn hp => hcode ⟨n, hn, hp⟩
      rw [codesOf_cons_of_no_code hno]
      refine ih.trans ⟨?_, ?_⟩
      · exact .there fun m hm hp => absurd hp (hno m hm)
      · intro h
        cases h with
        | here hn hp _ => exact absurd hp (hno n hn)
        | there _ h => exact h

theorem leastCode?_codesOf_eq_some_iff {response : Json} :
    leastCode? (codesOf p responses) = some (n, response) ↔ LeastCode p responses n response :=
  leastCode?_eq_some_iff.trans firstLeast_codesOf_iff

theorem leastCode?_codesOf_eq_none_iff :
    leastCode? (codesOf p responses) = none ↔ ∀ f ∈ responses, ∀ n, StatusCode f.1 n → ¬ p n := by
  rw [leastCode?_eq_none_iff, List.eq_nil_iff_forall_not_mem]
  constructor
  · intro h f hf n hn hp
    exact h (n, f.2) (mem_codesOf.2 ⟨hp, f, hf, hn, rfl⟩)
  · intro h c hc
    obtain ⟨hp, f, hf, hn, -⟩ := mem_codesOf.1 hc
    exact h f hf c.1 hn hp

end

/-! ## What is expected -/

/-- The codes of success. -/
def isSuccess (n : UInt16) : Bool := 200 ≤ n && n < 300

/-- The status that is expected where these responses are declared, with the response that says what is expected
besides, if there is one. -/
inductive Expects (responses : List (String × Json)) : UInt16 → Option Json → Prop
  /-- The least code of success is expected. -/
  | success {n : UInt16} {response : Json} : LeastCode isSuccess responses n response →
      Expects responses n (some response)
  /-- Where no code of success is declared, the default response is one. -/
  | default {response : Json} : (∀ f ∈ responses, ∀ n, StatusCode f.1 n → ¬ isSuccess n) →
      Json.lookup responses "default" = some response → Expects responses 200 (some response)
  /-- Where there is no default response either, the least code is expected. -/
  | other {n : UInt16} {response : Json} : (∀ f ∈ responses, ∀ n, StatusCode f.1 n → ¬ isSuccess n) →
      Json.lookup responses "default" = none → LeastCode (fun _ => true) responses n response →
      Expects responses n (some response)
  /-- Where nothing is declared under a code, success is expected. -/
  | none : (∀ f ∈ responses, ∀ n, ¬ StatusCode f.1 n) → Json.lookup responses "default" = none →
      Expects responses 200 none

/-- The status of an expectation, with the response that is picked for it. -/
def expectedOf (picked : Option (UInt16 × Json)) : UInt16 × Option Json :=
  picked.elim (200, none) fun c => (c.1, some c.2)

theorem pickResponse?_eq (responses : List (String × Json)) :
    pickResponse? responses =
      match leastCode? (codesOf isSuccess responses) with
      | some c => some c
      | none =>
        match Json.lookup responses "default" with
        | some v => some (200, v)
        | none => leastCode? (codesOf (fun _ => true) responses) := by
  have hall : codesOf (fun _ => true) responses = responses.filterMap codeOf? := List.filter_eq_self.2 fun _ _ => rfl
  rw [hall]
  rfl

/-- The picked response is the one that is expected. -/
theorem expects_iff {responses : List (String × Json)} {n : UInt16} {response : Option Json} :
    Expects responses n response ↔ expectedOf (pickResponse? responses) = (n, response) := by
  rw [pickResponse?_eq]
  constructor
  · intro h
    cases h with
    | success hleast => rw [leastCode?_codesOf_eq_some_iff.2 hleast]; rfl
    | default hno hdefault => rw [leastCode?_codesOf_eq_none_iff.2 hno, hdefault]; rfl
    | other hno hdefault hleast =>
      rw [leastCode?_codesOf_eq_none_iff.2 hno, hdefault]
      dsimp only
      rw [leastCode?_codesOf_eq_some_iff.2 hleast]
      rfl
    | none hno hdefault =>
      rw [leastCode?_codesOf_eq_none_iff.2 fun f hf n hn => absurd hn (hno f hf n), hdefault]
      dsimp only
      rw [leastCode?_codesOf_eq_none_iff.2 fun f hf n hn => absurd hn (hno f hf n)]
      rfl
  · intro h
    cases hsuccess : leastCode? (codesOf isSuccess responses) with
    | some c =>
      rw [hsuccess] at h
      cases h
      exact .success (leastCode?_codesOf_eq_some_iff.1 hsuccess)
    | none =>
      have hno := leastCode?_codesOf_eq_none_iff.1 hsuccess
      rw [hsuccess] at h
      dsimp only at h
      cases hdefault : Json.lookup responses "default" with
      | some v =>
        rw [hdefault] at h
        cases h
        exact .default hno hdefault
      | none =>
        rw [hdefault] at h
        dsimp only at h
        cases hleast : leastCode? (codesOf (fun _ => true) responses) with
        | some c =>
          rw [hleast] at h
          cases h
          exact .other hno hdefault (leastCode?_codesOf_eq_some_iff.1 hleast)
        | none =>
          rw [hleast] at h
          cases h
          refine .none ?_ hdefault
          intro f hf n hn
          exact leastCode?_codesOf_eq_none_iff.1 hleast f hf n hn rfl

example : pickResponse? [("404", .null), ("+204", .bool true), ("default", .null), ("0204", .bool false),
    ("2XX", .null)] = some (204, .bool true) := by decide +kernel

end Covenant.OpenApi
