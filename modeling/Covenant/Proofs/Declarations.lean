import Covenant.Contract.Reader
import Covenant.Proofs.ConvertibleYaml
import Covenant.Proofs.Judging
import Covenant.Proofs.Numerals

/-!
# Declared parts of contracts

The document of a contract has eleven parts. Each has a form, and is accepted in this form only.

* `Contract.Part`: the parts in the order of their checks, with the keys that lead to them;
* `Contract.Accepts`: what is accepted as a part, for each form that a part may have;
* `Contract.Blames`: the error for a part that is not accepted;
* `Contract.judges_namedValues` and the like: the readers of single parts accept and blame these.
-/

namespace Covenant

open Covenant.Text

open Loading

namespace Contract

/-! ## Parts -/

/-- The parts of the document of a contract. -/
inductive Part where
  | contract | request | response
  | path | method | headers | params | body
  | status | expectedHeaders | expectedBody
deriving DecidableEq

/-- The forms that the values of parts have. -/
inductive Form where
  | group | text | method | names | status | value

namespace Part

/-- The parts in the order of their checks. -/
def all : List Part :=
  [.contract, .request, .response, .path, .method, .headers, .params, .body, .status, .expectedHeaders,
    .expectedBody]

theorem mem_all (p : Part) : p ∈ all := by
  cases p <;> decide

/-- The keys that lead to a part. -/
def keys : Part → List String
  | .contract => ["contract"]
  | .request => ["contract", "request"]
  | .response => ["contract", "response"]
  | .path => ["contract", "request", "path"]
  | .method => ["contract", "request", "method"]
  | .headers => ["contract", "request", "headers"]
  | .params => ["contract", "request", "params"]
  | .body => ["contract", "request", "body"]
  | .status => ["contract", "response", "statusCode"]
  | .expectedHeaders => ["contract", "response", "headers"]
  | .expectedBody => ["contract", "response", "body"]

/-- The form of a part. -/
def form : Part → Form
  | .contract | .request | .response => .group
  | .path => .text
  | .method => .method
  | .headers | .params | .expectedHeaders => .names
  | .status => .status
  | .body | .expectedBody => .value

/-- The place of a part, as errors name it. -/
def place (p : Part) : String := ".".intercalate p.keys

/-- The value that a document declares for a part. There is none if the part, or what it stands in, is absent or
null. -/
def declared? (doc : Yaml) (p : Part) : Option Yaml := p.keys.foldlM Contract.optional? doc

end Part

/-! ## What is accepted -/

/-- The name of a header or parameter: a string, a number or a truth value. -/
inductive IsName : Yaml → Prop
  | string (s : String) : IsName (.string s)
  | number (n : Yaml.Number) : IsName (.number n)
  | bool (b : Bool) : IsName (.bool b)

/-- A header or parameter: a name with a value that has a JSON value. -/
def IsNamed (entry : Yaml × Yaml) : Prop := IsName entry.1 ∧ entry.2.Convertible

/-- A header or parameter in a list: a mapping with this one entry. -/
inductive IsNamedItem : Yaml → Prop
  | mapping {entry : Yaml × Yaml} : IsNamed entry → IsNamedItem (.mapping [entry])

/-- What is accepted as the declared value of a part. -/
inductive Accepts : Form → Option Yaml → Prop
  | group (v : Yaml) : Accepts .group (some v)
  | text (t : String) : Accepts .text (some (.string t))
  | noMethod : Accepts .method none
  | method {t : String} {m : Method} : upperWord (trim t) = m.name → Accepts .method (some (.string t))
  | noNames : Accepts .names none
  | mapping {entries : List (Yaml × Yaml)} :
      (∀ e ∈ entries, IsNamed e) → Accepts .names (some (.mapping entries))
  | list {items : List Yaml} :
      (∀ item ∈ items, IsNamedItem item) → Accepts .names (some (.sequence items))
  | statusNumber {i : Int} (h : Json.Fits i) :
      100 ≤ i → i ≤ 599 → Accepts .status (some (.number (.integer i h)))
  | statusText {t : String} {n : Nat} :
      Decimal.UnsignedNumeral (trim t) n → 100 ≤ n → n ≤ 599 → Accepts .status (some (.string t))
  | noValue : Accepts .value none
  | value {v : Yaml} : v.Convertible → Accepts .value (some v)

theorem isNamedItem_mapping_iff {entry : Yaml × Yaml} : IsNamedItem (.mapping [entry]) ↔ IsNamed entry := by
  constructor
  · intro h
    cases h with
    | mapping h => exact h
  · intro h
    exact .mapping h

theorem accepts_value_iff {v : Yaml} : Accepts .value (some v) ↔ v.Convertible := by
  constructor
  · intro h
    cases h with
    | value h => exact h
  · intro h
    exact .value h

theorem accepts_mapping_iff {entries : List (Yaml × Yaml)} :
    Accepts .names (some (.mapping entries)) ↔ ∀ e ∈ entries, IsNamed e := by
  constructor
  · intro h
    cases h with
    | mapping h => exact h
  · intro h
    exact .mapping h

theorem accepts_list_iff {items : List Yaml} :
    Accepts .names (some (.sequence items)) ↔ ∀ x ∈ items.zipIdx, IsNamedItem x.1 := by
  constructor
  · intro h
    cases h with
    | list h => exact fun x hx => h x.1 (List.fst_mem_of_mem_zipIdx hx)
  · intro h
    refine .list fun item hitem => ?_
    obtain ⟨i, hi⟩ := List.mem_iff_getElem?.1 hitem
    exact h (item, i) (List.mem_zipIdx_iff_getElem?.2 hi)

/-! ## What is blamed -/

section

variable (name : String)

/-- The error for an entry that is no header or parameter. -/
inductive BlamesEntry (place : String) : Yaml × Yaml → ContractError → Prop
  | name {k v : Yaml} :
      ¬ IsName k → BlamesEntry place (k, v) (.invalidField name place (.nameNotScalar k.kind))
  | value {k v : Yaml} {fault : Yaml.KeyFault} :
      IsName k → v.toJson? = .error fault →
      BlamesEntry place (k, v) (.invalidField name place (.unusableKey fault))

/-- The place of an item of a list. -/
def itemPlace (place : String) (i : Nat) : String := place ++ "[" ++ Decimal.ofNat i ++ "]"

/-- The error for an item, at its index, that is no header or parameter. -/
inductive BlamesItem (place : String) : Yaml × Nat → ContractError → Prop
  | entry {e : Yaml × Yaml} {i : Nat} {err : ContractError} :
      BlamesEntry name (itemPlace place i) e err → BlamesItem place (.mapping [e], i) err
  | shape {v : Yaml} {i : Nat} :
      (∀ e, v ≠ .mapping [e]) →
      BlamesItem place (v, i) (.invalidField name (itemPlace place i) (.notSingleEntry v.kind))

/-- The error for a declared value that is not accepted. -/
inductive Blames (place : String) : Form → Option Yaml → ContractError → Prop
  | missing {form : Form} :
      form = .group ∨ form = .text ∨ form = .status → Blames place form none (.missingField name place)
  | notText {form : Form} {v : Yaml} :
      form = .text ∨ form = .method → (∀ t, v ≠ .string t) →
      Blames place form (some v) (.invalidField name place .notText)
  | unknownMethod {t : String} :
      (∀ m : Method, upperWord (trim t) ≠ m.name) →
      Blames place .method (some (.string t)) (.invalidField name place (.unknownMethod t))
  | unsupported {v : Yaml} :
      v.kind ≠ .mapping → v.kind ≠ .list →
      Blames place .names (some v) (.unsupportedDeclaration name place v.kind)
  | mapping {entries : List (Yaml × Yaml)} {e : ContractError} :
      FirstFault IsNamed (BlamesEntry name place) entries e → Blames place .names (some (.mapping entries)) e
  | list {items : List Yaml} {e : ContractError} :
      FirstFault (fun x => IsNamedItem x.1) (BlamesItem name place) items.zipIdx e →
      Blames place .names (some (.sequence items)) e
  | status {v : Yaml} : Blames place .status (some v) (.invalidField name place .statusOutOfRange)
  | value {v : Yaml} {fault : Yaml.KeyFault} :
      v.toJson? = .error fault → Blames place .value (some v) (.invalidField name place (.unusableKey fault))

end

/-! ## Values -/

section

variable (name place : String) (role : Role)

theorem judges_valueOf (v : Yaml) :
    Judges v.Convertible (fun e => ∃ fault, v.toJson? = .error fault ∧
      e = .invalidField name place (.unusableKey fault)) (valueOf name place role v) := by
  intro s
  have hiff := Yaml.exists_toJson?_iff v
  rw [valueOf, jsonOf]
  cases hv : v.toJson? with
  | ok j => exact hiff.1 ⟨j, hv⟩
  | error fault =>
    refine ⟨fun h => ?_, fault, rfl, rfl⟩
    obtain ⟨j, hj⟩ := hiff.2 h
    rw [hv] at hj
    cases hj

theorem judges_optionalValue (v : Option Yaml) :
    Judges (Accepts .value v) (Blames name place .value v) (optionalValue name place role v) := by
  cases v with
  | none => exact judges_pure .noValue
  | some v =>
    refine ((judges_valueOf name place role v).map some).imp accepts_value_iff.symm ?_
    intro e _ h
    obtain ⟨fault, hfault, rfl⟩ := h
    exact .value hfault

/-! ## Headers and parameters -/

theorem exists_nameText?_iff {k : Yaml} : (∃ t, nameText? k = some t) ↔ IsName k := by
  constructor
  · intro h
    obtain ⟨t, ht⟩ := h
    cases k with
    | string s => exact .string s
    | number n => exact .number n
    | bool b => exact .bool b
    | _ => cases ht
  · intro h
    cases h <;> exact ⟨_, rfl⟩

theorem judges_namedValue (entry : Yaml × Yaml) :
    Judges (IsNamed entry) (BlamesEntry name place entry) (namedValue name place role entry) := by
  obtain ⟨k, v⟩ := entry
  have hiff := exists_nameText?_iff (k := k)
  rw [namedValue]
  cases hk : nameText? k with
  | none =>
    have hno : ¬ IsName k := fun h => by
      obtain ⟨t, ht⟩ := hiff.2 h
      rw [hk] at ht
      cases ht
    exact judges_fail (fun h => hno h.1) (.name hno)
  | some t =>
    have hname : IsName k := hiff.1 ⟨t, hk⟩
    refine ((judges_valueOf name place role v).map (NamedValue.mk t)).imp (and_iff_right hname).symm ?_
    intro e _ h
    obtain ⟨fault, hfault, rfl⟩ := h
    exact .value hname hfault

theorem judges_namedEntries (entries : List (Yaml × Yaml)) :
    JudgesAll IsNamed (BlamesEntry name place) entries (namedEntries name place role entries) := by
  induction entries with
  | nil => exact judgesAll_nil
  | cons e es ih => exact .cons (judges_namedValue name place role e) fun v => Judges.map ih (v :: ·)

theorem judges_namedItems (i : Nat) (items : List Yaml) :
    JudgesAll (fun x => IsNamedItem x.1) (BlamesItem name place) (items.zipIdx i)
      (namedItems name place role i items) := by
  induction items generalizing i with
  | nil => exact judgesAll_nil
  | cons item items ih =>
    rw [namedItems.eq_def, List.zipIdx_cons]
    dsimp only
    -- Errors name the index, so it is part of what is checked.
    split
    · rename_i e
      refine .cons ?_ fun v => Judges.map (ih (i + 1)) (v :: ·)
      exact (judges_namedValue name (itemPlace place i) role e).imp isNamedItem_mapping_iff.symm
        fun _ _ => .entry
    · rename_i hno
      refine .cons (judges_fail (fun h => ?_) (.shape fun e h => hno e h)) fun v =>
        Judges.map (ih (i + 1)) (v :: ·)
      cases h with
      | mapping h => exact hno _ rfl

theorem judges_namedValues (v : Option Yaml) :
    Judges (Accepts .names v) (Blames name place .names v) (namedValues name place role v) := by
  rw [namedValues.eq_def]
  split
  · exact judges_pure .noNames
  · rename_i entries
    have hentries := Judges.map (judges_namedEntries name place role entries) some
    exact hentries.imp accepts_mapping_iff.symm fun _ _ => .mapping
  · rename_i items
    have hitems := Judges.map (judges_namedItems name place role 0 items) some
    exact hitems.imp accepts_list_iff.symm fun _ _ => .list
  · rename_i v hmapping hlist
    refine judges_fail (fun h => ?_) (.unsupported ?_ ?_)
    · cases h with
      | mapping => exact hmapping _ rfl
      | list => exact hlist _ rfl
    · intro hkind
      cases v with
      | mapping entries => exact hmapping entries rfl
      | _ => cases hkind
    · intro hkind
      cases v with
      | sequence items => exact hlist items rfl
      | _ => cases hkind

end

/-! ## Method, path and status -/

section

variable {name : String}

theorem judges_methodOf {v : Option Yaml} (h : ∀ x ∈ v, x.Tagless) :
    Judges (Accepts .method v) (Blames name (Part.place .method) .method v)
      (Loading.ofExcept (methodOf name v)) := by
  cases v with
  | none => exact judges_of_eq_ok rfl .noMethod
  | some v =>
    cases h v rfl with
    | string t =>
      rw [methodOf, Yaml.toText?_string]
      dsimp only
      cases ht : Method.parse? t with
      | some m => exact judges_of_eq_ok rfl (.method (Method.parse?_eq_some_iff.1 ht))
      | none =>
        have hno : ∀ m : Method, upperWord (trim t) ≠ m.name := by
          intro m heq
          rw [Method.parse?_eq_some_iff.2 heq] at ht
          cases ht
        refine judges_of_eq_error rfl (fun haccepts => ?_) (.unknownMethod hno)
        cases haccepts with
        | method heq => exact hno _ heq
    | _ => exact judges_of_eq_error rfl nofun (.notText (.inr rfl) nofun)

theorem judges_pathOf {v : Yaml} (h : v.Tagless) :
    Judges (Accepts .text (some v)) (Blames name (Part.place .path) .text (some v))
      (Loading.ofExcept (pathOf name v)) := by
  cases h with
  | string t => exact judges_of_eq_ok rfl (.text t)
  | _ => exact judges_of_eq_error rfl nofun (.notText (.inl rfl) nofun)

theorem exists_statusCode?_iff {v : Yaml} : (∃ code, statusCode? v = some code) ↔ Accepts .status (some v) := by
  constructor
  · intro h
    obtain ⟨code, hcode⟩ := h
    obtain ⟨n, hn, -⟩ := Option.map_eq_some_iff.1 hcode
    obtain ⟨hn, hrange⟩ := Option.filter_eq_some_iff.1 hn
    have hrange : 100 ≤ n ∧ n ≤ 599 := of_decide_eq_true hrange
    cases v with
    | number m =>
      cases m with
      | integer i hi =>
        dsimp only at hn
        split at hn
        · cases hn
          exact .statusNumber hi (by omega) (by omega)
        · cases hn
      | _ => cases hn
    | string t => exact .statusText (Decimal.unsigned?_eq_some_iff.1 hn).1 hrange.1 hrange.2
    | _ => cases hn
  · intro h
    cases h with
    | statusNumber hi hlow hhigh =>
      rename_i i
      have hrange : 100 ≤ i.toNat ∧ i.toNat ≤ 599 := by omega
      refine ⟨i.toNat.toUInt16, Option.map_eq_some_iff.2 ⟨i.toNat, ?_, rfl⟩⟩
      refine Option.filter_eq_some_iff.2 ⟨?_, decide_eq_true hrange⟩
      exact if_pos (by omega)
    | statusText hnumeral hlow hhigh =>
      rename_i t n
      refine ⟨n.toUInt16, Option.map_eq_some_iff.2 ⟨n, ?_, rfl⟩⟩
      refine Option.filter_eq_some_iff.2 ⟨?_, decide_eq_true ⟨hlow, hhigh⟩⟩
      exact Decimal.unsigned?_eq_some_iff.2 ⟨hnumeral, by omega⟩

theorem judges_statusOf (v : Yaml) :
    Judges (Accepts .status (some v)) (Blames name (Part.place .status) .status (some v))
      (Loading.ofExcept (statusOf name v)) := by
  have hiff := exists_statusCode?_iff (v := v)
  rw [statusOf]
  cases hv : statusCode? v with
  | some code => exact judges_of_eq_ok rfl (hiff.1 ⟨code, hv⟩)
  | none =>
    refine judges_of_eq_error rfl (fun haccepts => ?_) .status
    obtain ⟨code, hcode⟩ := hiff.2 haccepts
    rw [hv] at hcode
    cases hcode

end

end Contract

end Covenant
