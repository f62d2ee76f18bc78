import Covenant.Collection

/-!
# Why a contract is not loaded

Random choices decide what a contract contains, but not whether it can be loaded.

* `Loading.FailsAs`: a computation fails for one reason whatever is drawn, or never;
* `Loading.Steady`: it is of this kind, one rule for each form of computation;
* `Contract.steady_ofText`: reading a contract is;
* `Disk.Parses`, `Disk.FailsWith`: what becomes of a file, and `Disk.parses_or_failsWith`: one of them holds,
  for every source of random choices.
-/

namespace Covenant

namespace Loading

section

variable {α β : Type} {r r' : Option ContractError}

/-- Whatever is drawn, a computation fails for this reason, or it does not fail. -/
def FailsAs (r : Option ContractError) (x : Loading α) : Prop :=
  ∀ s, (match x s with | .ok _ => none | .error e => some e) = r

/-- Whether and why a computation fails does not depend on what is drawn. -/
def Steady (x : Loading α) : Prop := ∃ r, FailsAs r x

theorem failsAs_pure (a : α) : FailsAs none (pure a) := fun _ => rfl

theorem steady_pure (a : α) : Steady (pure a) := ⟨none, failsAs_pure a⟩

theorem steady_fail (e : ContractError) : Steady (fail e : Loading α) := ⟨some e, fun _ => rfl⟩

/-- The first failure counts, provided that the value that is passed on decides nothing. -/
theorem FailsAs.bind {x : Loading α} {f : α → Loading β} (hx : FailsAs r x) (hf : ∀ a, FailsAs r' (f a)) :
    FailsAs (r.or r') (x >>= f) := by
  intro s
  rw [← hx s]
  show (match (x s >>= fun p => f p.1 p.2) with | .ok _ => none | .error e => some e) = _
  cases x s with
  | error e => rfl
  | ok p => exact hf p.1 p.2

theorem FailsAs.map {x : Loading α} (hx : FailsAs r x) (f : α → β) : FailsAs r (x >>= fun a => pure (f a)) := by
  have hbind := hx.bind fun a => failsAs_pure (f a)
  rwa [Option.or_none] at hbind

theorem Steady.map {x : Loading α} (hx : Steady x) (f : α → β) : Steady (x >>= fun a => pure (f a)) := by
  obtain ⟨r, hr⟩ := hx
  exact ⟨r, hr.map f⟩

/-- Two computations one after the other, neither of which looks at the other. -/
theorem Steady.pair {γ : Type} {x : Loading α} {y : Loading β} (hx : Steady x) (hy : Steady y)
    (f : α → β → γ) : Steady (x >>= fun a => y >>= fun b => pure (f a b)) := by
  obtain ⟨r, hr⟩ := hx
  obtain ⟨r', hr'⟩ := hy
  exact ⟨_, hr.bind fun a => hr'.map (f a)⟩

/-- What is computed without random choices may decide how to go on. -/
theorem steady_ofExcept_bind {x : Except ContractError α} {f : α → Loading β} (hf : ∀ a, Steady (f a)) :
    Steady (ofExcept x >>= f) := by
  cases x with
  | error e => exact ⟨some e, fun _ => rfl⟩
  | ok a => exact hf a

end

end Loading

open Loading

namespace Contract

variable (name path : String) (role : Role)

theorem steady_valueOf (v : Yaml) : Steady (valueOf name path role v) := by
  cases hv : jsonOf name path v with
  | error e => exact ⟨some e, fun s => by rw [valueOf, hv]⟩
  | ok j => exact ⟨none, fun s => by rw [valueOf, hv]⟩

theorem steady_optionalValue (v : Option Yaml) : Steady (optionalValue name path role v) := by
  cases v with
  | none => exact steady_pure none
  | some v => exact (steady_valueOf name path role v).map some

theorem steady_namedValue (entry : Yaml × Yaml) : Steady (namedValue name path role entry) := by
  rw [namedValue]
  cases nameText? entry.1 with
  | none => exact steady_fail _
  | some key => exact (steady_valueOf name path role entry.2).map (NamedValue.mk key)

theorem steady_namedEntries (entries : List (Yaml × Yaml)) : Steady (namedEntries name path role entries) := by
  induction entries with
  | nil => exact steady_pure []
  | cons e es ih => exact (steady_namedValue name path role e).pair ih List.cons

theorem steady_namedItems (i : Nat) (items : List Yaml) : Steady (namedItems name path role i items) := by
  induction items generalizing i with
  | nil => exact steady_pure []
  | cons item items ih =>
    rw [namedItems.eq_def]
    dsimp only
    split
    · exact (steady_namedValue name _ role _).pair (ih (i + 1)) List.cons
    · exact (steady_fail _).pair (ih (i + 1)) List.cons

theorem steady_namedValues (v : Option Yaml) : Steady (namedValues name path role v) := by
  rw [namedValues.eq_def]
  split
  · exact steady_pure none
  · exact (steady_namedEntries name path role _).map some
  · exact (steady_namedItems name path role 0 _).map some
  · exact steady_fail _

theorem steady_requestOf (v : Yaml) : Steady (requestOf name v) := by
  refine steady_ofExcept_bind fun path => steady_ofExcept_bind fun method => ?_
  obtain ⟨r, hheaders⟩ := steady_namedValues name "contract.request.headers" .request (optional? v "headers")
  obtain ⟨r', hparams⟩ := steady_namedValues name "contract.request.params" .request (optional? v "params")
  obtain ⟨r'', hbody⟩ := steady_optionalValue name "contract.request.body" .request (optional? v "body")
  exact ⟨_, hheaders.bind fun headers => hparams.bind fun params =>
    hbody.map (Request.mk path method headers params)⟩

theorem steady_expectationOf (v : Yaml) : Steady (expectationOf name v) := by
  refine steady_ofExcept_bind fun status => ?_
  exact (steady_namedValues name "contract.response.headers" .response (optional? v "headers")).pair
    (steady_optionalValue name "contract.response.body" .response (optional? v "body")) (Expectation.mk status)

theorem steady_ofDocument (doc : Yaml) : Steady (ofDocument name doc) := by
  refine steady_ofExcept_bind fun contract => ?_
  refine steady_ofExcept_bind fun request => steady_ofExcept_bind fun response => ?_
  exact (steady_requestOf name request).pair (steady_expectationOf name response) (Contract.mk name)

theorem steady_ofText (text : String) : Steady (ofText name text) := by
  rw [ofText]
  cases Yaml.read? text with
  | none => exact steady_fail _
  | some doc => exact steady_ofDocument name doc

end Contract

/-! ## Files -/

namespace Disk

/-- A file holds a contract, whatever is drawn. -/
def Parses (d : Disk) (root path : String) : Prop :=
  ∀ s, ∃ c, (Entry.ofFile d root path s).1.contract = .ok c

/-- A file cannot be read, or holds no contract, for one reason whatever is drawn. Nothing is drawn for it. -/
def FailsWith (d : Disk) (root path : String) (e : ContractError) : Prop :=
  ∀ s, Entry.ofFile d root path s = (⟨Path.contractName root path, path, .error e⟩, s)

theorem parses_or_failsWith (d : Disk) (root path : String) :
    d.Parses root path ∨ ∃ e, d.FailsWith root path e := by
  cases hread : d.readText path with
  | error fault => exact .inr ⟨.file fault, fun s => by rw [Entry.ofFile, hread]⟩
  | ok text =>
    obtain ⟨r, hr⟩ := Contract.steady_ofText (Path.contractName root path) text
    cases r with
    | none =>
      refine .inl fun s => ?_
      have hs := hr s
      rw [Entry.ofFile, hread]
      dsimp only
      cases htext : Contract.ofText (Path.contractName root path) text s with
      | error e =>
        rw [htext] at hs
        cases hs
      | ok p => exact ⟨p.1, rfl⟩
    | some e =>
      refine .inr ⟨e, fun s => ?_⟩
      have hs := hr s
      rw [Entry.ofFile, hread]
      dsimp only
      cases htext : Contract.ofText (Path.contractName root path) text s with
      | error e' =>
        rw [htext] at hs
        cases hs
        rfl
      | ok p =>
        rw [htext] at hs
        cases hs

theorem not_parses_of_failsWith {d : Disk} {root path : String} {e : ContractError}
    (h : d.FailsWith root path e) : ¬ d.Parses root path := by
  intro hparses
  obtain ⟨c, hc⟩ := hparses .least
  rw [h .least] at hc
  cases hc

end Disk

end Covenant
