import Covenant.Command.Generate
import Covenant.Proofs.Numerals
import Mathlib.Computability.StateTransition
import Mathlib.Data.List.Nodup

/-!
# Fresh names

* `IsFresh`, `isFresh_freshName`: a fresh name is the wanted one or the one with the least number that is not
  taken, if different numbers give names of different keys;
* `NamesInTurn`, `NamesInTurn.keys`: names given one after the other have different keys;
* `NameLoop`, `NamesInTurn.exists_mem_eval`: the loop that tries one candidate after the other ends and gives them;
* `nodup_fileStems`: no two file names agree, the case of letters aside;
* `fileStems_bare`: the file names that consist of dots alone, or of nothing, are those of contracts
  with these names.
-/

namespace Covenant

open Covenant.Text StateTransition

/-! ## Numbered names -/

theorem toList_numberedName (base : String) (n : Nat) :
    (numberedName base n).toList = base.toList ++ '_' :: Decimal.digits n := by
  simp [numberedName, Decimal.ofNat]

theorem numberedName_injective {base : String} {m n : Nat} (h : numberedName base m = numberedName base n) :
    m = n := by
  have hlist := congrArg String.toList h
  rw [toList_numberedName, toList_numberedName] at hlist
  exact Decimal.digits_injective (List.cons.inj (List.append_cancel_left hlist)).2

/-- A digit has no other case. -/
theorem lowerAscii_digit {c : Char} {n : Nat} (h : c ∈ Decimal.digits n) : lowerAscii c = c := by
  have hdigit := Decimal.isDigit_of_mem_digits h
  rw [lowerAscii, if_neg]
  intro hupper
  have hle : c ≤ '9' := by
    simp only [Char.isDigit, Bool.and_eq_true, decide_eq_true_eq] at hdigit
    exact hdigit.2
  exact absurd (Char.le_trans hupper.1 hle) (by decide)

theorem toList_lowerText_numberedName (base : String) (n : Nat) :
    (lowerText (numberedName base n)).toList = base.toList.map lowerAscii ++ '_' :: Decimal.digits n := by
  have hdigits : (Decimal.digits n).map lowerAscii = Decimal.digits n :=
    (List.map_congr_left fun _ h => lowerAscii_digit h).trans (List.map_id _)
  rw [lowerText, String.toList_ofList, toList_numberedName, List.map_append, List.map_cons, hdigits]
  rfl

theorem lowerText_numberedName_injective {base : String} {m n : Nat}
    (h : lowerText (numberedName base m) = lowerText (numberedName base n)) : m = n := by
  have hlist := congrArg String.toList h
  rw [toList_lowerText_numberedName, toList_lowerText_numberedName] at hlist
  exact Decimal.digits_injective (List.cons.inj (List.append_cancel_left hlist)).2

/-! ## Fresh names -/

/-- A name that is fresh: the wanted one if its key is not taken, or else the one with the least number from two on
whose key is not. -/
inductive IsFresh (key : String → String) (taken : List String) (base : String) : String → Prop
  | wanted : key base ∉ taken → IsFresh key taken base base
  | numbered {n : Nat} : key base ∈ taken → 2 ≤ n → key (numberedName base n) ∉ taken →
      (∀ m, 2 ≤ m → m < n → key (numberedName base m) ∈ taken) → IsFresh key taken base (numberedName base n)

theorem IsFresh.not_mem {key : String → String} {taken : List String} {base s : String}
    (h : IsFresh key taken base s) : key s ∉ taken := by
  cases h with
  | wanted hfree => exact hfree
  | numbered _ _ hfree _ => exact hfree

/-- Only which keys are taken matters. -/
theorem IsFresh.congr {key : String → String} {taken taken' : List String} {base s : String}
    (h : IsFresh key taken base s) (htaken : ∀ k, k ∈ taken ↔ k ∈ taken') : IsFresh key taken' base s := by
  cases h with
  | wanted hfree => exact .wanted ((htaken _).not.1 hfree)
  | numbered hbase hn hfree hbefore =>
    exact .numbered ((htaken _).1 hbase) hn ((htaken _).not.1 hfree) fun m hm hlt => (htaken _).1 (hbefore m hm hlt)

/-- Of more names than are taken one is free. -/
theorem exists_free {key : String → String} {base : String}
    (hkey : ∀ m n, key (numberedName base m) = key (numberedName base n) → m = n) (taken : List String) :
    ∃ s ∈ (List.range (taken.length + 1)).map (fun i => numberedName base (i + 2)), key s ∉ taken := by
  by_contra hno
  have hsub : (List.range (taken.length + 1)).map (fun i => key (numberedName base (i + 2))) ⊆ taken := by
    intro k hk
    obtain ⟨i, hi, rfl⟩ := List.mem_map.1 hk
    by_contra hfree
    exact hno ⟨_, List.mem_map.2 ⟨i, hi, rfl⟩, hfree⟩
  have hnodup : ((List.range (taken.length + 1)).map fun i => key (numberedName base (i + 2))).Nodup := by
    refine List.nodup_range.map fun m n heq => ?_
    have := hkey _ _ heq
    omega
  have hlength := hnodup.length_le_of_subset hsub
  rw [List.length_map, List.length_range] at hlength
  omega

theorem isFresh_freshName {key : String → String} (base : String)
    (hkey : ∀ m n, key (numberedName base m) = key (numberedName base n) → m = n) (taken : List String) :
    IsFresh key taken base (freshName key taken base) := by
  rw [freshName]
  by_cases htaken : key base ∈ taken
  · obtain ⟨s, hs, hfree⟩ := exists_free hkey taken
    rw [if_pos (by simpa using htaken)]
    dsimp only
    cases hfind : ((List.range (taken.length + 1)).map fun i => numberedName base (i + 2)).find?
        fun s => !taken.contains (key s) with
    | none => exact absurd (by simpa using hfree) (List.find?_eq_none.1 hfind s hs)
    | some t =>
      rw [Option.getD_some]
      rw [List.find?_map] at hfind
      obtain ⟨i, hi, rfl⟩ := Option.map_eq_some_iff.1 hfind
      obtain ⟨hfree, -, hbefore⟩ := List.find?_range_eq_some.1 hi
      refine .numbered htaken (Nat.le_add_left 2 i) (by simpa using hfree) ?_
      intro m hm hlt
      have hmem := hbefore (m - 2) (by omega)
      rw [Function.comp_apply, show m - 2 + 2 = m by omega] at hmem
      simpa using hmem
  · rw [if_neg (by simpa using htaken)]
    exact .wanted htaken

/-! ## Names one after the other -/

/-- Names that are given one after the other, each of them fresh beside those before it and those taken already. -/
inductive NamesInTurn (key : String → String) : List String → List String → List String → Prop
  | nil {taken : List String} : NamesInTurn key taken [] []
  | cons {taken bases names : List String} {base s : String} : IsFresh key taken base s →
      NamesInTurn key (key s :: taken) bases names → NamesInTurn key taken (base :: bases) (s :: names)

namespace NamesInTurn

variable {key : String → String} {taken bases names : List String}

theorem length_eq (h : NamesInTurn key taken bases names) : names.length = bases.length := by
  induction h with
  | nil => rfl
  | cons _ _ ih => rw [List.length_cons, List.length_cons, ih]

/-- Only which keys are taken matters, not in which order. -/
theorem congr {taken' : List String} (h : NamesInTurn key taken bases names) (htaken : ∀ k, k ∈ taken ↔ k ∈ taken') :
    NamesInTurn key taken' bases names := by
  induction h generalizing taken' with
  | nil => exact .nil
  | cons hfresh _ ih =>
    refine .cons (hfresh.congr htaken) (ih ?_)
    intro k
    rw [List.mem_cons, List.mem_cons, htaken]

/-- More names are given behind names. -/
theorem append {more moreNames : List String} (h : NamesInTurn key taken bases names)
    (hmore : NamesInTurn key (taken ++ names.map key) more moreNames) :
    NamesInTurn key taken (bases ++ more) (names ++ moreNames) := by
  induction h with
  | nil =>
    rw [List.map_nil, List.append_nil] at hmore
    exact hmore
  | cons hfresh _ ih =>
    refine .cons hfresh (ih (hmore.congr ?_))
    intro k
    rw [List.map_cons, List.mem_append, List.mem_append, List.mem_cons, List.mem_cons, or_left_comm, or_assoc]

/-- No two names have one key, and none has one that is taken. -/
theorem keys (h : NamesInTurn key taken bases names) :
    (names.map key).Nodup ∧ ∀ s ∈ names, key s ∉ taken := by
  induction h with
  | nil => exact ⟨List.nodup_nil, nofun⟩
  | @cons taken bases names base s hfresh _ ih =>
    obtain ⟨hnodup, hfree⟩ := ih
    refine ⟨?_, List.forall_mem_cons.2 ⟨hfresh.not_mem, ?_⟩⟩
    · rw [List.map_cons, List.nodup_cons]
      refine ⟨?_, hnodup⟩
      intro hmem
      obtain ⟨t, ht, heq⟩ := List.mem_map.1 hmem
      exact hfree t ht (heq ▸ List.mem_cons_self)
    · intro t ht htaken
      exact hfree t ht (List.mem_cons_of_mem _ htaken)

/-- Each name is fresh for a wanted one. -/
theorem exists_isFresh (h : NamesInTurn key taken bases names) {s : String} (hs : s ∈ names) :
    ∃ base ∈ bases, ∃ taken', IsFresh key taken' base s := by
  induction h with
  | nil => cases hs
  | @cons taken bases names base t hfresh _ ih =>
    rcases List.mem_cons.1 hs with rfl | hs
    · exact ⟨base, List.mem_cons_self, taken, hfresh⟩
    · obtain ⟨b, hb, hother⟩ := ih hs
      exact ⟨b, List.mem_cons_of_mem _ hb, hother⟩

end NamesInTurn

/-! ## The loop -/

/-- A moment of the loop that gives the names: the keys that are taken, the names that are given, what still wants a
name, the candidate for the first of these and the number of the candidate after it. -/
structure NameLoop where
  taken : List String
  given : List String
  wanted : List String
  candidate : String
  number : Nat

namespace NameLoop

/-- The moment before the first candidate is tried. -/
def start (taken given wanted : List String) : NameLoop := ⟨taken, given, wanted, wanted.headD "", 2⟩

/-- One candidate is tried: it is given if its key is free, and otherwise the next number is taken up. -/
def next (key : String → String) (m : NameLoop) : Option NameLoop :=
  match m.wanted with
  | [] => none
  | base :: wanted =>
    if key m.candidate ∈ m.taken then
      some { m with candidate := numberedName base m.number, number := m.number + 1 }
    else some (start (key m.candidate :: m.taken) (m.given ++ [m.candidate]) wanted)

variable {key : String → String} {taken given wanted : List String} {base candidate : String} {n : Nat}

theorem next_of_mem (h : key candidate ∈ taken) :
    next key ⟨taken, given, base :: wanted, candidate, n⟩ =
      some ⟨taken, given, base :: wanted, numberedName base n, n + 1⟩ :=
  if_pos h

theorem next_of_not_mem (h : key candidate ∉ taken) :
    next key ⟨taken, given, base :: wanted, candidate, n⟩ =
      some (start (key candidate :: taken) (given ++ [candidate]) wanted) :=
  if_neg h

theorem reaches_numberedName (hn : 2 ≤ n) (hbase : key base ∈ taken)
    (h : ∀ m, 2 ≤ m → m < n → key (numberedName base m) ∈ taken) :
    Reaches (next key) (start taken given (base :: wanted))
      ⟨taken, given, base :: wanted, numberedName base n, n + 1⟩ := by
  induction n, hn using Nat.le_induction with
  | base => exact .single (next_of_mem hbase)
  | succ n hn ih =>
    refine .tail (ih fun m hm hlt => h m hm (by omega)) ?_
    exact next_of_mem (h n hn (by omega))

end NameLoop

open NameLoop

section Loop

variable {key : String → String} {taken bases names : List String} {base s : String}

/-- A fresh name is found, one candidate after the other. -/
theorem IsFresh.reaches (h : IsFresh key taken base s) (given wanted : List String) :
    Reaches (next key) (start taken given (base :: wanted)) (start (key s :: taken) (given ++ [s]) wanted) := by
  cases h with
  | wanted hfree => exact .single (next_of_not_mem hfree)
  | numbered hbase hn hfree hbefore => exact .tail (reaches_numberedName hn hbase hbefore) (next_of_not_mem hfree)

theorem NamesInTurn.reaches (h : NamesInTurn key taken bases names) (given : List String) :
    ∃ taken', Reaches (next key) (start taken given bases) (start taken' (given ++ names) []) := by
  induction h generalizing given with
  | @nil taken =>
    rw [List.append_nil]
    exact ⟨taken, .refl⟩
  | @cons taken bases names base s hfresh _ ih =>
    obtain ⟨taken', hrest⟩ := ih (given ++ [s])
    rw [List.append_assoc, List.singleton_append] at hrest
    exact ⟨taken', (hfresh.reaches given bases).trans hrest⟩

/-- The loop ends, and gives the names. -/
theorem NamesInTurn.exists_mem_eval (h : NamesInTurn key taken bases names) :
    ∃ m ∈ eval (next key) (start taken [] bases), m.given = names := by
  obtain ⟨taken', hreaches⟩ := h.reaches []
  exact ⟨_, mem_eval.2 ⟨hreaches, rfl⟩, rfl⟩

end Loop

/-! ## File names -/

/-- File names are given one after the other, and told apart without the case of letters. -/
theorem namesInTurn_fileStems (taken names : List String) :
    NamesInTurn lowerText taken (names.map fileStem) (fileStems taken names) := by
  induction names generalizing taken with
  | nil => exact .nil
  | cons name names ih =>
    exact .cons (isFresh_freshName _ (fun _ _ => lowerText_numberedName_injective) taken) (ih _)

@[simp] theorem length_fileStems (taken names : List String) :
    (fileStems taken names).length = names.length := by
  rw [(namesInTurn_fileStems taken names).length_eq, List.length_map]

theorem nodup_fileStems (names : List String) : (fileStems [] names).Nodup :=
  (namesInTurn_fileStems [] names).keys.1.of_map _

theorem isPortable_fileStem {name : String} {c : Char} (h : c ∈ (fileStem name).toList) :
    isPortable c = true := by
  rw [fileStem, String.toList_ofList] at h
  obtain ⟨d, -, rfl⟩ := List.mem_map.1 h
  split
  · assumption
  · rfl

theorem isPortable_numberedName {base : String} (hbase : ∀ c ∈ base.toList, isPortable c = true) (n : Nat) :
    ∀ c ∈ (numberedName base n).toList, isPortable c = true := by
  intro c hc
  rw [toList_numberedName] at hc
  rcases List.mem_append.1 hc with hc | hc
  · exact hbase c hc
  · rcases List.mem_cons.1 hc with rfl | hc
    · rfl
    · have hdigit : c.isDigit = true := Decimal.isDigit_of_mem_digits hc
      simp only [Char.isDigit, Bool.and_eq_true, decide_eq_true_eq] at hdigit
      simp only [isPortable, isAlphanumeric, Bool.or_eq_true, Bool.and_eq_true, decide_eq_true_eq]
      exact .inl (.inl (.inl (.inr hdigit)))

/-- File names consist of portable characters. -/
theorem isPortable_of_mem_fileStems {taken names : List String} {stem : String}
    (h : stem ∈ fileStems taken names) : ∀ c ∈ stem.toList, isPortable c = true := by
  obtain ⟨base, hbase, taken', hfresh⟩ := (namesInTurn_fileStems taken names).exists_isFresh h
  obtain ⟨name, -, rfl⟩ := List.mem_map.1 hbase
  have hportable : ∀ c ∈ (fileStem name).toList, isPortable c = true := fun c => isPortable_fileStem
  cases hfresh with
  | wanted => exact hportable
  | numbered => exact isPortable_numberedName hportable _

/-! ## Names of dots -/

/-- A text of dots alone, such as the empty one. -/
def Bare (t : String) : Prop := ∀ c ∈ t.toList, c = '.'

instance (t : String) : Decidable (Bare t) := List.decidableBAll (· = '.') t.toList

/-- A mapping of characters that only a dot takes to a dot gives a text of dots of itself alone. -/
theorem map_eq_dots_iff {f : Char → Char} (hdot : f '.' = '.') (honly : ∀ c, f c = '.' → c = '.')
    {cs ts : List Char} (hts : ∀ c ∈ ts, c = '.') : cs.map f = ts ↔ cs = ts := by
  constructor
  · intro h
    have hcs : ∀ c ∈ cs, c = '.' := fun c hc => honly c (hts _ (h ▸ List.mem_map_of_mem hc))
    have hself : cs.map f = cs.map id := List.map_congr_left fun c hc => by rw [hcs c hc, hdot, id]
    rw [← h, hself, List.map_id]
  · rintro rfl
    have hself : cs.map f = cs.map id := List.map_congr_left fun c hc => by rw [hts c hc, hdot, id]
    rw [hself, List.map_id]

theorem fileStem_eq_bare_iff {name t : String} (ht : Bare t) : fileStem name = t ↔ name = t := by
  rw [← String.toList_inj, fileStem, String.toList_ofList, map_eq_dots_iff rfl _ ht, String.toList_inj]
  intro c hc
  split at hc
  · exact hc
  · exact absurd hc (by decide)

theorem lowerAscii_eq_dot {c : Char} (h : lowerAscii c = '.') : c = '.' := by
  by_cases hupper : 'A' ≤ c ∧ c ≤ 'Z'
  · have hge : 65 ≤ c.toNat := hupper.1
    have hvalue := toNat_lowerAscii hupper
    rw [h, show '.'.toNat = 46 from rfl] at hvalue
    omega
  · rwa [lowerAscii, if_neg hupper] at h

theorem lowerText_eq_bare_iff {s t : String} (ht : Bare t) : lowerText s = t ↔ s = t := by
  rw [← String.toList_inj, lowerText, String.toList_ofList,
    map_eq_dots_iff rfl (fun _ => lowerAscii_eq_dot) ht, String.toList_inj]

theorem not_bare_numberedName (base : String) (n : Nat) : ¬ Bare (numberedName base n) := by
  intro h
  have hdot := h '_' (by simp [toList_numberedName])
  exact absurd hdot (by decide)

/-- A file name of dots alone is that of the contract with this name, if names are not repeated. -/
theorem fileStems_bare {taken names : List String} (hnodup : names.Nodup)
    (hfree : ∀ t ∈ names, Bare t → t ∉ taken) :
    List.Forall₂ (fun name stem => ∀ t, Bare t → (stem = t ↔ name = t)) names (fileStems taken names) := by
  induction names generalizing taken with
  | nil => exact .nil
  | cons name names ih =>
    rw [fileStems]
    have hfresh := isFresh_freshName (fileStem name) (fun _ _ => lowerText_numberedName_injective) taken
    generalize freshName lowerText taken (fileStem name) = stem at hfresh
    have hstem : ∀ t, Bare t → (stem = t ↔ name = t) := by
      intro t ht
      cases hfresh with
      | wanted => exact fileStem_eq_bare_iff ht
      | @numbered n htaken =>
        constructor
        · intro h
          exact absurd (h ▸ ht) (not_bare_numberedName (fileStem name) n)
        · rintro rfl
          rw [(fileStem_eq_bare_iff ht).2 rfl, (lowerText_eq_bare_iff ht).2 rfl] at htaken
          exact absurd htaken (hfree name List.mem_cons_self ht)
    obtain ⟨hname, hnames⟩ := List.nodup_cons.1 hnodup
    refine .cons hstem (ih hnames fun t ht hbare htaken => ?_)
    rcases List.mem_cons.1 htaken with heq | htaken
    · rw [(hstem t hbare).1 ((lowerText_eq_bare_iff hbare).1 heq.symm)] at hname
      exact hname ht
    · exact hfree t (List.mem_cons_of_mem name ht) hbare htaken

end Covenant
