import Covenant.OpenApi.Contracts
import Mathlib.Data.List.DropRight
import Mathlib.Data.List.TakeWhile

/-!
# Names of operations

* `OpenApi.Sanitized`, `OpenApi.sanitized_pathName`: the name of a path, without what is no letter or digit at its
  ends;
* `OpenApi.WantsName`, `OpenApi.wantsName_name`: the name that an operation wants;
* `OpenApi.methodKeys`, `OpenApi.forall₂_operations`: the keys of a path item that are operations, with the method
  of each.
-/

namespace Covenant.OpenApi

open Text

/-! ## Names of paths -/

/-- A letter or digit, and an underscore for any other character. -/
def markOf (c : Char) : Char := if isAlphanumeric c then c else '_'

/-- The name of a path: from the first of its letters and digits to the last, with underscores for everything else
between them, or a word of its own for a path without any. -/
inductive Sanitized (path : String) : String → Prop
  | root : (∀ c ∈ path.toList, ¬ isAlphanumeric c) → Sanitized path "root"
  | trimmed {front middle back : List Char} : path.toList = front ++ middle ++ back → middle ≠ [] →
      (∀ c ∈ front, ¬ isAlphanumeric c) → (∀ c ∈ back, ¬ isAlphanumeric c) →
      (∀ c ∈ middle.head?, isAlphanumeric c) → (∀ c ∈ middle.getLast?, isAlphanumeric c) →
      Sanitized path (String.ofList (middle.map markOf))

/-- What is left of a list without the items of a kind at both ends. -/
def trimmedBy (p : Char → Bool) (cs : List Char) : List Char := (cs.dropWhile p).rdropWhile p

theorem not_of_mem_head?_dropWhile {p : Char → Bool} {cs : List Char} {c : Char}
    (h : c ∈ (cs.dropWhile p).head?) : ¬ p c := by
  have hnot := List.head?_dropWhile_not p cs
  rw [h] at hnot
  exact ne_true_of_eq_false hnot

theorem exists_trimmedBy (p : Char → Bool) (cs : List Char) :
    ∃ front back, cs = front ++ trimmedBy p cs ++ back ∧ (∀ c ∈ front, p c) ∧ (∀ c ∈ back, p c) ∧
      (∀ c ∈ (trimmedBy p cs).head?, ¬ p c) ∧ ∀ c ∈ (trimmedBy p cs).getLast?, ¬ p c := by
  have hsplit : trimmedBy p cs ++ (cs.dropWhile p).rtakeWhile p = cs.dropWhile p :=
    List.rdropWhile_append_rtakeWhile
  refine ⟨cs.takeWhile p, (cs.dropWhile p).rtakeWhile p, ?_, ?_, ?_, ?_, ?_⟩
  · rw [List.append_assoc, hsplit, List.takeWhile_append_dropWhile]
  · exact fun c hc => List.mem_takeWhile_imp hc
  · intro c hc
    rw [List.rtakeWhile, List.mem_reverse] at hc
    exact List.mem_takeWhile_imp hc
  · intro c hc
    have hhead : (cs.dropWhile p).head? = some c := by rw [← hsplit, List.head?_append, hc, Option.some_or]
    exact not_of_mem_head?_dropWhile hhead
  · intro c hc
    rw [trimmedBy, List.rdropWhile, List.getLast?_reverse] at hc
    exact not_of_mem_head?_dropWhile hc

theorem markOf_eq_underscore (c : Char) : (markOf c == '_') = !isAlphanumeric c := by
  rw [markOf]
  by_cases hc : isAlphanumeric c = true
  · rw [if_pos hc, hc]
    refine beq_false_of_ne ?_
    rintro rfl
    exact absurd hc (by decide)
  · rw [if_neg hc, eq_false_of_ne_true hc]
    rfl

/-- The underscores are taken away where no letter or digit is. -/
theorem dropWhile_markOf (cs : List Char) :
    (cs.map markOf).dropWhile (· == '_') = (cs.dropWhile fun c => !isAlphanumeric c).map markOf := by
  rw [List.dropWhile_map]
  congr 2
  funext c
  exact markOf_eq_underscore c

theorem pathName_eq (path : String) :
    pathName path =
      if trimmedBy (fun c => !isAlphanumeric c) path.toList = [] then "root"
      else String.ofList ((trimmedBy (fun c => !isAlphanumeric c) path.toList).map markOf) := by
  have htrimmed : (((path.toList.map markOf).dropWhile (· == '_')).reverse.dropWhile (· == '_')).reverse =
      (trimmedBy (fun c => !isAlphanumeric c) path.toList).map markOf := by
    rw [dropWhile_markOf, ← List.map_reverse, dropWhile_markOf, ← List.map_reverse]
    rfl
  show (if (((path.toList.map markOf).dropWhile (· == '_')).reverse.dropWhile (· == '_')).reverse.isEmpty then "root"
    else String.ofList (((path.toList.map markOf).dropWhile (· == '_')).reverse.dropWhile (· == '_')).reverse) = _
  rw [htrimmed, List.isEmpty_map]
  simp only [List.isEmpty_iff]

theorem sanitized_pathName (path : String) : Sanitized path (pathName path) := by
  obtain ⟨front, back, hsplit, hfront, hback, hhead, hlast⟩ :=
    exists_trimmedBy (fun c => !isAlphanumeric c) path.toList
  rw [pathName_eq]
  generalize trimmedBy (fun c => !isAlphanumeric c) path.toList = middle at *
  by_cases hempty : middle = []
  · rw [if_pos hempty]
    refine .root ?_
    intro c hc
    rw [hsplit, hempty, List.append_nil] at hc
    rcases List.mem_append.1 hc with hc | hc
    · simpa using hfront c hc
    · simpa using hback c hc
  · rw [if_neg hempty]
    refine .trimmed hsplit hempty ?_ ?_ ?_ ?_
    · exact fun c hc => by simpa using hfront c hc
    · exact fun c hc => by simpa using hback c hc
    · exact fun c hc => by simpa using hhead c hc
    · exact fun c hc => by simpa using hlast c hc

/-! ## Names of operations -/

/-- The name that an operation wants: its identifier, or its method and the name of the path. -/
inductive WantsName (key : String) (declaration : Json) (path : String) : String → Prop
  | identified {id : String} : declaration.get? "operationId" = some (.string id) →
      WantsName key declaration path id
  | described {name : String} : (∀ id, declaration.get? "operationId" ≠ some (.string id)) →
      Sanitized path name → WantsName key declaration path (key ++ "_" ++ name)

theorem wantsName_name (o : Operation) (path : String) :
    WantsName o.methodName o.declaration path (o.name path) := by
  rw [Operation.name]
  cases hid : (o.declaration.get? "operationId").bind Json.toText? with
  | some id =>
    obtain ⟨v, hv, htext⟩ := Option.bind_eq_some_iff.1 hid
    cases v with
    | string s =>
      cases htext
      exact .identified hv
    | _ => cases htext
  | none =>
    refine .described ?_ (sanitized_pathName path)
    intro id h
    rw [h] at hid
    cases hid

/-! ## Operations of a path item -/

/-- The keys of a path item that are operations. -/
def methodKeys : List String := ["get", "put", "post", "delete", "options", "head", "patch", "trace"]

/-- The fields of a path item that are operations, in their order. -/
def operationFields (item : Json) : List (String × Json) :=
  (item.toFields?.getD []).filter fun f => f.1 ∈ methodKeys

theorem find?_methods_of_mem {key : String} (h : key ∈ methodKeys) :
    ∃ m, methods.find? (fun m => m.1 == key) = some (key, m) ∧ Method.parse? key = some m := by
  simp only [methodKeys, List.mem_cons, List.not_mem_nil, or_false] at h
  rcases h with rfl | rfl | rfl | rfl | rfl | rfl | rfl | rfl
  · exact ⟨.get, by decide, by decide⟩
  · exact ⟨.put, by decide, by decide⟩
  · exact ⟨.post, by decide, by decide⟩
  · exact ⟨.delete, by decide, by decide⟩
  · exact ⟨.options, by decide, by decide⟩
  · exact ⟨.head, by decide, by decide⟩
  · exact ⟨.patch, by decide, by decide⟩
  · exact ⟨.trace, by decide, by decide⟩

theorem find?_methods_of_not_mem {key : String} (h : key ∉ methodKeys) :
    methods.find? (fun m => m.1 == key) = none := by
  rw [List.find?_eq_none]
  intro m hm heq
  have hkey : m.1 = key := beq_iff_eq.1 heq
  have hmem : m.1 ∈ methods.map Prod.fst := List.mem_map_of_mem hm
  rw [hkey] at hmem
  exact h hmem

/-- An operation is the one of a field. -/
structure OperationOf (f : String × Json) (o : Operation) : Prop where
  key : o.methodName = f.1
  declaration : o.declaration = f.2
  method : Method.parse? f.1 = some o.method

theorem forall₂_operations (item : Json) : List.Forall₂ OperationOf (operationFields item) (operations item) := by
  rw [operationFields, operations]
  induction item.toFields?.getD [] with
  | nil => exact .nil
  | cons f fields ih =>
    obtain ⟨key, declaration⟩ := f
    by_cases hkey : key ∈ methodKeys
    · obtain ⟨m, hfind, hmethod⟩ := find?_methods_of_mem hkey
      rw [List.filter_cons_of_pos (by simpa using hkey), List.filterMap_cons]
      dsimp only
      rw [hfind, Option.map_some]
      exact .cons ⟨rfl, rfl, hmethod⟩ ih
    · rw [List.filter_cons_of_neg (by simpa using hkey), List.filterMap_cons]
      dsimp only
      rw [find?_methods_of_not_mem hkey, Option.map_none]
      exact ih

end Covenant.OpenApi
