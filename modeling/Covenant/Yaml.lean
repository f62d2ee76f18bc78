import Covenant.Json

/-!
# YAML values

Values of a YAML document after aliases and tags are resolved. Keys of mappings may be of any kind.

* `Yaml.Number`: integers of 64 bits, doubles, the infinities and not-a-number;
* `Yaml`: values, a tag outside the core ones kept around its value;
* `Yaml.same`: equality of values, with the entries of mappings in any order;
* `Yaml.beq`: equality of values with everything in order;
* `Yaml.get?`: the entry of a mapping with a string as its key.
-/

namespace Covenant

namespace Yaml

/-- A number. -/
inductive Number where
  | integer (i : Int) (fits : Json.Fits i)
  | double (x : Binary64)
  | infinite (negative : Bool)
  | nan

/-- The value of a number: an integer, a double, or an infinity with its sign. -/
def Number.value : Number → Int ⊕ Binary64 ⊕ Option Bool
  | .integer i _ => .inl i
  | .double x => .inr (.inl x)
  | .infinite negative => .inr (.inr (some negative))
  | .nan => .inr (.inr none)

theorem Number.value_injective {m n : Number} (h : m.value = n.value) : m = n := by
  cases m <;> cases n <;> simp_all [value]

instance : DecidableEq Number := fun m n =>
  decidable_of_iff (m.value = n.value) ⟨Number.value_injective, congrArg Number.value⟩

/-- Equality of numbers: an integer differs from every double, the zeros are equal. -/
def Number.same : Number → Number → Bool
  | .double x, .double y => x.sameValue y
  | m, n => decide (m = n)

end Yaml

/-- A YAML value. -/
inductive Yaml where
  | null
  | bool (b : Bool)
  | number (n : Yaml.Number)
  | string (s : String)
  | sequence (items : List Yaml)
  | mapping (entries : List (Yaml × Yaml))
  | tagged (tag : String) (value : Yaml)

namespace Yaml

instance : Inhabited Yaml := ⟨.null⟩

/-- The name of a tag, without a further exclamation mark in front. -/
def tagName (tag : String) : String :=
  match tag.toList with
  | '!' :: c :: cs => String.ofList (c :: cs)
  | _ => tag

/-! ## Equality -/

mutual
/-- Equality of values. -/
def same : Yaml → Yaml → Bool
  | .null, .null => true
  | .bool a, .bool b => a == b
  | .number m, .number n => m.same n
  | .string s, .string t => s == t
  | .sequence as, .sequence bs => sameItems as bs
  | .mapping as, .mapping bs => as.length == bs.length && sameEntries as bs
  | .tagged s a, .tagged t b => tagName s == tagName t && same a b
  | _, _ => false
def sameItems : List Yaml → List Yaml → Bool
  | [], [] => true
  | a :: as, b :: bs => same a b && sameItems as bs
  | _, _ => false
/-- Whether each entry has an equal one among the others. -/
def sameEntries : List (Yaml × Yaml) → List (Yaml × Yaml) → Bool
  | [], _ => true
  | (k, v) :: as, bs => bs.any (fun e => same k e.1 && same v e.2) && sameEntries as bs
end

mutual
/-- Equality of values with everything in order. -/
def beq : Yaml → Yaml → Bool
  | .null, .null => true
  | .bool a, .bool b => a == b
  | .number m, .number n => m == n
  | .string s, .string t => s == t
  | .sequence as, .sequence bs => beqItems as bs
  | .mapping as, .mapping bs => beqEntries as bs
  | .tagged s a, .tagged t b => s == t && beq a b
  | _, _ => false
def beqItems : List Yaml → List Yaml → Bool
  | [], [] => true
  | a :: as, b :: bs => beq a b && beqItems as bs
  | _, _ => false
def beqEntries : List (Yaml × Yaml) → List (Yaml × Yaml) → Bool
  | [], [] => true
  | (k, a) :: as, (l, b) :: bs => beq k l && beq a b && beqEntries as bs
  | _, _ => false
end

mutual
theorem beq_iff : (v w : Yaml) → (beq v w = true ↔ v = w)
  | .sequence as, w => by
    cases w with
    | sequence bs => simp only [beq, sequence.injEq, beqItems_iff as bs]
    | _ => simp [beq]
  | .mapping as, w => by
    cases w with
    | mapping bs => simp only [beq, mapping.injEq, beqEntries_iff as bs]
    | _ => simp [beq]
  | .tagged s a, w => by
    cases w with
    | tagged t b => simp only [beq, Bool.and_eq_true, tagged.injEq, beq_iff_eq, beq_iff a b]
    | _ => simp [beq]
  | .null, w | .bool _, w | .number _, w | .string _, w => by
    cases w <;> simp [beq]
theorem beqItems_iff : (as bs : List Yaml) → (beqItems as bs = true ↔ as = bs)
  | [], bs => by cases bs <;> simp [beqItems]
  | a :: as, bs => by
    cases bs with
    | nil => simp [beqItems]
    | cons b bs => simp only [beqItems, Bool.and_eq_true, List.cons.injEq, beq_iff a b, beqItems_iff as bs]
theorem beqEntries_iff : (as bs : List (Yaml × Yaml)) → (beqEntries as bs = true ↔ as = bs)
  | [], bs => by cases bs <;> simp [beqEntries]
  | (k, a) :: as, bs => by
    cases bs with
    | nil => simp [beqEntries]
    | cons b bs =>
      obtain ⟨l, b⟩ := b
      simp only [beqEntries, Bool.and_eq_true, List.cons.injEq, Prod.mk.injEq, beq_iff k l, beq_iff a b,
        beqEntries_iff as bs]
end

instance : DecidableEq Yaml := fun v w => decidable_of_iff _ (beq_iff v w)

/-- Whether no key comes twice. -/
def distinctKeys : List (Yaml × Yaml) → Bool
  | [] => true
  | (k, _) :: es => !es.any (fun e => same k e.1) && distinctKeys es

/-! ## Views -/

/-- The value inside all tags. -/
def untagged : Yaml → Yaml
  | .tagged _ v => v.untagged
  | v => v

/-- The entry of a mapping with a key, absent for any other value. -/
def get? (v : Yaml) (key : String) : Option Yaml :=
  match v.untagged with
  | .mapping entries =>
    (entries.find? fun e => match e.1 with
      | .string s => s == key
      | _ => false).map Prod.snd
  | _ => none

/-- The text of a string. -/
def toText? (v : Yaml) : Option String :=
  match v.untagged with
  | .string s => some s
  | _ => none

/-- Whether a value is null. -/
def isNull (v : Yaml) : Bool :=
  match v.untagged with
  | .null => true
  | _ => false

end Yaml

end Covenant
