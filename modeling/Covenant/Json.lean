import Covenant.Decimal

/-!
# JSON values

Values as contracts and services exchange them. An object is the list of its fields in order.

* `Json.Number`: an integer of at most 64 bits, signed or not, or a finite double;
* `Json.Number.same`: numeric equality as the comparison of bodies uses it;
* `Json`, `Json.Kind`: values and their kinds;
* `Json.beq`: equality of values, with the fields of objects in order;
* `Json.insert`: a field written twice keeps its first place and its last value;
* `Json.DistinctKeys`: no object of the tree has two fields of one name.
-/

namespace Covenant

namespace Json

/-- The integers that a JSON number holds exactly. -/
abbrev Fits (i : Int) : Prop := -0x8000000000000000 ≤ i ∧ i < 0x10000000000000000

/-- A number: an integer of 64 bits, signed or unsigned, or a double. -/
inductive Number where
  | integer (i : Int) (fits : Fits i)
  | double (x : Binary64)
deriving DecidableEq

namespace Number

/-- The number of an integer in range. -/
def ofInt? (i : Int) : Option Number :=
  if h : Fits i then some (.integer i h) else none

/-- The number of a status code. -/
def ofUInt16 (n : UInt16) : Number :=
  .integer n.toNat (by have := n.toNat_lt; constructor <;> omega)

/-- The integer of a number that is not a double. -/
def toInt? : Number → Option Int
  | .integer i _ => some i
  | .double _ => none

/-- The nearest double. -/
def toBinary64 : Number → Binary64
  | .integer i _ => .ofInt i
  | .double x => x

/-- Numeric equality: exact between integers, otherwise of the nearest doubles. -/
def same : Number → Number → Bool
  | .integer i _, .integer j _ => i == j
  | m, n => m.toBinary64.sameValue n.toBinary64

theorem same_self (n : Number) : n.same n = true := by
  cases n <;> simp [same, toBinary64, Binary64.sameValue_self]

end Number

end Json

/-- A JSON value. -/
inductive Json where
  | null
  | bool (b : Bool)
  | number (n : Json.Number)
  | string (s : String)
  | array (items : List Json)
  | object (fields : List (String × Json))

namespace Json

instance : Inhabited Json := ⟨.null⟩

/-- The kind of a value. -/
inductive Kind where
  | null | boolean | number | string | array | object
deriving DecidableEq, Repr

/-- The name of a kind. -/
def Kind.name : Kind → String
  | .null => "null"
  | .boolean => "boolean"
  | .number => "number"
  | .string => "string"
  | .array => "array"
  | .object => "object"

def kind : Json → Kind
  | .null => .null
  | .bool _ => .boolean
  | .number _ => .number
  | .string _ => .string
  | .array _ => .array
  | .object _ => .object

/-! ## Equality -/

mutual
/-- Equality of values. -/
def beq : Json → Json → Bool
  | .null, .null => true
  | .bool a, .bool b => a == b
  | .number m, .number n => m == n
  | .string s, .string t => s == t
  | .array as, .array bs => beqItems as bs
  | .object as, .object bs => beqFields as bs
  | _, _ => false
def beqItems : List Json → List Json → Bool
  | [], [] => true
  | a :: as, b :: bs => beq a b && beqItems as bs
  | _, _ => false
def beqFields : List (String × Json) → List (String × Json) → Bool
  | [], [] => true
  | (k, a) :: as, (l, b) :: bs => k == l && beq a b && beqFields as bs
  | _, _ => false
end

mutual
theorem beq_iff : (v w : Json) → (beq v w = true ↔ v = w)
  | .array as, w => by
    cases w with
    | array bs => simp only [beq, array.injEq, beqItems_iff as bs]
    | _ => simp [beq]
  | .object as, w => by
    cases w with
    | object bs => simp only [beq, object.injEq, beqFields_iff as bs]
    | _ => simp [beq]
  | .null, w | .bool _, w | .number _, w | .string _, w => by
    cases w <;> simp [beq]
theorem beqItems_iff : (as bs : List Json) → (beqItems as bs = true ↔ as = bs)
  | [], bs => by cases bs <;> simp [beqItems]
  | a :: as, bs => by
    cases bs with
    | nil => simp [beqItems]
    | cons b bs => simp only [beqItems, Bool.and_eq_true, List.cons.injEq, beq_iff a b, beqItems_iff as bs]
theorem beqFields_iff : (as bs : List (String × Json)) → (beqFields as bs = true ↔ as = bs)
  | [], bs => by cases bs <;> simp [beqFields]
  | (k, a) :: as, bs => by
    cases bs with
    | nil => simp [beqFields]
    | cons b bs =>
      obtain ⟨l, b⟩ := b
      simp only [beqFields, Bool.and_eq_true, List.cons.injEq, Prod.mk.injEq, beq_iff_eq, beq_iff a b,
        beqFields_iff as bs]
end

instance : DecidableEq Json := fun v w => decidable_of_iff _ (beq_iff v w)

/-! ## Fields -/

/-- The value of the first field with a name. -/
def lookup (fields : List (String × Json)) (key : String) : Option Json :=
  (fields.find? (fun f => f.1 == key)).map Prod.snd

theorem lookup_cons_self (key : String) (v : Json) (fields : List (String × Json)) :
    lookup ((key, v) :: fields) key = some v := by
  rw [lookup, List.find?_cons_of_pos (by simp)]
  rfl

theorem lookup_cons_of_ne {k key : String} (h : k ≠ key) (v : Json) (fields : List (String × Json)) :
    lookup ((k, v) :: fields) key = lookup fields key := by
  rw [lookup, List.find?_cons_of_neg (by simpa using h)]
  rfl

/-- Sets a field: a name that is present keeps its place, a new one comes last. -/
def insert (fields : List (String × Json)) (key : String) (value : Json) : List (String × Json) :=
  match fields with
  | [] => [(key, value)]
  | f :: fs => if f.1 == key then (key, value) :: fs else f :: insert fs key value

/-- Sets several fields, one after the other. -/
def insertAll (fields more : List (String × Json)) : List (String × Json) :=
  more.foldl (fun acc f => insert acc f.1 f.2) fields

/-- The field of an object, absent for any other value. -/
def get? (v : Json) (key : String) : Option Json :=
  match v with
  | .object fields => lookup fields key
  | _ => none

/-! ## Views -/

def toText? : Json → Option String
  | .string s => some s
  | _ => none

def toBool? : Json → Option Bool
  | .bool b => some b
  | _ => none

def toItems? : Json → Option (List Json)
  | .array items => some items
  | _ => none

def toFields? : Json → Option (List (String × Json))
  | .object fields => some fields
  | _ => none

/-- The integer of an integral number. -/
def toInt? : Json → Option Int
  | .number n => n.toInt?
  | _ => none

/-- The natural number of a number that is an integer of at least zero. -/
def toNat? (v : Json) : Option Nat :=
  v.toInt?.bind fun i => if 0 ≤ i then some i.toNat else none

/-- The integer of a number of signed 64 bits. -/
def toInt64? (v : Json) : Option Int :=
  v.toInt?.filter (fun i => decide (i < 0x8000000000000000))

/-- A status code as a value. -/
def ofUInt16 (n : UInt16) : Json := .number (.ofUInt16 n)

/-- A natural number as a value, as long as it has at most 64 bits. -/
def ofNat (n : Nat) : Json :=
  match Number.ofInt? n with
  | some n => .number n
  | none => .null

/-! ## Trees without repeated names -/

mutual
/-- Every object of the tree has fields of distinct names. -/
def DistinctKeys : Json → Prop
  | .array items => DistinctKeysItems items
  | .object fields => (fields.map Prod.fst).Nodup ∧ DistinctKeysFields fields
  | _ => True
def DistinctKeysItems : List Json → Prop
  | [] => True
  | v :: vs => v.DistinctKeys ∧ DistinctKeysItems vs
def DistinctKeysFields : List (String × Json) → Prop
  | [] => True
  | (_, v) :: fs => v.DistinctKeys ∧ DistinctKeysFields fs
end

theorem mem_keys_insert {fields : List (String × Json)} {key k : String} {value : Json} :
    k ∈ (insert fields key value).map Prod.fst ↔ k = key ∨ k ∈ fields.map Prod.fst := by
  induction fields with
  | nil => simp [insert]
  | cons f fs ih =>
    by_cases h : f.1 = key
    · simp [insert, h]
    · have hb : (f.1 == key) = false := by simpa using h
      simp only [insert, hb, Bool.false_eq_true, if_false, List.map_cons, List.mem_cons, ih]
      constructor
      · rintro (h | h | h)
        · exact Or.inr (Or.inl h)
        · exact Or.inl h
        · exact Or.inr (Or.inr h)
      · rintro (h | h | h)
        · exact Or.inr (Or.inl h)
        · exact Or.inl h
        · exact Or.inr (Or.inr h)

/-- Setting a field keeps the names distinct. -/
theorem nodup_keys_insert {fields : List (String × Json)} (key : String) (value : Json)
    (h : (fields.map Prod.fst).Nodup) : ((insert fields key value).map Prod.fst).Nodup := by
  induction fields with
  | nil => simp [insert]
  | cons f fs ih =>
    simp only [List.map_cons, List.nodup_cons] at h
    by_cases hk : f.1 = key
    · have hb : (f.1 == key) = true := by simpa using hk
      rw [insert, if_pos hb, List.map_cons, List.nodup_cons]
      exact ⟨hk ▸ h.1, h.2⟩
    · have hb : (f.1 == key) = false := by simpa using hk
      simp only [insert, hb, Bool.false_eq_true, if_false, List.map_cons, List.nodup_cons]
      refine ⟨fun hm => ?_, ih h.2⟩
      rcases mem_keys_insert.1 hm with hm | hm
      · exact hk hm
      · exact h.1 hm

end Json

end Covenant
