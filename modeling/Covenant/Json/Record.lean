import Covenant.Json

/-!
# Records in JSON

Readers of data with named fields. A record is an object, or the array of its values in the order of the
names, where values that have a default may be left out at the end.

* `record?`: the fields of a record;
* `required`, `defaulted`: the value of a field;
* `nullable`, `listOf`, `choice?`: readers of the values.
-/

namespace Covenant.Json

/-- The fields of a record with the given names. -/
def record? (names : List String) : Json → Option (List (String × Json))
  | .object fields => some fields
  | .array items => if items.length ≤ names.length then some (names.zip items) else none
  | _ => none

/-- The value of a field that has to be there. -/
def required (fields : List (String × Json)) (key : String) (read : Json → Option α) : Option α :=
  (lookup fields key).bind read

/-- The value of a field, or its default where it is left out. -/
def defaulted (fields : List (String × Json)) (key : String) (value : α) (read : Json → Option α) :
    Option α :=
  match lookup fields key with
  | none => some value
  | some v => read v

/-- A value that is absent where null is written. -/
def nullable (read : Json → Option α) : Json → Option (Option α)
  | .null => some none
  | v => (read v).map some

/-- A list of values. -/
def listOf (read : Json → Option α) (v : Json) : Option (List α) :=
  v.toItems?.bind fun items => items.mapM read

/-- The name of one choice among several: a string, or the only name of an object with the value null. -/
def choice? : Json → Option String
  | .string s => some s
  | .object [(s, .null)] => some s
  | _ => none

/-- An unsigned word of 16 bits. -/
def toUInt16? (v : Json) : Option UInt16 :=
  v.toNat?.bind fun n => if n < 0x10000 then some (.ofNat n) else none

/-- An unsigned word of 64 bits. -/
def toUInt64? (v : Json) : Option UInt64 :=
  v.toNat?.bind fun n => if n < 0x10000000000000000 then some (.ofNat n) else none

/-- The number of an unsigned word of 64 bits. -/
def ofUInt64 (n : UInt64) : Json :=
  .number (.integer n.toNat (by have := n.toNat_lt; constructor <;> omega))

theorem toUInt16?_ofUInt16 (n : UInt16) : (ofUInt16 n).toUInt16? = some n := by
  have := n.toNat_lt
  simp [toUInt16?, ofUInt16, toNat?, toInt?, Number.ofUInt16, Number.toInt?, this]

theorem toUInt64?_ofUInt64 (n : UInt64) : (ofUInt64 n).toUInt64? = some n := by
  have := n.toNat_lt
  simp [toUInt64?, ofUInt64, toNat?, toInt?, Number.toInt?, this]

/-- What is written for each element is read back, if that holds of single elements. -/
theorem mapM_map_eq {read : Json → Option α} {write : α → Json} (l : List α)
    (h : ∀ a ∈ l, read (write a) = some a) : (l.map write).mapM read = some l := by
  induction l with
  | nil => rfl
  | cons a l ih =>
    have ha := h a (by simp)
    have hl := ih fun b hb => h b (by simp [hb])
    simp [List.mapM_cons, ha, hl]

end Covenant.Json
