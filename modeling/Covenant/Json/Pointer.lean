import Covenant.Decimal
import Covenant.Json
import Covenant.Text.Split

/-!
# JSON pointers

A pointer is empty or a list of names, each behind a slash. In a name `~1` stands for a slash and `~0` for a
tilde. An item of an array is named by its index without leading zeros.

* `Json.unescapeName`: the name that a piece of a pointer spells;
* `Json.child?`: the field or item of a name;
* `Json.pointer?`: the value that a pointer leads to.
-/

namespace Covenant.Json

open Covenant.Text Covenant.Decimal

/-- Each `~1` as a slash. -/
def unescapeSlash : List Char → List Char
  | [] => []
  | '~' :: '1' :: cs => '/' :: unescapeSlash cs
  | c :: cs => c :: unescapeSlash cs

/-- Each `~0` as a tilde. -/
def unescapeTilde : List Char → List Char
  | [] => []
  | '~' :: '0' :: cs => '~' :: unescapeTilde cs
  | c :: cs => c :: unescapeTilde cs

/-- The name that a piece of a pointer spells. -/
def unescapeName (cs : List Char) : List Char :=
  unescapeTilde (unescapeSlash cs)

/-- The index that a name is: digits without leading zeros, of at most 64 bits. -/
def index? (name : List Char) : Option Nat :=
  match name with
  | '0' :: _ :: _ => none
  | cs => (naturalOf? cs).filter (· < 0x10000000000000000)

/-- The field or item of a name. -/
def child? (v : Json) (name : List Char) : Option Json :=
  match v with
  | .object fields => lookup fields (String.ofList name)
  | .array items => (index? name).bind fun i => items[i]?
  | _ => none

/-- The value that a pointer leads to. -/
def pointer? (v : Json) (pointer : List Char) : Option Json :=
  match pointer with
  | [] => some v
  | '/' :: cs => (splitAt '/' cs).foldlM (fun v p => v.child? (unescapeName p)) v
  | _ => none

/-! ## Sizes -/

theorem sizeOf_lookup {fields : List (String × Json)} {key : String} {v : Json}
    (h : lookup fields key = some v) : sizeOf v < sizeOf fields := by
  obtain ⟨f, hf, rfl⟩ := Option.map_eq_some_iff.1 h
  have hm := List.sizeOf_lt_of_mem (List.mem_of_find?_eq_some hf)
  have : sizeOf f = 1 + sizeOf f.1 + sizeOf f.2 := by cases f; rfl
  omega

/-- A field is smaller than its object. -/
theorem sizeOf_get? {v w : Json} {key : String} (h : v.get? key = some w) : sizeOf w < sizeOf v := by
  cases v with
  | object fields =>
    have := sizeOf_lookup h
    simp only [Json.object.sizeOf_spec]
    omega
  | _ => simp [get?] at h

end Covenant.Json
