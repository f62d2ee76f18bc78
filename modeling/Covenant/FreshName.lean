import Covenant.Decimal

/-!
# Fresh names

* `numberedName`: a name with a number behind it;
* `freshName`: a name that is not taken: the wanted one, or that with the least number from two on.

Of the names with a number, one more is tried than names are taken, so that one of them is free.
-/

namespace Covenant

/-- A name with a number behind it. -/
def numberedName (base : String) (n : Nat) : String :=
  base ++ "_" ++ Decimal.ofNat n

/-- A name whose key is not taken: the wanted one, or that with the least number from two on. -/
def freshName (key : String → String) (taken : List String) (base : String) : String :=
  if taken.contains (key base) then
    let numbered := (List.range (taken.length + 1)).map fun i => numberedName base (i + 2)
    (numbered.find? fun s => !taken.contains (key s)).getD base
  else base

end Covenant
