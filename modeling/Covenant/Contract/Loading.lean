import Covenant.Contract.Error
import Covenant.Random

/-!
# Loading

* `Loading`: a computation that makes random choices and may fail with the error of a contract.
-/

namespace Covenant

/-- A computation that makes random choices and may fail. -/
abbrev Loading (α : Type) : Type := StateT Source (Except ContractError) α

namespace Loading

/-- The computation that fails. -/
def fail (e : ContractError) : Loading α := fun _ => .error e

/-- A computation without random choices. -/
def ofExcept (r : Except ContractError α) : Loading α := fun s =>
  match r with
  | .ok a => .ok (a, s)
  | .error e => .error e

/-- A computation that does not fail. -/
def ofRand (r : Rand α) : Loading α := fun s => .ok (r s)

end Loading

end Covenant
