import Covenant.Text.Blank
import Covenant.Text.Case

/-!
# Request methods

* `Method`: the nine methods that a contract may name;
* `Method.name`: the name in capitals;
* `Method.parse?`: a method from text in any case, with blanks around it.
-/

namespace Covenant

open Covenant.Text

/-- The method of a request. -/
inductive Method where
  | get | post | put | patch | delete | head | options | trace | connect
deriving DecidableEq, Repr

namespace Method

/-- All methods. -/
def all : List Method :=
  [.get, .post, .put, .patch, .delete, .head, .options, .trace, .connect]

/-- The name of a method. -/
def name : Method → String
  | .get => "GET"
  | .post => "POST"
  | .put => "PUT"
  | .patch => "PATCH"
  | .delete => "DELETE"
  | .head => "HEAD"
  | .options => "OPTIONS"
  | .trace => "TRACE"
  | .connect => "CONNECT"

/-- The method with exactly this name. -/
def ofName? (s : String) : Option Method :=
  all.find? (fun m => m.name == s)

/-- The method that a text names, blanks around it and letter case aside. -/
def parse? (s : String) : Option Method :=
  ofName? (upperWord (trim s))

/-- What is said of a text that names no method. -/
def unknownMessage (s : String) : String :=
  "Unknown HTTP method: " ++ s

theorem ofName?_name (m : Method) : ofName? m.name = some m := by
  cases m <;> decide

theorem ofName?_eq_some_iff {s : String} {m : Method} : ofName? s = some m ↔ s = m.name := by
  constructor
  · intro h
    rw [ofName?] at h
    have hname := List.find?_some h
    exact (beq_iff_eq.1 hname).symm
  · rintro rfl
    exact ofName?_name m

/-- The methods of texts in any case, with blanks around them. -/
theorem parse?_eq_some_iff {s : String} {m : Method} : parse? s = some m ↔ upperWord (trim s) = m.name :=
  ofName?_eq_some_iff

theorem parse?_name (m : Method) : parse? m.name = some m := by
  cases m <;> decide

end Method

end Covenant
