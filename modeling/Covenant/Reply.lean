import Covenant.Json.Reader
import Covenant.Text.Blank
import Covenant.Text.Case

/-!
# Replies

What a service answered.

* `Reply`: status, headers in the order received, and body;
* `Reply.bodyOfText`: a body text is JSON if it parses, null if it is blank, and a string otherwise;
* `Reply.header?`, `Reply.headerIgnoringCase?`: the first header of a name.
-/

namespace Covenant

open Covenant.Text

/-- A received response. -/
structure Reply where
  status : UInt16
  headers : List (String × String)
  body : Json

namespace Reply

/-- The body that a text stands for. -/
def bodyOfText (text : String) : Json :=
  if isBlankText text then .null
  else (Json.read? Json.standardLimit text).getD (.string text)

/-- The first header with exactly this name. -/
def header? (r : Reply) (name : String) : Option String :=
  (r.headers.find? (fun h => h.1 == name)).map Prod.snd

/-- The first header of this name, the case of ASCII letters aside. -/
def headerIgnoringCase? (r : Reply) (name : String) : Option String :=
  (r.headers.find? (fun h => sameIgnoringCase h.1 name)).map Prod.snd

end Reply

end Covenant
