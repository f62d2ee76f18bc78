/-!
# XML text

Documents of elements, attributes and text, as reports need them.

* `Xml.escape`: a text with the five predefined entities, and without the control characters that
  no document may hold;
* `Xml.Element`: an element that is empty, holds a text, or holds elements;
* `Xml.document`: elements on lines of their own, two blanks deeper for each level.
-/

namespace Covenant.Xml

/-- Whether a character is a control character other than tab and line breaks. -/
def isDropped (c : Char) : Bool := c.toNat < 0x20 && c != '\t' && c != '\n' && c != '\r'

/-- A character of a text or an attribute. -/
def escapeChar (c : Char) : List Char :=
  match c with
  | '&' => "&amp;".toList
  | '<' => "&lt;".toList
  | '>' => "&gt;".toList
  | '\x22' => "&quot;".toList
  | '\x27' => "&apos;".toList
  | c => if isDropped c then [] else [c]

/-- A text or the value of an attribute. -/
def escape (s : String) : List Char := s.toList.flatMap escapeChar

/-- An attribute of an element. -/
structure Attribute where
  name : String
  value : String

/-- An element. -/
inductive Element where
  | empty (name : String) (attributes : List Attribute)
  | text (name : String) (attributes : List Attribute) (content : String)
  | parent (name : String) (attributes : List Attribute) (children : List Element)

/-- An attribute behind a blank. -/
def Attribute.chars (a : Attribute) : List Char :=
  ' ' :: a.name.toList ++ '=' :: '\x22' :: escape a.value ++ ['\x22']

/-- The name and the attributes of a tag. -/
def tag (name : String) (attributes : List Attribute) : List Char :=
  '<' :: name.toList ++ attributes.flatMap Attribute.chars

/-- The tag that ends an element. -/
def endTag (name : String) : List Char := '<' :: '/' :: name.toList ++ ['>', '\n']

/-- The blanks in front of an element. -/
def margin (level : Nat) : List Char := List.replicate (2 * level) ' '

mutual
/-- The lines of an element. -/
def Element.chars (level : Nat) : Element → List Char
  | .empty name attributes => margin level ++ tag name attributes ++ ['/', '>', '\n']
  | .text name attributes content =>
    margin level ++ tag name attributes ++ '>' :: escape content ++ endTag name
  | .parent name attributes children =>
    margin level ++ tag name attributes ++ '>' :: '\n' :: childrenChars (level + 1) children ++
      margin level ++ endTag name
/-- The lines of several elements. -/
def childrenChars (level : Nat) : List Element → List Char
  | [] => []
  | e :: es => e.chars level ++ childrenChars level es
end

/-- The line that starts a document. -/
def declaration : String := "<?xml version=\x221.0\x22 encoding=\x22UTF-8\x22?>\n"

/-- The document of an element. -/
def document (root : Element) : String :=
  String.ofList (declaration.toList ++ root.chars 0)

end Covenant.Xml
