import Covenant.Xml
import Mathlib.Data.List.Basic

/-!
# A reader of XML

A reader of elements, attributes, text and the five predefined entities, one character after the other. It keeps
white space as it stands. It takes no document in which tags do not match, an attribute comes twice in a tag, a
value is not quoted or holds the mark of a tag, or an ampersand begins anything but a predefined entity.

* `Tree`, `read?`: what is read of a document;
* `Reader.step`, `Reader.run`: what a character and a text do to the reader;
* `Reader.run_escape`: an escaped text is read as the text without the characters that are dropped, and leaves the
  reader where it is.
-/

namespace Covenant.Xml

/-! ## What is read -/

/-- An element as it is read. Its text is all that stands in it but outside of the elements in it. -/
structure Tree where
  name : String
  attributes : List (String × String)
  text : String
  children : List Tree

/-- The beginning of a tag: its name, and the attributes so far. -/
structure Tag where
  name : List Char
  attributes : List (String × String)

/-- The value of an attribute, as far as it is read. -/
structure Value where
  tag : Tag
  key : List Char
  quote : Char
  text : List Char

/-- An element that is open, as far as it is read. -/
structure Frame where
  tag : Tag
  text : List Char
  children : List Tree

/-- The element, if it ends here. -/
def Frame.tree (f : Frame) : Tree :=
  ⟨String.ofList f.tag.name, f.tag.attributes, String.ofList f.text, f.children⟩

/-- What the next character belongs to. -/
inductive Mode where
  | content
  /-- A tag of which only the mark is read. -/
  | begun
  /-- An instruction between question marks, whose last character may have been one. -/
  | instruction (marked : Bool)
  | name (cs : List Char)
  /-- A tag behind its name or an attribute, with or without a blank there. -/
  | inside (t : Tag) (apart : Bool)
  | key (t : Tag) (cs : List Char)
  /-- A tag behind an equals sign. -/
  | assigned (t : Tag) (key : List Char)
  | value (v : Value)
  /-- A tag behind the slash that ends an empty element. -/
  | slashed (t : Tag)
  /-- The name in the tag that ends an element. -/
  | ending (cs : List Char)

/-- A reader: the innermost element that is open, those around it, and the name of the entity that is being read.
The outermost element is the document. -/
structure Reader where
  top : Frame
  outer : List Frame
  mode : Mode
  entity : Option (List Char)

/-- The characters that names begin with. -/
def isNameStart (c : Char) : Bool := c.isAlpha || c = '_' || c = ':'

/-- The characters of names. -/
def isNameChar (c : Char) : Bool := c.isAlphanum || c = '_' || c = ':' || c = '-' || c = '.'

/-- White space. -/
def isSpace (c : Char) : Bool := c = ' ' || c = '\t' || c = '\n' || c = '\r'

/-- The character that a predefined entity stands for. -/
def entity? (name : List Char) : Option Char :=
  match String.ofList name with
  | "amp" => some '&'
  | "lt" => some '<'
  | "gt" => some '>'
  | "quot" => some '\x22'
  | "apos" => some '\x27'
  | _ => none

/-- A tag with one more attribute, if it has none of the name. -/
def Tag.add? (t : Tag) (key value : List Char) : Option Tag :=
  if String.ofList key ∈ t.attributes.map Prod.fst then none
  else some { t with attributes := t.attributes ++ [(String.ofList key, String.ofList value)] }

namespace Reader

/-- Adds to the text of an element or to the value of an attribute. -/
def add (r : Reader) (cs : List Char) : Reader :=
  match r.mode with
  | .content => { r with top := { r.top with text := r.top.text ++ cs } }
  | .value v => { r with mode := .value { v with text := v.text ++ cs } }
  | _ => r

@[simp] theorem add_content (f : Frame) (fs : List Frame) (entity : Option (List Char)) (cs : List Char) :
    (Reader.mk f fs .content entity).add cs = ⟨{ f with text := f.text ++ cs }, fs, .content, entity⟩ := rfl

@[simp] theorem add_value (f : Frame) (fs : List Frame) (v : Value) (entity : Option (List Char)) (cs : List Char) :
    (Reader.mk f fs (.value v) entity).add cs = ⟨f, fs, .value { v with text := v.text ++ cs }, entity⟩ := rfl

/-- Reads on in another mode. -/
def goOn (r : Reader) (m : Mode) : Reader := { r with mode := m }

/-- Opens an element. -/
def enter (r : Reader) (t : Tag) : Reader :=
  { r with top := ⟨t, [], []⟩, outer := r.top :: r.outer, mode := .content }

/-- Puts an element into the one that is open. -/
def insert (r : Reader) (t : Tree) : Reader :=
  { r with top := { r.top with children := r.top.children ++ [t] }, mode := .content }

/-- Ends the innermost element, if it has the name. -/
def leave? (r : Reader) (name : List Char) : Option Reader :=
  match r.outer with
  | [] => none
  | f :: fs =>
    if name = r.top.tag.name then some (insert { r with top := f, outer := fs } r.top.tree) else none

/-- A character behind the name or an attribute of a tag. -/
def stepInside (r : Reader) (t : Tag) (apart : Bool) (c : Char) : Option Reader :=
  if c = '>' then some (r.enter t)
  else if c = '/' then some (r.goOn (.slashed t))
  else if isSpace c then some (r.goOn (.inside t true))
  else if apart && isNameStart c then some (r.goOn (.key t [c]))
  else none

/-- A character that belongs to no entity. -/
def stepPlain (r : Reader) (c : Char) : Option Reader :=
  match r.mode with
  | .content =>
    if c = '<' then some (r.goOn .begun)
    else if c = '&' then some { r with entity := some [] }
    else some (r.add [c])
  | .begun =>
    if c = '/' then some (r.goOn (.ending []))
    else if c = '?' then some (r.goOn (.instruction false))
    else if isNameStart c then some (r.goOn (.name [c])) else none
  | .instruction marked =>
    some (r.goOn (if c = '>' && marked then .content else .instruction (c = '?')))
  | .name cs => if isNameChar c then some (r.goOn (.name (cs ++ [c]))) else r.stepInside ⟨cs, []⟩ false c
  | .inside t apart => r.stepInside t apart c
  | .key t cs =>
    if isNameChar c then some (r.goOn (.key t (cs ++ [c])))
    else if c = '=' then some (r.goOn (.assigned t cs)) else none
  | .assigned t key =>
    if c = '\x22' || c = '\x27' then some (r.goOn (.value ⟨t, key, c, []⟩)) else none
  | .value v =>
    if c = v.quote then (v.tag.add? v.key v.text).map fun t => r.goOn (.inside t false)
    else if c = '<' then none
    else if c = '&' then some { r with entity := some [] }
    else some (r.add [c])
  | .slashed t => if c = '>' then some (r.insert (Frame.tree ⟨t, [], []⟩)) else none
  | .ending cs =>
    if isNameChar c then some (r.goOn (.ending (cs ++ [c])))
    else if c = '>' then r.leave? cs else none

/-- Reads a character. -/
def step (r : Reader) (c : Char) : Option Reader :=
  match r.entity with
  | none => r.stepPlain c
  | some name =>
    if c = ';' then (entity? name).map fun d => { r with entity := none }.add [d]
    else some { r with entity := some (name ++ [c]) }

/-- Reads a text. -/
def run (r : Reader) (cs : List Char) : Option Reader := cs.foldlM step r

/-- The reader in front of a document. -/
def start : Reader := ⟨⟨⟨[], []⟩, [], []⟩, [], .content, none⟩

/-- The one element of a document that is read to its end. -/
def root? (r : Reader) : Option Tree :=
  match r with
  | ⟨⟨_, text, [t]⟩, [], .content, none⟩ => if text.all isSpace then some t else none
  | _ => none

end Reader

/-- The element that a document holds. -/
def read? (s : String) : Option Tree := (Reader.start.run s.toList).bind Reader.root?

example : (read? "<a b='1'>x &lt; y<c/></a>").map (fun t => (t.attributes, t.text, t.children.length)) =
    some ([("b", "1")], "x < y", 1) := by decide +kernel
example : (read? "<a><b></a></b>").isNone = true := by decide +kernel
example : (read? "<a b='1' b='2'/>").isNone = true := by decide +kernel

/-! ## Reading text -/

/-- A text without the characters that are dropped. -/
def kept (s : String) : String := String.ofList (s.toList.filter fun c => !isDropped c)

namespace Reader

@[simp] theorem run_nil (r : Reader) : r.run [] = some r := rfl

theorem run_cons (r : Reader) (c : Char) (cs : List Char) :
    r.run (c :: cs) = (r.step c).bind fun r' => r'.run cs := by
  simp [run, List.foldlM_cons]

theorem run_append (r : Reader) (cs ds : List Char) :
    r.run (cs ++ ds) = (r.run cs).bind fun r' => r'.run ds := by
  simp [run, List.foldlM_append]

theorem run_cons_of_step {r r' : Reader} {c : Char} (h : r.step c = some r') (cs : List Char) :
    r.run (c :: cs) = r'.run cs := by
  rw [run_cons, h, Option.bind_some]

theorem run_append_of_run {r r' : Reader} {cs : List Char} (h : r.run cs = some r') (ds : List Char) :
    r.run (cs ++ ds) = r'.run ds := by
  rw [run_append, h, Option.bind_some]

/-- The reader is in a text or in a value between double quotes, and in no entity. -/
inductive InText : Reader → Prop
  | content (f : Frame) (fs : List Frame) : InText ⟨f, fs, .content, none⟩
  | value (f : Frame) (fs : List Frame) (t : Tag) (key cs : List Char) :
    InText ⟨f, fs, .value ⟨t, key, '\x22', cs⟩, none⟩

/-- A character that stands for itself in texts and values. -/
def IsPlain (c : Char) : Prop := c ≠ '<' ∧ c ≠ '&' ∧ c ≠ '\x22'

instance (c : Char) : Decidable (IsPlain c) := inferInstanceAs (Decidable (_ ∧ _))

/-- The name of an entity is collected up to the semicolon. -/
theorem run_entityName (r : Reader) {name cs : List Char} (h : ';' ∉ cs) :
    Reader.run { r with entity := some name } cs = some { r with entity := some (name ++ cs) } := by
  induction cs generalizing name with
  | nil => simp
  | cons c cs ih =>
    have hc : c ≠ ';' := fun heq => h (by simp [heq])
    have hcs : ';' ∉ cs := fun hmem => h (by simp [hmem])
    have hstep : Reader.step { r with entity := some name } c = some { r with entity := some (name ++ [c]) } := by
      simp [step, hc]
    rw [run_cons_of_step hstep, ih hcs, List.append_assoc]
    rfl

section

variable {r : Reader} (hr : r.InText)

include hr

theorem InText.add (cs : List Char) : (r.add cs).InText := by
  cases hr with
  | content f fs => exact .content _ fs
  | value f fs t key text => exact .value f fs t key _

theorem InText.add_nil : r.add [] = r := by
  cases hr <;> simp [Reader.add]

theorem InText.add_add (cs ds : List Char) : (r.add cs).add ds = r.add (cs ++ ds) := by
  cases hr <;> simp [Reader.add, List.append_assoc]

theorem InText.entity : r.entity = none := by
  cases hr <;> rfl

theorem step_plain {c : Char} (hc : IsPlain c) : r.step c = some (r.add [c]) := by
  obtain ⟨hlt, hamp, hquote⟩ := hc
  cases hr <;> simp [step, stepPlain, hlt, hamp, hquote]

theorem step_ampersand : r.step '&' = some { r with entity := some [] } := by
  cases hr <;> simp [step, stepPlain]

/-- A predefined entity is read as its character. -/
theorem run_entity (name : List Char) {d : Char} (hname : ';' ∉ name) (hd : entity? name = some d) :
    r.run ('&' :: name ++ [';']) = some (r.add [d]) := by
  have hstep : Reader.step { r with entity := some name } ';' = some (r.add [d]) := by
    show (entity? name).map (fun d => Reader.add { r with entity := none } [d]) = _
    rw [hd, ← hr.entity]
    rfl
  rw [List.cons_append, run_cons_of_step (step_ampersand hr), run_append_of_run (run_entityName r hname),
    List.nil_append, run_cons_of_step hstep, run_nil]

/-- An escaped character is read as the character, or as nothing if it is dropped. -/
theorem run_escapeChar (c : Char) : r.run (escapeChar c) = some (r.add ([c].filter fun d => !isDropped d)) := by
  unfold escapeChar
  split
  · exact run_entity hr ['a', 'm', 'p'] (by decide) (by decide)
  · exact run_entity hr ['l', 't'] (by decide) (by decide)
  · exact run_entity hr ['g', 't'] (by decide) (by decide)
  · exact run_entity hr ['q', 'u', 'o', 't'] (by decide) (by decide)
  · exact run_entity hr ['a', 'p', 'o', 's'] (by decide) (by decide)
  · rename_i hamp hlt _ hquote _
    by_cases hdropped : isDropped c = true
    · simp [hdropped, hr.add_nil]
    · have hplain : IsPlain c := ⟨hlt, hamp, hquote⟩
      simp [hdropped, run_cons_of_step (step_plain hr hplain)]

theorem run_flatMap_escapeChar (cs : List Char) :
    r.run (cs.flatMap escapeChar) = some (r.add (cs.filter fun d => !isDropped d)) := by
  induction cs generalizing r with
  | nil => simp [hr.add_nil]
  | cons c cs ih =>
    rw [List.flatMap_cons, run_append_of_run (run_escapeChar hr c), ih (hr.add _), hr.add_add]
    rw [← List.filter_append, List.singleton_append]

/-- An escaped text is read as the text without the characters that are dropped, and the reader is still in it. -/
theorem run_escape (s : String) : r.run (escape s) = some (r.add (kept s).toList) := by
  rw [kept, String.toList_ofList]
  exact run_flatMap_escapeChar hr s.toList

/-- Plain characters are read as they stand. -/
theorem run_plain {cs : List Char} (h : ∀ c ∈ cs, IsPlain c) : r.run cs = some (r.add cs) := by
  induction cs generalizing r with
  | nil => simp [hr.add_nil]
  | cons c cs ih =>
    rw [run_cons_of_step (step_plain hr (h c (by simp))), ih (hr.add _) fun d hd => h d (by simp [hd]), hr.add_add]
    rfl

end

end Reader

end Covenant.Xml
