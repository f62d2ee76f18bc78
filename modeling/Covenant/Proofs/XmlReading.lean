import Covenant.Proofs.XmlReader
import Mathlib.Data.List.Nodup

/-!
# Documents that are read back

What is read of a document is the element that it was written for, whatever its texts and values are.

* `Reader.run_attributes`, `Reader.run_tag`: a tag is read with the attributes that it was written with;
* `Element.tree`: what is read of an element: the characters that are dropped are missing, and the blanks between
  elements are text of the element around them;
* `Reader.run_element`: an element is read as one element inside of the one that is open;
* `read?_document`: a document is read as its element;
* `Tree.outline`: a tree without texts and values.
-/

namespace Covenant.Xml

/-! ## Tags -/

/-- The name and the value that are read of an attribute. -/
def Attribute.read (a : Attribute) : String × String := (a.name, kept a.value)

/-- The names of elements and attributes. -/
def IsName (s : String) : Prop := s.toList.head?.any isNameStart = true ∧ ∀ c ∈ s.toList, isNameChar c = true

instance (s : String) : Decidable (IsName s) :=
  @instDecidableAnd _ _ _ (List.decidableBAll (fun c => isNameChar c = true) s.toList)

theorem IsName.exists_cons {s : String} (h : IsName s) :
    ∃ c cs, s.toList = c :: cs ∧ isNameStart c = true ∧ ∀ d ∈ cs, isNameChar d = true := by
  obtain ⟨hstart, hchars⟩ := h
  cases hs : s.toList with
  | nil => simp [hs] at hstart
  | cons c cs =>
    rw [hs] at hstart hchars
    exact ⟨c, cs, rfl, hstart, fun d hd => hchars d (by simp [hd])⟩

/-- A name begins with no mark of a tag. -/
theorem not_mark_of_isNameStart {c : Char} (h : isNameStart c = true) :
    c ≠ '>' ∧ c ≠ '/' ∧ isSpace c = false := by
  refine ⟨?_, ?_, ?_⟩
  · rintro rfl
    exact absurd h (by decide)
  · rintro rfl
    exact absurd h (by decide)
  · apply Bool.eq_false_iff.2
    intro hspace
    simp only [isSpace, Bool.or_eq_true, decide_eq_true_eq] at hspace
    rcases hspace with ((rfl | rfl) | rfl) | rfl <;> exact absurd h (by decide)

namespace Reader

/-- A name is collected character by character. -/
theorem run_nameChars {r : Reader} {m : List Char → Mode}
    (hm : ∀ cs c, isNameChar c = true → (r.goOn (m cs)).step c = some (r.goOn (m (cs ++ [c]))))
    {name cs : List Char} (h : ∀ c ∈ cs, isNameChar c = true) :
    (r.goOn (m name)).run cs = some (r.goOn (m (name ++ cs))) := by
  induction cs generalizing name with
  | nil => simp
  | cons c cs ih =>
    rw [run_cons_of_step (hm name c (h c (by simp))), ih fun d hd => h d (by simp [hd]), List.append_assoc]
    rfl

section

variable {r : Reader} (hr : r.entity = none)

include hr

theorem step_key (t : Tag) (cs : List Char) {c : Char} (h : isNameChar c = true) :
    (r.goOn (.key t cs)).step c = some (r.goOn (.key t (cs ++ [c]))) := by
  simp [step, stepPlain, goOn, hr, h]

theorem step_name (cs : List Char) {c : Char} (h : isNameChar c = true) :
    (r.goOn (.name cs)).step c = some (r.goOn (.name (cs ++ [c]))) := by
  simp [step, stepPlain, goOn, hr, h]

theorem step_ending (cs : List Char) {c : Char} (h : isNameChar c = true) :
    (r.goOn (.ending cs)).step c = some (r.goOn (.ending (cs ++ [c]))) := by
  simp [step, stepPlain, goOn, hr, h]

theorem step_inside (t : Tag) (apart : Bool) (c : Char) :
    (r.goOn (.inside t apart)).step c = r.stepInside t apart c := by
  simp [step, stepPlain, goOn, hr, stepInside, enter]

/-- An attribute is read as its name with its value, less what is dropped. -/
theorem run_attribute (t : Tag) {a : Attribute} (hname : IsName a.name) (hnew : a.name ∉ t.attributes.map Prod.fst) :
    (r.goOn (.inside t false)).run a.chars =
      some (r.goOn (.inside { t with attributes := t.attributes ++ [a.read] } false)) := by
  obtain ⟨c, cs, hlist, hstart, hchars⟩ := hname.exists_cons
  have hkey : String.ofList (c :: cs) = a.name := by rw [← hlist, String.ofList_toList]
  have hblank : (r.goOn (.inside t false)).step ' ' = some (r.goOn (.inside t true)) := by
    simp [step_inside hr, stepInside, isSpace]
  have hfirst : (r.goOn (.inside t true)).step c = some (r.goOn (.key t [c])) := by
    obtain ⟨hend, hslash, hspace⟩ := not_mark_of_isNameStart hstart
    simp [step_inside hr, stepInside, hend, hslash, hspace, hstart]
  have hrest : (r.goOn (.key t [c])).run cs = some (r.goOn (.key t (c :: cs))) :=
    run_nameChars (fun _ _ h => step_key hr t _ h) hchars
  have hequals : (r.goOn (.key t (c :: cs))).step '=' = some (r.goOn (.assigned t (c :: cs))) := by
    have hmark : isNameChar '=' = false := by decide
    simp [step, stepPlain, goOn, hr, hmark]
  have hquote : (r.goOn (.assigned t (c :: cs))).step '\x22' =
      some (r.goOn (.value ⟨t, c :: cs, '\x22', []⟩)) := by
    simp [step, stepPlain, goOn, hr]
  have hvalue : (r.goOn (.value ⟨t, c :: cs, '\x22', []⟩)).run (escape a.value) =
      some (r.goOn (.value ⟨t, c :: cs, '\x22', (kept a.value).toList⟩)) := by
    obtain ⟨f, fs, m, e⟩ := r
    obtain rfl : e = none := hr
    rw [goOn, run_escape (.value f fs t (c :: cs) []), add_value]
    simp [goOn]
  have hclose : (r.goOn (.value ⟨t, c :: cs, '\x22', (kept a.value).toList⟩)).step '\x22' =
      some (r.goOn (.inside { t with attributes := t.attributes ++ [a.read] } false)) := by
    simp [step, stepPlain, goOn, hr, Tag.add?, hkey, hnew, Attribute.read]
  have hlayout : a.chars = ' ' :: c :: (cs ++ '=' :: '\x22' :: (escape a.value ++ ['\x22'])) := by
    simp [Attribute.chars, hlist]
  rw [hlayout, run_cons_of_step hblank, run_cons_of_step hfirst, run_append_of_run hrest, run_cons_of_step hequals,
    run_cons_of_step hquote, run_append_of_run hvalue, run_cons_of_step hclose, run_nil]

/-- Attributes of different names are all read, in their order. -/
theorem run_attributes (t : Tag) {as : List Attribute} (hnames : ∀ a ∈ as, IsName a.name)
    (hnew : (t.attributes.map Prod.fst ++ as.map Attribute.name).Nodup) :
    (r.goOn (.inside t false)).run (as.flatMap Attribute.chars) =
      some (r.goOn (.inside { t with attributes := t.attributes ++ as.map Attribute.read } false)) := by
  induction as generalizing t with
  | nil => simp
  | cons a as ih =>
    rw [List.map_cons, List.nodup_middle, List.nodup_cons, List.mem_append, not_or] at hnew
    obtain ⟨⟨hfresh, hnext⟩, hrest⟩ := hnew
    have hnew' : ((t.attributes ++ [a.read]).map Prod.fst ++ as.map Attribute.name).Nodup := by
      rw [List.map_append, List.append_assoc]
      show (t.attributes.map Prod.fst ++ a.name :: as.map Attribute.name).Nodup
      rw [List.nodup_middle, List.nodup_cons, List.mem_append, not_or]
      exact ⟨⟨hfresh, hnext⟩, hrest⟩
    rw [List.flatMap_cons, run_append_of_run (run_attribute hr t (hnames a (by simp)) hfresh),
      ih _ (fun b hb => hnames b (by simp [hb])) hnew', List.append_assoc]
    rfl

end

/-- A character that is part of no name ends the name of a tag. -/
theorem run_name_eq_inside {r : Reader} (hr : r.entity = none) (cs : List Char) {d : Char}
    (hd : isNameChar d = false) (rest : List Char) :
    (r.goOn (.name cs)).run (d :: rest) = (r.goOn (.inside ⟨cs, []⟩ false)).run (d :: rest) := by
  have hstep : (r.goOn (.name cs)).step d = (r.goOn (.inside ⟨cs, []⟩ false)).step d := by
    rw [step_inside hr]
    simp [step, stepPlain, goOn, hr, hd, stepInside, enter]
  rw [run_cons, run_cons, hstep]

end Reader

/-- A tag that can be read: names are names, and those of the attributes are different. -/
structure WellTagged (name : String) (keys : List String) : Prop where
  name : IsName name
  attributes : ∀ key ∈ keys, IsName key
  distinct : keys.Nodup

instance (name : String) (keys : List String) : Decidable (WellTagged name keys) :=
  decidable_of_iff (IsName name ∧ (∀ key ∈ keys, IsName key) ∧ keys.Nodup)
    ⟨fun h => ⟨h.1, h.2.1, h.2.2⟩, fun h => ⟨h.name, h.attributes, h.distinct⟩⟩

/-- The tag that is read. -/
def tagRead (name : String) (as : List Attribute) : Tag := ⟨name.toList, as.map Attribute.read⟩

namespace Reader

/-- The reader in the text of an element. -/
def within (f : Frame) (fs : List Frame) : Reader := ⟨f, fs, .content, none⟩

section

variable (f : Frame) (fs : List Frame) {name : String} {as : List Attribute}
  (h : WellTagged name (as.map Attribute.name))

theorem inText_within : (within f fs).InText := .content f fs

include h

/-- A tag is read with its attributes. -/
theorem run_tag {d : Char} (hd : isNameChar d = false) (rest : List Char) :
    (within f fs).run (tag name as ++ d :: rest) =
      ((within f fs).goOn (.inside (tagRead name as) false)).run (d :: rest) := by
  obtain ⟨c, cs, hlist, hstart, hchars⟩ := h.name.exists_cons
  have hbegin : (within f fs).step '<' = some ((within f fs).goOn .begun) := rfl
  have hfirst : ((within f fs).goOn .begun).step c = some ((within f fs).goOn (.name [c])) := by
    obtain ⟨-, hslash, -⟩ := not_mark_of_isNameStart hstart
    have hmark : c ≠ '?' := by
      rintro rfl
      exact absurd hstart (by decide)
    simp [step, stepPlain, within, goOn, hslash, hmark, hstart]
  have hrest : ((within f fs).goOn (.name [c])).run cs = some ((within f fs).goOn (.name (c :: cs))) :=
    run_nameChars (fun _ _ h => step_name rfl _ h) hchars
  have hend : ((within f fs).goOn (.name (c :: cs))).run (as.flatMap Attribute.chars ++ d :: rest) =
      ((within f fs).goOn (.inside ⟨c :: cs, []⟩ false)).run (as.flatMap Attribute.chars ++ d :: rest) := by
    cases as with
    | nil => exact run_name_eq_inside rfl _ hd _
    | cons a as => exact run_name_eq_inside rfl _ (by decide : isNameChar ' ' = false) _
  have hattributes := run_attributes (r := within f fs) rfl ⟨c :: cs, []⟩
    (List.forall_mem_map.1 h.attributes) (by simpa using h.distinct)
  rw [List.nil_append] at hattributes
  rw [tag, hlist, List.cons_append, List.cons_append, List.append_assoc, List.cons_append,
    run_cons_of_step hbegin, run_cons_of_step hfirst, run_append_of_run hrest, hend,
    run_append_of_run hattributes, tagRead, hlist]

/-- The beginning of an element opens it. -/
theorem run_opening :
    (within f fs).run (tag name as ++ ['>']) = some (within ⟨tagRead name as, [], []⟩ (f :: fs)) := by
  have hstep : ((within f fs).goOn (.inside (tagRead name as) false)).step '>' =
      some (within ⟨tagRead name as, [], []⟩ (f :: fs)) := rfl
  rw [run_tag f fs h (by decide) [], run_cons_of_step hstep, run_nil]

/-- An empty element is put into the one that is open. -/
theorem run_empty :
    (within f fs).run (tag name as ++ ['/', '>']) =
      some (within { f with children := f.children ++ [⟨name, as.map Attribute.read, "", []⟩] } fs) := by
  have hslash : ((within f fs).goOn (.inside (tagRead name as) false)).step '/' =
      some ((within f fs).goOn (.slashed (tagRead name as))) := rfl
  have hend : ((within f fs).goOn (.slashed (tagRead name as))).step '>' =
      some (within { f with children := f.children ++ [⟨name, as.map Attribute.read, "", []⟩] } fs) := by
    simp [step, stepPlain, goOn, insert, within, Frame.tree, tagRead]
  rw [run_tag f fs h (by decide) ['>'], run_cons_of_step hslash, run_cons_of_step hend, run_nil]

/-- The tag that ends an element puts it into the element around it, where a line ends. -/
theorem run_endTag (text : List Char) (children : List Tree) :
    (within ⟨tagRead name as, text, children⟩ (f :: fs)).run (endTag name) =
      some (within { f with
        text := f.text ++ ['\n']
        children := f.children ++ [⟨name, as.map Attribute.read, String.ofList text, children⟩] } fs) := by
  generalize hr : within ⟨tagRead name as, text, children⟩ (f :: fs) = r
  have hentity : r.entity = none := by
    rw [← hr]
    rfl
  have hbegin : r.step '<' = some (r.goOn .begun) := by
    rw [← hr]
    rfl
  have hslash : (r.goOn .begun).step '/' = some (r.goOn (.ending [])) := by
    simp [step, stepPlain, goOn, hentity]
  have hname : (r.goOn (.ending [])).run name.toList = some (r.goOn (.ending name.toList)) :=
    run_nameChars (fun _ _ h => step_ending hentity _ h) h.name.2
  have hend : (r.goOn (.ending name.toList)).step '>' = some (within { f with
      children := f.children ++ [⟨name, as.map Attribute.read, String.ofList text, children⟩] } fs) := by
    have hmark : isNameChar '>' = false := by decide
    rw [← hr]
    simp [step, stepPlain, goOn, leave?, insert, within, Frame.tree, tagRead, hmark]
  have hline := step_plain (inText_within { f with
    children := f.children ++ [⟨name, as.map Attribute.read, String.ofList text, children⟩] } fs)
    (c := '\n') (by decide)
  rw [endTag, List.cons_append, List.cons_append, run_cons_of_step hbegin, run_cons_of_step hslash,
    run_append_of_run hname, run_cons_of_step hend, run_cons_of_step hline, run_nil]
  rfl

end

end Reader

/-! ## Elements -/

/-- Blanks in front of so many elements, and the ends of lines behind them. -/
def gaps (level n : Nat) : List Char := (List.replicate n (margin level ++ ['\n'])).flatten

theorem gaps_add (level m n : Nat) : gaps level (m + n) = gaps level m ++ gaps level n := by
  rw [gaps, List.replicate_add, List.flatten_append]
  rfl

mutual
/-- What is read of an element. -/
def Element.tree (level : Nat) : Element → Tree
  | .empty name attributes => ⟨name, attributes.map Attribute.read, "", []⟩
  | .text name attributes content => ⟨name, attributes.map Attribute.read, kept content, []⟩
  | .parent name attributes children =>
    ⟨name, attributes.map Attribute.read,
      String.ofList ('\n' :: gaps (level + 1) children.length ++ margin level), childrenTrees (level + 1) children⟩
/-- What is read of several elements. -/
def childrenTrees (level : Nat) : List Element → List Tree
  | [] => []
  | e :: es => e.tree level :: childrenTrees level es
end

theorem childrenTrees_eq_map (level : Nat) (es : List Element) :
    childrenTrees level es = es.map (Element.tree level) := by
  induction es with
  | nil => rfl
  | cons e es ih => rw [childrenTrees, ih, List.map_cons]

/-- An element all of whose tags can be read. -/
inductive WellNamed : Element → Prop
  | empty {name : String} {as : List Attribute} :
    WellTagged name (as.map Attribute.name) → WellNamed (.empty name as)
  | text {name : String} {as : List Attribute} (content : String) :
    WellTagged name (as.map Attribute.name) → WellNamed (.text name as content)
  | parent {name : String} {as : List Attribute} {children : List Element} :
    WellTagged name (as.map Attribute.name) → (∀ e ∈ children, WellNamed e) → WellNamed (.parent name as children)

/-- An element into which others are put, each on lines of its own. -/
def Frame.put (f : Frame) (level : Nat) (ts : List Tree) : Frame :=
  { f with text := f.text ++ gaps level ts.length, children := f.children ++ ts }

theorem Frame.put_put (f : Frame) (level : Nat) (ts us : List Tree) :
    (f.put level ts).put level us = f.put level (ts ++ us) := by
  simp [Frame.put, gaps_add]

theorem isPlain_of_mem_margin {level : Nat} {c : Char} (h : c ∈ margin level) : Reader.IsPlain c := by
  rw [List.eq_of_mem_replicate h]
  decide

namespace Reader

theorem run_margin (f : Frame) (fs : List Frame) (level : Nat) :
    (within f fs).run (margin level) = some (within { f with text := f.text ++ margin level } fs) :=
  run_plain (inText_within f fs) fun _ => isPlain_of_mem_margin

theorem run_newline (f : Frame) (fs : List Frame) :
    (within f fs).run ['\n'] = some (within { f with text := f.text ++ ['\n'] } fs) :=
  run_plain (inText_within f fs) (by simp [IsPlain])

/-- Elements are read one after the other if each of them is. -/
theorem run_childrenChars {level : Nat} {es : List Element}
    (h : ∀ e ∈ es, ∀ f fs, (within f fs).run (e.chars level) = some (within (f.put level [e.tree level]) fs))
    (f : Frame) (fs : List Frame) :
    (within f fs).run (childrenChars level es) = some (within (f.put level (childrenTrees level es)) fs) := by
  induction es generalizing f with
  | nil => simp [childrenChars, childrenTrees, Frame.put, gaps]
  | cons e es ih =>
    rw [childrenChars, run_append_of_run (h e (by simp) f fs), ih (fun e' he' => h e' (by simp [he'])),
      Frame.put_put]
    rfl

/-- An element is read as one element of the one that is open. -/
theorem run_element {e : Element} (h : WellNamed e) (level : Nat) (f : Frame) (fs : List Frame) :
    (within f fs).run (e.chars level) = some (within (f.put level [e.tree level]) fs) := by
  induction h generalizing level f fs with
  | @empty name as htagged =>
    have hlayout : (Element.empty name as).chars level =
        margin level ++ ((tag name as ++ ['/', '>']) ++ ['\n']) := by
      simp [Element.chars]
    rw [hlayout, run_append_of_run (run_margin f fs level), run_append_of_run (run_empty _ fs htagged),
      run_newline]
    simp [Frame.put, gaps, Element.tree]
  | @text name as content htagged =>
    have hlayout : (Element.text name as content).chars level =
        margin level ++ ((tag name as ++ ['>']) ++ (escape content ++ endTag name)) := by
      simp [Element.chars]
    have hcontent (fs' : List Frame) : (within ⟨tagRead name as, [], []⟩ fs').run (escape content) =
        some (within ⟨tagRead name as, (kept content).toList, []⟩ fs') := by
      rw [run_escape (inText_within _ fs'), within, add_content]
      simp [within]
    rw [hlayout, run_append_of_run (run_margin f fs level), run_append_of_run (run_opening _ fs htagged),
      run_append_of_run (hcontent _)]
    refine (run_endTag _ fs htagged _ _).trans ?_
    simp [Frame.put, gaps, Element.tree]
  | @parent name as children htagged hchildren ih =>
    have hlayout : (Element.parent name as children).chars level =
        margin level ++ ((tag name as ++ ['>']) ++ (['\n'] ++ (childrenChars (level + 1) children ++
          (margin level ++ endTag name)))) := by
      simp [Element.chars]
    have hread := run_childrenChars fun e he f fs => ih e he (level + 1) f fs
    rw [hlayout, run_append_of_run (run_margin f fs level), run_append_of_run (run_opening _ fs htagged),
      run_append_of_run (run_newline _ _), run_append_of_run (hread _ _), run_append_of_run (run_margin _ _ level)]
    refine (run_endTag _ fs htagged _ _).trans ?_
    simp [Frame.put, gaps, Element.tree, childrenTrees_eq_map]

theorem run_declaration : start.run declaration.toList = some (within ⟨⟨[], []⟩, ['\n'], []⟩ []) := by
  rfl

end Reader

/-- A document is read as the tree of its element: nothing that its texts hold begins or ends a tag or an
attribute. -/
theorem read?_document {e : Element} (h : WellNamed e) : read? (document e) = some (e.tree 0) := by
  rw [read?, document, String.toList_ofList, Reader.run_append_of_run Reader.run_declaration,
    Reader.run_element h 0, Option.bind_some]
  rfl

/-! ## What is read without texts -/

/-- Attributes without values. -/
def unset (keys : List String) : List (String × String) := keys.map fun key => (key, "")

mutual
/-- A tree without texts and values. -/
def Tree.outline : Tree → Tree
  | ⟨name, attributes, _, children⟩ => ⟨name, unset (attributes.map Prod.fst), "", outlines children⟩
/-- Several trees without texts and values. -/
def outlines : List Tree → List Tree
  | [] => []
  | t :: ts => t.outline :: outlines ts
end

theorem outlines_eq_map (ts : List Tree) : outlines ts = ts.map Tree.outline := by
  induction ts with
  | nil => rfl
  | cons t ts ih => rw [outlines, ih, List.map_cons]

/-- A text that has no character to drop is read as it is. -/
theorem kept_eq_self {s : String} (h : ∀ c ∈ s.toList, isDropped c = false) : kept s = s := by
  rw [kept, List.filter_eq_self.2 fun c hc => by simp [h c hc], String.ofList_toList]

end Covenant.Xml
