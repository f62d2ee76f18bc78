import Covenant.Proofs.Keys
import Covenant.Text.Replace

/-!
# Templates of paths

The path of an API document is a template. Names in braces stand in it for what is filled in.

* `Text.replaceAll_append`, `Text.replaceAll_occurrence`: what replacing leaves and what it replaces;
* `OpenApi.Piece`: a piece of a template, a text or a hole;
* `OpenApi.replaceAll_pieces`: replacing a name in braces fills the holes of that name and leaves the others.
-/

namespace Covenant

namespace Text

section

variable {c : Char} {pattern by' : List Char}

theorem replaceFrom_length (xs cs : List Char) :
    replaceFrom pattern by' xs.length (xs ++ cs) = replaceFrom pattern by' 0 cs := by
  induction xs with
  | nil => rfl
  | cons x xs ih => exact ih

theorem replaceAll_cons_of_not_begins {cs : List Char} (h : ¬ pattern <+: c :: cs) :
    replaceAll pattern by' (c :: cs) = c :: replaceAll pattern by' cs := by
  rw [replaceAll, replaceFrom, if_neg (fun hprefix => h (List.isPrefixOf_iff_prefix.1 hprefix)), replaceAll]

/-- Where a pattern cannot begin, nothing is replaced. -/
theorem replaceAll_append {xs : List Char} (h : c ∉ xs) (cs : List Char) :
    replaceAll (c :: pattern) by' (xs ++ cs) = xs ++ replaceAll (c :: pattern) by' cs := by
  induction xs with
  | nil => rfl
  | cons x xs ih =>
    obtain ⟨hx, hxs⟩ := not_or.1 (mt List.mem_cons.2 h)
    have hprefix : ¬ c :: pattern <+: x :: (xs ++ cs) := fun hprefix => hx (List.cons_prefix_cons.1 hprefix).1
    rw [List.cons_append, replaceAll_cons_of_not_begins hprefix, ih hxs, List.cons_append]

theorem replaceAll_occurrence (cs : List Char) :
    replaceAll (c :: pattern) by' (c :: pattern ++ cs) = by' ++ replaceAll (c :: pattern) by' cs := by
  have hprefix : (c :: pattern).isPrefixOf (c :: (pattern ++ cs)) := List.isPrefixOf_iff_prefix.2 ⟨cs, rfl⟩
  rw [List.cons_append, replaceAll, replaceFrom, if_pos hprefix, List.length_cons, Nat.add_sub_cancel,
    replaceFrom_length, replaceAll]

end

end Text

namespace OpenApi

open Text

/-- A name in braces. -/
def segment (name : String) : List Char := '\x7b' :: name.toList ++ ['\x7d']

/-- Two names in braces begin alike only if they are the same. -/
theorem eq_of_prefix_segment {name n : String} {rest : List Char} (hname : '\x7d' ∉ name.toList)
    (hn : '\x7d' ∉ n.toList) (h : segment name <+: segment n ++ rest) : n = name := by
  obtain ⟨tail, htail⟩ := h
  have hnames : name.toList ++ '\x7d' :: tail = n.toList ++ '\x7d' :: rest := by
    simpa [segment] using htail
  have hstop {xs : List Char} (hxs : '\x7d' ∉ xs) : ∀ c ∈ xs, ¬ c = '\x7d' := by
    rintro c hc rfl
    exact hxs hc
  exact (String.toList_inj.1 (append_eq_of_stop (hstop hname) (hstop hn) (by simp) (by simp) hnames).1).symm

/-- A piece of a template. -/
inductive Piece where
  /-- What stands as it is. -/
  | text (cs : List Char)
  /-- What stands for a parameter. -/
  | hole (name : String)

namespace Piece

def chars : Piece → List Char
  | .text cs => cs
  | .hole name => segment name

/-- Braces enclose the names of holes and stand nowhere else, save that a text may have closing ones. -/
def IsPlain : Piece → Prop
  | .text cs => '\x7b' ∉ cs
  | .hole name => '\x7b' ∉ name.toList ∧ '\x7d' ∉ name.toList

/-- A piece with the holes of a name filled. -/
def fill (name : String) (by' : List Char) : Piece → Piece
  | .text cs => .text cs
  | .hole n => if n = name then .text by' else .hole n

theorem isPlain_fill {p : Piece} (h : p.IsPlain) (name : String) {by' : List Char} (hby : '\x7b' ∉ by') :
    (p.fill name by').IsPlain := by
  cases p with
  | text cs => exact h
  | hole n =>
    rw [fill]
    split
    · exact hby
    · exact h

end Piece

theorem replaceAll_piece {p : Piece} (hp : p.IsPlain) {name : String} (hname : '\x7d' ∉ name.toList)
    (by' rest : List Char) :
    replaceAll (segment name) by' (p.chars ++ rest) =
      (p.fill name by').chars ++ replaceAll (segment name) by' rest := by
  cases p with
  | text cs => exact replaceAll_append hp rest
  | hole n =>
    rw [Piece.fill]
    split
    · rename_i heq
      rw [heq]
      exact replaceAll_occurrence rest
    · rename_i hne
      have hprefix : ¬ segment name <+: '\x7b' :: (n.toList ++ ['\x7d'] ++ rest) := fun hprefix =>
        hne (eq_of_prefix_segment hname hp.2 hprefix)
      have hinner : '\x7b' ∉ n.toList ++ ['\x7d'] := by
        simpa using hp.1
      -- past the opening brace no other name can begin
      show replaceAll (segment name) by' ('\x7b' :: (n.toList ++ ['\x7d'] ++ rest)) = _
      rw [replaceAll_cons_of_not_begins hprefix]
      exact congrArg _ (replaceAll_append hinner rest)

/-- Replacing a name in braces fills the holes of that name. -/
theorem replaceAll_pieces {pieces : List Piece} (hpieces : ∀ p ∈ pieces, p.IsPlain) {name : String}
    (hname : '\x7d' ∉ name.toList) (by' : List Char) :
    replaceAll (segment name) by' (pieces.flatMap Piece.chars) =
      (pieces.map (Piece.fill name by')).flatMap Piece.chars := by
  induction pieces with
  | nil => rfl
  | cons p pieces ih =>
    obtain ⟨hp, hpieces⟩ := List.forall_mem_cons.1 hpieces
    rw [List.flatMap_cons, replaceAll_piece hp hname, ih hpieces, List.map_cons, List.flatMap_cons]

end OpenApi

end Covenant
