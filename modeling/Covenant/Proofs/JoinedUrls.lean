import Covenant.Exchange.Target
import Mathlib.Data.List.TakeWhile

/-!
# URLs of a base with a path behind it

How the text of a base URL and a path are cut into parts once they are one text.

* `clean_append_cons`: a text is cleaned up to a character that no cleaning takes away, and from there on;
* `exists_clean_base`: what the text of a base URL and the text with a path behind it have in common;
* `splitScheme?_eq_some_iff`: the scheme of a text;
* `Reads`, `reads_parse`: query and fragment of a URL are cut from its whole text;
* `Request.clean_joinedText`: the text of the URL of a request;
* `Request.target_eq_ok`: the URL of a request is that of its path with the parameters appended.
-/

namespace Covenant.Url

open Covenant.Text

/-! ## Cleaned texts -/

/-- A text without tabs and line breaks. -/
def withoutBreaks (cs : List Char) : List Char :=
  cs.filter fun c => c ≠ '\t' && c ≠ '\n' && c ≠ '\r'

/-- What is left of a text at the start of a longer one. -/
def cleanStart (cs : List Char) : List Char := withoutBreaks (cs.dropWhile isMargin)

theorem dropWhile_append_cons {p : Char → Bool} {c : Char} (hc : p c = false) (cs ds : List Char) :
    (cs ++ c :: ds).dropWhile p = cs.dropWhile p ++ c :: ds := by
  rw [List.dropWhile_append]
  split
  · rename_i hempty
    rw [List.isEmpty_iff.1 hempty, List.dropWhile_cons, hc]
    rfl
  · rfl

/-- A text is cleaned up to a character that is no margin, and from there on. -/
theorem clean_append_cons {c : Char} (hc : isMargin c = false) (cs ds : List Char) :
    clean (cs ++ c :: ds) = cleanStart cs ++ clean (c :: ds) := by
  have hstart : (c :: ds).dropWhile isMargin = c :: ds := List.dropWhile_cons_of_neg (by simp [hc])
  have hend (es : List Char) : (es ++ c :: ds).reverse.dropWhile isMargin =
      ds.reverse.dropWhile isMargin ++ c :: es.reverse := by
    rw [List.reverse_append, List.reverse_cons, List.append_assoc, List.singleton_append,
      dropWhile_append_cons hc]
  have hself := hend []
  rw [List.nil_append] at hself
  rw [clean, clean, cleanStart, withoutBreaks, dropWhile_append_cons hc, hend, hstart, hself]
  simp

/-- A text that starts with a character that is no margin still does so when it is cleaned. -/
theorem exists_clean_cons {c : Char} (hc : isMargin c = false) (cs : List Char) :
    ∃ ds, clean (c :: cs) = c :: ds := by
  have hstart : (c :: cs).dropWhile isMargin = c :: cs := List.dropWhile_cons_of_neg (by simp [hc])
  have hkept {d : Char} (hd : isMargin d = true) : c ≠ d := by
    rintro rfl
    rw [hc] at hd
    cases hd
  rw [clean, hstart, List.reverse_cons, dropWhile_append_cons hc, List.reverse_append, List.reverse_singleton,
    List.singleton_append, List.filter_cons_of_pos]
  · exact ⟨_, rfl⟩
  · simp [hkept (show isMargin '\t' = true by decide), hkept (show isMargin '\n' = true by decide),
      hkept (show isMargin '\r' = true by decide)]

/-- Slashes are not cleaned away. -/
theorem clean_slashes {cs : List Char} (h : ∀ c ∈ cs, c = '/') : clean cs = cs := by
  have hdrop {ds : List Char} (hds : ∀ c ∈ ds, c = '/') : ds.dropWhile isMargin = ds := by
    cases ds with
    | nil => rfl
    | cons d ds =>
      obtain rfl : d = '/' := hds d List.mem_cons_self
      rfl
  rw [clean, hdrop h, hdrop (by simpa using h), List.reverse_reverse, List.filter_eq_self]
  intro c hc
  rw [h c hc]
  decide

/-- A text and what is taken from its end. -/
theorem exists_dropEnd (p : Char → Bool) (cs : List Char) :
    ∃ ends, cs = (cs.reverse.dropWhile p).reverse ++ ends ∧ ∀ c ∈ ends, p c = true := by
  refine ⟨(cs.reverse.takeWhile p).reverse, ?_, fun c hc => ?_⟩
  · rw [← List.reverse_append, List.takeWhile_append_dropWhile, List.reverse_reverse]
  · exact List.mem_takeWhile_imp (List.mem_reverse.1 hc)

/-- The text of a base URL, and what is left of it in front of a path. They differ by the slashes at the end of
the one or by the margins at the end of the other. -/
theorem exists_clean_base (base : String) : ∃ cs slashes margins : List Char,
    clean base.toList = cs ++ slashes ∧ cleanStart (trimBase base) = cs ++ margins ∧
      (∀ c ∈ slashes, c = '/') ∧ ∀ c ∈ margins, isMargin c = true := by
  obtain ⟨slashes, hbase, hslashes⟩ := exists_dropEnd (· = '/') base.toList
  rw [← trimBase] at hbase
  simp only [decide_eq_true_eq] at hslashes
  cases slashes with
  | nil =>
    -- No slash is taken away, so margins at the end come to stand in front of the path.
    obtain ⟨margins, hends, hmargins⟩ := exists_dropEnd isMargin ((trimBase base).dropWhile isMargin)
    refine ⟨clean base.toList, [], withoutBreaks margins, (List.append_nil _).symm, ?_, by simp, ?_⟩
    · rw [hbase, List.append_nil]
      exact (congrArg withoutBreaks hends).trans (List.filter_append _ _)
    · exact fun c hc => hmargins c (List.mem_filter.1 hc).1
  | cons c slashes =>
    obtain rfl : c = '/' := hslashes c List.mem_cons_self
    refine ⟨cleanStart (trimBase base), '/' :: slashes, [], ?_, (List.append_nil _).symm, hslashes, by simp⟩
    rw [hbase, clean_append_cons (by decide), clean_slashes hslashes]

/-! ## Schemes -/

theorem splitScheme?_eq_some_iff {cs scheme rest : List Char} :
    splitScheme? cs = some (scheme, rest) ↔
      ∃ name, cs = name ++ ':' :: rest ∧ (∀ c ∈ name, isSchemeChar c = true) ∧
        name.head?.any isLetter = true ∧ scheme = name.map lowerAscii := by
  rw [splitScheme?]
  constructor
  · intro h
    split at h
    · rename_i behind hdrop
      have hcs : cs.takeWhile isSchemeChar ++ ':' :: behind = cs := by
        rw [← hdrop, List.takeWhile_append_dropWhile]
      split at h
      · rename_i hletter
        obtain ⟨rfl, rfl⟩ := Prod.mk.inj (Option.some.inj h)
        refine ⟨cs.takeWhile isSchemeChar, hcs.symm, fun c hc => List.mem_takeWhile_imp hc, ?_, rfl⟩
        cases hname : cs.takeWhile isSchemeChar with
        | nil =>
          rw [← hcs, hname] at hletter
          exact hletter
        | cons c name =>
          rw [← hcs, hname] at hletter
          exact hletter
      · exact absurd h (by simp)
    · exact absurd h (by simp)
  · intro h
    obtain ⟨name, rfl, hname, hletter, rfl⟩ := h
    have hdrop : (name ++ ':' :: rest).dropWhile isSchemeChar = ':' :: rest :=
      List.dropWhile_append_of_pos hname
    have htake : (name ++ ':' :: rest).takeWhile isSchemeChar = name := by
      rw [List.takeWhile_append_of_pos hname]
      exact List.append_nil name
    have hhead : (name ++ ':' :: rest).head?.any isLetter = true := by
      cases name with
      | nil => exact absurd hletter (by simp)
      | cons c name => exact hletter
    rw [hdrop, htake]
    exact if_pos hhead

/-- A base URL has the scheme that it has with a path behind it, and what stands behind the scheme starts alike. -/
theorem exists_behind_scheme {base : String} {scheme rest : List Char}
    (h : splitScheme? (clean base.toList) = some (scheme, rest)) :
    ∃ cs slashes margins : List Char, rest = cs ++ slashes ∧
      (∀ path, splitScheme? (cleanStart (trimBase base) ++ path) = some (scheme, cs ++ (margins ++ path))) ∧
      (∀ c ∈ slashes, c = '/') ∧ ∀ c ∈ margins, isMargin c = true := by
  obtain ⟨cs, slashes, margins, hclean, hstart, hslashes, hmargins⟩ := exists_clean_base base
  obtain ⟨name, hcs, hname, hletter, hscheme⟩ := splitScheme?_eq_some_iff.1 h
  have hcolon : ':' ∉ slashes := fun hmem => absurd (hslashes _ hmem) (by decide)
  rw [hclean, List.append_eq_append_iff] at hcs
  obtain ⟨ds, -, hds⟩ | ⟨ds, hds, hrest⟩ := hcs
  · exact absurd (by simp [hds]) hcolon
  · cases ds with
    | nil =>
      rw [List.nil_append] at hrest
      exact absurd (by simp [← hrest]) hcolon
    | cons d ds =>
      obtain ⟨rfl, rfl⟩ := List.cons.inj hrest
      refine ⟨ds, slashes, margins, rfl, fun path => ?_, hslashes, hmargins⟩
      refine splitScheme?_eq_some_iff.2 ⟨name, ?_, hname, hletter, hscheme⟩
      rw [hstart, hds]
      simp

/-! ## Query and fragment -/

/-- The text of the fragment that a text contains. -/
def fragmentText? (cs : List Char) : Option (List Char) := (cut '#' cs).2

/-- The text of the query that a text contains. -/
def queryText? (cs : List Char) : Option (List Char) := (cut '?' (cut '#' cs).1).2

/-- A text without the marks in front of a query and a fragment. -/
def NoMarks (cs : List Char) : Prop := '#' ∉ cs ∧ '?' ∉ cs

theorem noMarks_of_forall {p : Char → Bool} {cs : List Char} (h : ∀ c ∈ cs, p c = true)
    (hmark : p '#' = false) (hquery : p '?' = false) : NoMarks cs := by
  constructor
  · intro hmem
    exact absurd (h _ hmem) (by simp [hmark])
  · intro hmem
    exact absurd (h _ hmem) (by simp [hquery])

theorem cut_append {sep : Char} {cs : List Char} (h : sep ∉ cs) (ds : List Char) :
    cut sep (cs ++ ds) = (cs ++ (cut sep ds).1, (cut sep ds).2) := by
  rw [cut, cut]
  cases hds : splitFirst? sep ds with
  | none =>
    have hnone : splitFirst? sep (cs ++ ds) = none :=
      splitFirst?_eq_none_iff.2 (by simp [h, splitFirst?_eq_none_iff.1 hds])
    rw [hnone]
  | some x =>
    obtain ⟨hno, hparts⟩ := splitFirst?_eq_some_iff.1 hds
    have hsome : splitFirst? sep (cs ++ ds) = some (cs ++ x.1, x.2) :=
      splitFirst?_eq_some_iff.2 ⟨by simp [h, hno], by rw [hparts, List.append_assoc]⟩
    rw [hsome]

theorem fragmentText?_append {cs : List Char} (h : NoMarks cs) (ds : List Char) :
    fragmentText? (cs ++ ds) = fragmentText? ds := by
  rw [fragmentText?, cut_append h.1]
  rfl

theorem queryText?_append {cs : List Char} (h : NoMarks cs) (ds : List Char) :
    queryText? (cs ++ ds) = queryText? ds := by
  rw [queryText?, cut_append h.1, cut_append h.2]
  rfl

theorem noMarks_of_none {cs : List Char} (hfragment : fragmentText? cs = none) (hquery : queryText? cs = none) :
    NoMarks cs := by
  have hcut {sep : Char} {ds : List Char} (h : (cut sep ds).2 = none) : sep ∉ ds ∧ cut sep ds = (ds, none) := by
    rw [cut] at h ⊢
    cases hds : splitFirst? sep ds with
    | none => exact ⟨splitFirst?_eq_none_iff.1 hds, rfl⟩
    | some x =>
      rw [hds] at h
      cases h
  obtain ⟨hmark, hall⟩ := hcut hfragment
  rw [queryText?, hall] at hquery
  exact ⟨hmark, (hcut hquery).1⟩

/-- A URL of a scheme whose query and fragment are those that a text contains, in encoded form. -/
structure Reads (u : Url) (scheme : String) (cs : List Char) : Prop where
  scheme_eq : u.scheme = scheme
  query : u.query = (queryText? cs).map (encodeQuery (kindOf scheme))
  fragment : u.fragment = (fragmentText? cs).map encodeFragment

/-- What comes in front of a text does not matter if it has no marks. -/
theorem reads_append_iff {u : Url} {scheme : String} {cs : List Char} (hcs : NoMarks cs) (ds : List Char) :
    u.Reads scheme (cs ++ ds) ↔ u.Reads scheme ds := by
  constructor
  · intro h
    exact ⟨h.scheme_eq, by rw [h.query, queryText?_append hcs], by rw [h.fragment, fragmentText?_append hcs]⟩
  · intro h
    exact ⟨h.scheme_eq, by rw [h.query, queryText?_append hcs], by rw [h.fragment, fragmentText?_append hcs]⟩

/-- What is passed over at the start of a text does not matter either. -/
theorem Reads.of_dropWhile {u : Url} {scheme : String} {p : Char → Bool} {cs : List Char}
    (h : u.Reads scheme (cs.dropWhile p)) (hmark : p '#' = false) (hquery : p '?' = false) :
    u.Reads scheme cs := by
  rw [← List.takeWhile_append_dropWhile (p := p) (l := cs)]
  have hpassed : NoMarks (cs.takeWhile p) :=
    noMarks_of_forall (fun c hc => List.mem_takeWhile_imp hc) hmark hquery
  exact (reads_append_iff hpassed _).2 h

theorem reads_ofParts (scheme : String) (authority : Option Authority) (path : List Char → UrlPath)
    (cs : List Char) : (ofParts scheme authority path cs).Reads scheme cs := ⟨rfl, rfl, rfl⟩

/-- A URL with an authority is made of the text up to the end of the authority and the text from there on. -/
theorem withAuthority_eq_ok {scheme : String} {cs : List Char} {read : List Char → Except UrlError Authority}
    {u : Url} (h : withAuthority scheme cs read = .ok u) :
    ∃ a, read (cs.takeWhile fun c => !endsAuthority (kindOf scheme) c) = .ok a ∧
      u = ofParts scheme (some a) (pathOf (kindOf scheme))
        (cs.dropWhile fun c => !endsAuthority (kindOf scheme) c) := by
  rw [withAuthority] at h
  cases hread : read (cs.takeWhile fun c => !endsAuthority (kindOf scheme) c) with
  | error e =>
    rw [hread] at h
    cases h
  | ok a =>
    rw [hread] at h
    cases h
    exact ⟨a, rfl, rfl⟩

theorem reads_withAuthority {scheme : String} {cs : List Char}
    {read : List Char → Except UrlError Authority} {u : Url} (h : withAuthority scheme cs read = .ok u) :
    u.Reads scheme cs := by
  obtain ⟨a, -, rfl⟩ := withAuthority_eq_ok h
  exact (reads_ofParts ..).of_dropWhile (by simp [endsAuthority]) (by simp [endsAuthority])

theorem reads_ofScheme {scheme : String} {cs : List Char} {u : Url} (h : ofScheme scheme cs = .ok u) :
    u.Reads scheme cs := by
  unfold ofScheme at h
  split at h
  · exact (reads_withAuthority h).of_dropWhile (by decide) (by decide)
  · split at h
    · rename_i htwo
      have hslashes : NoMarks (cs.take 2) :=
        noMarks_of_forall (List.all_eq_true.1 htwo.2) (by decide) (by decide)
      rw [← List.take_append_drop 2 cs]
      exact (reads_append_iff hslashes _).2 (reads_withAuthority h)
    · cases h
      exact reads_ofParts ..
  · split at h
    · rename_i rest
      have hslashes : NoMarks ['/', '/'] := by simp [NoMarks]
      exact (reads_append_iff hslashes rest).2 (reads_withAuthority h)
    · cases h
      have hslash : NoMarks ['/'] := by simp [NoMarks]
      exact (reads_append_iff hslash _).2 (reads_ofParts ..)
    · cases h
      exact reads_ofParts ..

/-- A URL that is read has a scheme, and comes of what stands behind that. -/
theorem parse_eq_ok {s : String} {u : Url} (h : parse s = .ok u) :
    ∃ scheme rest, splitScheme? (clean s.toList) = some (scheme, rest) ∧ u.scheme = String.ofList scheme ∧
      ofScheme u.scheme rest = .ok u := by
  rw [parse] at h
  split at h
  · rename_i scheme rest hscheme
    have hname : u.scheme = String.ofList scheme := (reads_ofScheme h).scheme_eq
    exact ⟨scheme, rest, hscheme, hname, hname ▸ h⟩
  · cases h

/-- The query and the fragment of a URL are cut from its text. -/
theorem reads_parse {s : String} {u : Url} (h : parse s = .ok u) : u.Reads u.scheme (clean s.toList) := by
  obtain ⟨scheme, rest, hscheme, -, hrest⟩ := parse_eq_ok h
  obtain ⟨name, hcs, hname, -, -⟩ := splitScheme?_eq_some_iff.1 hscheme
  have hcolon : NoMarks [':'] := by simp [NoMarks]
  have hmarks : NoMarks name := noMarks_of_forall hname (by decide) (by decide)
  rw [hcs]
  exact (reads_append_iff hmarks _).2 ((reads_append_iff hcolon rest).2 (reads_ofScheme hrest))

end Covenant.Url

namespace Covenant.Request

/-! ## Paths behind a base -/

variable {base : String} {r : Request}

theorem toList_rootedPath (r : Request) : ∃ cs, r.rootedPath.toList = '/' :: cs := by
  rw [rootedPath]
  split
  · rename_i hhead
    exact List.head?_eq_some_iff.1 hhead
  · exact ⟨r.path.toList, by simp⟩

theorem exists_clean_rootedPath (r : Request) : ∃ cs, Url.clean r.rootedPath.toList = '/' :: cs := by
  obtain ⟨cs, hcs⟩ := toList_rootedPath r
  rw [hcs]
  exact Url.exists_clean_cons (by decide) cs

/-- The text of the URL of a request before parameters are appended. -/
def joinedText (base : String) (r : Request) : String := String.ofList (trimBase base) ++ r.rootedPath

/-- The text of the URL is what is left of the base, and then the path. -/
theorem clean_joinedText (base : String) (r : Request) :
    Url.clean (joinedText base r).toList =
      Url.cleanStart (trimBase base) ++ Url.clean r.rootedPath.toList := by
  obtain ⟨cs, hcs⟩ := toList_rootedPath r
  rw [joinedText, String.toList_append, String.toList_ofList, hcs, Url.clean_append_cons (by decide)]

theorem target_of_parse {own : Url} (h : Url.parse (joinedText base r) = .ok own) :
    r.target base = .ok ((r.pairs?.map own.appendPairs).getD own) := by
  rw [joinedText] at h
  rw [target, h]
  cases r.pairs? <;> rfl

/-- The URL of a request is that of its path with the parameters appended. -/
theorem target_eq_ok {u : Url} (h : r.target base = .ok u) :
    ∃ own, Url.parse (joinedText base r) = .ok own ∧ { r with params := none }.target base = .ok own ∧
      u = (r.pairs?.map own.appendPairs).getD own := by
  cases hparse : Url.parse (joinedText base r) with
  | error e =>
    rw [joinedText] at hparse
    rw [target, hparse] at h
    cases h
  | ok own =>
    have hown : Url.parse (joinedText base { r with params := none }) = .ok own := hparse
    rw [target_of_parse hparse] at h
    exact ⟨own, rfl, target_of_parse hown, (Except.ok.inj h).symm⟩

/-- Parameters change nothing but the query. -/
theorem eq_withQuery_appended (ps : Option (List (String × String))) (own : Url) :
    (ps.map own.appendPairs).getD own = { own with query := ((ps.map own.appendPairs).getD own).query } := by
  cases ps <;> rfl

end Covenant.Request
