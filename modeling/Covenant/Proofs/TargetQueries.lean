import Covenant.Proofs.FormPairs
import Covenant.Proofs.JoinedUrls

/-!
# Parameters in the URL of a request

* `Url.pairs`: the pairs that a service reads from the query of a URL;
* `Request.reads_own`: a base URL without query and fragment leaves those of the path as they are;
* `Request.pairs_target`: the query has the pairs of the path's own query, then the declared parameters.
-/

namespace Covenant

/-- The pairs of names and values in the query of a URL. -/
def Url.pairs (u : Url) : List (String × String) := Form.decode (u.query.getD "").toList

@[simp] theorem Url.pairs_appendPairs (u : Url) (ps : List (String × String)) :
    (u.appendPairs ps).pairs = u.pairs ++ ps := by
  rw [Url.pairs, Url.appendPairs, Option.getD_some, String.toList_ofList, Form.decode_append]
  rfl

namespace Request

variable {base : String} {r : Request} {u b : Url}

/-- A base URL without query and fragment leaves those of the path as they are. -/
theorem reads_own {own : Url} (hb : Url.parse base = .ok b) (hquery : b.query = none)
    (hfragment : b.fragment = none) (h : Url.parse (joinedText base r) = .ok own) :
    own.Reads own.scheme (Url.clean r.rootedPath.toList) := by
  have hbase := Url.reads_parse hb
  have hnone : Url.NoMarks (Url.clean base.toList) := by
    refine Url.noMarks_of_none ?_ ?_
    · exact Option.map_eq_none_iff.1 (hbase.fragment.symm.trans hfragment)
    · exact Option.map_eq_none_iff.1 (hbase.query.symm.trans hquery)
  obtain ⟨cs, slashes, margins, hclean, hstart, -, hmargins⟩ := Url.exists_clean_base base
  have hmarks : Url.NoMarks (Url.cleanStart (trimBase base)) := by
    have hends : Url.NoMarks margins := Url.noMarks_of_forall hmargins (by decide) (by decide)
    rw [hclean] at hnone
    rw [hstart]
    simp_all [Url.NoMarks]
  have hown := Url.reads_parse h
  rw [clean_joinedText] at hown
  exact (Url.reads_append_iff hmarks _).1 hown

/-- The pairs that a service reads from the URL of a request are those of the path's own query, then the declared
parameters in their order with the texts of their values. All else is as it is without parameters. -/
theorem pairs_target (hb : Url.parse base = .ok b) (hquery : b.query = none) (hfragment : b.fragment = none)
    (h : r.target base = .ok u) :
    ∃ own, { r with params := none }.target base = .ok own ∧
      own.pairs = Form.decode ((Url.queryText? (Url.clean r.rootedPath.toList)).getD []) ∧
      own.fragment = (Url.fragmentText? (Url.clean r.rootedPath.toList)).map Url.encodeFragment ∧
      u.pairs = own.pairs ++ (r.params.getD []).map (fun p => (p.name, p.text)) ∧
      u = { own with query := u.query } := by
  obtain ⟨own, hparse, hown, rfl⟩ := target_eq_ok h
  have hmarks := reads_own hb hquery hfragment hparse
  refine ⟨own, hown, ?_, hmarks.fragment, ?_, ?_⟩
  · rw [Url.pairs, hmarks.query]
    cases Url.queryText? (Url.clean r.rootedPath.toList) with
    | none => rfl
    | some cs => exact Url.decode_encodeQuery _ cs
  · rw [pairs?]
    cases r.params with
    | none => exact (List.append_nil _).symm
    | some ps => exact Url.pairs_appendPairs ..
  · exact eq_withQuery_appended ..

/-- Marks in names and values, repeated names, and a query and a fragment of the path. -/
theorem pairs_target_search :
    let base := "http://localhost:8080/api/"
    let service : Authority := ⟨"", "", .name "localhost", some 8080⟩
    let r : Request := ⟨"search?tag=a%26b&tag=c+d#top of page", .get, none,
      some [⟨"q", .string "x&y=z+%41"⟩, ⟨"größe", .ofUInt16 7⟩, ⟨"q", .string "#?"⟩, ⟨"", .null⟩], none⟩
    let u : Url := ⟨"http", some service, .segments ["api", "search"],
      some "tag=a%26b&tag=c+d&q=x%26y%3Dz%2B%2541&gr%C3%B6%C3%9Fe=7&q=%23%3F&=null", some "top%20of%20page"⟩
    Url.parse base = .ok ⟨"http", some service, .segments ["api", ""], none, none⟩ ∧ r.target base = .ok u ∧
      u.pairs = [("tag", "a&b"), ("tag", "c d")] ++
        [("q", "x&y=z+%41"), ("größe", "7"), ("q", "#?"), ("", "null")] := by
  intro base service r u
  have hb : Url.parse base = .ok ⟨"http", some service, .segments ["api", ""], none, none⟩ := by decide +kernel
  have hu : r.target base = .ok u := by decide +kernel
  have hown : Form.decode ((Url.queryText? (Url.clean r.rootedPath.toList)).getD []) =
      [("tag", "a&b"), ("tag", "c d")] := by decide +kernel
  obtain ⟨own, -, hquery, -, hpairs, -⟩ := pairs_target hb rfl rfl hu
  rw [hquery, hown] at hpairs
  exact ⟨hb, hu, hpairs.trans (by decide +kernel)⟩

end Request

end Covenant
