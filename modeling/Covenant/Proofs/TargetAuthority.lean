import Covenant.Proofs.JoinedUrls
import Covenant.Proofs.PercentOctets
import Covenant.Settings

/-!
# The service that requests go to

The path of a contract is put behind the base URL as text, and the whole is read again. What names the service
still ends where it ends in the base URL.

* `Host.not_parse_of_margin`, `Url.not_readAuthority_of_margin`: no blank or control at the end of a host or a
  port is accepted;
* `Url.authorityText_append_path`, `Url.readAuthority_append_path`: the authority once there is a path behind it;
* `Request.target_authority`: the URL of a request has the scheme and the authority of the base URL.
-/

namespace Covenant

open Covenant.Text

theorem Url.ne_of_isMargin {c d : Char} (h : isMargin c = true) (hd : isMargin d = false) : c ≠ d := by
  rintro rfl
  rw [hd] at h
  cases h

/-! ## Hosts with margins -/

theorem Domain.fold_of_isMargin {c : Char} (h : Url.isMargin c = true) : fold c = [c] := by
  have hle : c.toNat ≤ 0x20 := of_decide_eq_true h
  have hshown : isHidden c = false := by
    simp only [isHidden, Bool.or_eq_false_iff, decide_eq_false_iff_not, Bool.and_eq_false_iff]
    omega
  have hlower : lower c = c := by
    have hupper : ¬ ('A' ≤ c ∧ c ≤ 'Z') := by
      intro hAZ
      have hA : 65 ≤ c.toNat := hAZ.1
      omega
    rw [lower, if_pos (by omega), lowerAscii, if_neg hupper]
  rw [fold, hshown, if_neg (by simp), if_neg (by simp; omega), if_neg (by simp; omega), hlower]

/-- No name has blanks or controls. -/
theorem Domain.ascii?_eq_none {c : Char} (h : Url.isMargin c = true) {cs : List Char} (hmem : c ∈ cs) :
    ascii? cs = none := by
  have hle : c.toNat ≤ 0x20 := of_decide_eq_true h
  have hfolded : c ∈ cs.flatMap fold := List.mem_flatMap.2 ⟨c, hmem, by simp [fold_of_isMargin h]⟩
  have hbad : (cs.flatMap fold).any (fun c => isForbidden c || isDisallowed c) = true :=
    List.any_eq_true.2 ⟨c, hfolded, by simp [isForbidden, hle]⟩
  rw [ascii?]
  exact if_pos hbad

/-- A blank or control is no part of an encoded octet, so it stays in a name. -/
theorem Host.mem_name_of_margin {c : Char} (h : Url.isMargin c = true) {cs ds : List Char} (hmem : c ∈ cs)
    (hds : decode? (Percent.decode cs) = some ds) : c ∈ ds := by
  have hle : c.toNat ≤ 0x20 := of_decide_eq_true h
  have hoctet : Text.encodeChar c = [c.toNat.toUInt8] := if_pos (by omega)
  have hvalue : c.toNat.toUInt8.toNat = c.toNat := toNat_toUInt8 (by omega)
  have hmark : c ≠ '%' := Url.ne_of_isMargin h (by decide)
  have hdigit : Percent.hexValue? c = none := by
    rw [Percent.hexValue?, if_neg (by omega), if_neg (by omega), if_neg (by omega)]
  have hin : c.toNat.toUInt8 ∈ Percent.decode cs := Percent.mem_decode hmem hmark hdigit (by simp [hoctet])
  have hchar := mem_of_decode? hds (by omega) hin
  rwa [hvalue, Char.ofNat_toNat] at hchar

/-- A host does not end with a blank or control. -/
theorem Host.not_parse_of_margin {c : Char} (h : Url.isMargin c = true) (cs : List Char) (host : Host) :
    Host.parse (cs ++ [c]) ≠ .ok host := by
  rw [Host.parse]
  split
  · have hbracket : c ≠ ']' := Url.ne_of_isMargin h (by decide)
    rw [bracketed, List.getLast?_concat, if_neg (by simpa using hbracket)]
    simp
  · have hnone : (decode? (Percent.decode (cs ++ [c]))).bind Domain.ascii? = none := by
      cases hds : decode? (Percent.decode (cs ++ [c])) with
      | none => rfl
      | some ds => exact Domain.ascii?_eq_none h (mem_name_of_margin h (by simp) hds)
    rw [hnone]
    simp

namespace Url

/-! ## Authorities with margins -/

theorem splitUser_concat {c : Char} (hc : c ≠ '@') (cs : List Char) :
    ∃ user rest, splitUser (cs ++ [c]) = (user, rest ++ [c]) := by
  have hlast : ((cs ++ [c]).reverse.takeWhile (· ≠ '@')).reverse =
      (cs.reverse.takeWhile (· ≠ '@')).reverse ++ [c] := by
    simp [hc]
  rw [splitUser, hlast]
  split
  · exact ⟨none, cs, rfl⟩
  · exact ⟨_, _, rfl⟩

theorem splitPort_concat {c : Char} (hc : c ≠ ':') (inside : Bool) (cs : List Char) :
    (∃ host, splitPort inside (cs ++ [c]) = (host ++ [c], none)) ∨
      ∃ host port, splitPort inside (cs ++ [c]) = (host, some (port ++ [c])) := by
  induction cs generalizing inside with
  | nil => exact .inl ⟨[], by simp [splitPort, hc]⟩
  | cons d cs ih =>
    rw [List.cons_append, splitPort]
    split
    · exact .inr ⟨[], cs, rfl⟩
    · obtain ⟨host, hsplit⟩ | ⟨host, port, hsplit⟩ :=
        ih (if d = '[' then true else if d = ']' then false else inside)
      · rw [hsplit]
        exact .inl ⟨d :: host, rfl⟩
      · rw [hsplit]
        exact .inr ⟨d :: host, port, rfl⟩

/-- A port does not end with a blank or control. -/
theorem readPort_of_margin {c : Char} (h : isMargin c = true) (scheme : String) (cs : List Char) :
    readPort scheme (cs ++ [c]) = .error .invalidPort := by
  have hle : c.toNat ≤ 0x20 := of_decide_eq_true h
  have hdigit : isDigit c = false := by
    rw [isDigit, Bool.and_eq_false_iff]
    refine .inl (decide_eq_false fun hzero => ?_)
    have hzero' : 48 ≤ c.toNat := hzero
    omega
  have hnone : Decimal.naturalOf? (cs ++ [c]) = none := by simp [Decimal.naturalOf?, hdigit]
  rw [readPort, hnone]
  simp

/-- An authority of a special scheme does not end with a blank or control. -/
theorem not_readAuthority_of_margin {c : Char} (h : isMargin c = true) {scheme : String}
    (hkind : kindOf scheme = .special) (cs : List Char) (a : Authority) :
    readAuthority scheme (cs ++ [c]) ≠ .ok a := by
  obtain ⟨user, rest, huser⟩ := splitUser_concat (ne_of_isMargin h (by decide)) cs
  rw [readAuthority, huser]
  dsimp only
  obtain ⟨host, hsplit⟩ | ⟨host, port, hsplit⟩ :=
    splitPort_concat (ne_of_isMargin h (by decide)) false rest
  · rw [hsplit]
    cases hparse : Host.parse (host ++ [c]) with
    | error e => simp [hkind, bind, Except.bind]
    | ok parsed => exact absurd hparse (Host.not_parse_of_margin h host parsed)
  · rw [hsplit]
    simp only [hkind, Option.getD_some, readPort_of_margin h]
    split
    · simp
    · cases Host.parse host <;> simp [bind, Except.bind]

example : readAuthority "http" "localhost ".toList = .error .invalidDomain := by decide +kernel

/-! ## Where the authority ends -/

/-- The text of the authority behind the colon of a special scheme. -/
def authorityText (cs : List Char) : List Char :=
  (cs.dropWhile (isSlash .special)).takeWhile fun c => !endsAuthority .special c

/-- A URL of a special scheme has the authority that its text contains. -/
theorem authority_of_ofScheme {scheme : String} (hkind : kindOf scheme = .special) {cs : List Char} {u : Url}
    (h : ofScheme scheme cs = .ok u) :
    ∃ a, u.authority = some a ∧ readAuthority scheme (authorityText cs) = .ok a := by
  unfold ofScheme at h
  rw [hkind] at h
  obtain ⟨a, hread, rfl⟩ := withAuthority_eq_ok h
  rw [hkind] at hread
  exact ⟨a, rfl, hread⟩

theorem ne_nil_of_readAuthority {scheme : String} (hkind : kindOf scheme = .special) {cs : List Char}
    {a : Authority} (h : readAuthority scheme cs = .ok a) : cs ≠ [] := by
  rintro rfl
  simp [readAuthority, splitUser, splitPort, hkind] at h

/-- Slashes at the end are no part of the authority. -/
theorem authorityText_append_slashes (cs : List Char) {slashes : List Char} (h : ∀ c ∈ slashes, c = '/') :
    authorityText (cs ++ slashes) = authorityText cs := by
  have hdrop : slashes.dropWhile (isSlash .special) = [] := by
    refine List.dropWhile_eq_nil_iff.2 fun c hc => ?_
    rw [h c hc]
    decide
  have htake : slashes.takeWhile (fun c => !endsAuthority .special c) = [] := by
    cases slashes with
    | nil => rfl
    | cons c slashes =>
      obtain rfl : c = '/' := h c List.mem_cons_self
      rfl
  rw [authorityText, authorityText, List.dropWhile_append]
  split
  · rename_i hempty
    rw [hdrop, List.isEmpty_iff.1 hempty]
  · rw [List.takeWhile_append, htake, List.append_nil]
    split
    · rename_i hall
      exact ((List.takeWhile_prefix _).eq_of_length hall).symm
    · rfl

/-- A path behind a text with an authority leaves the authority as it is, but for margins in front of the path. -/
theorem authorityText_append_path {cs : List Char} (hcs : authorityText cs ≠ []) {margins : List Char}
    (h : ∀ c ∈ margins, isMargin c = true) (path : List Char) :
    authorityText (cs ++ (margins ++ '/' :: path)) = authorityText cs ∨
      authorityText (cs ++ (margins ++ '/' :: path)) = authorityText cs ++ margins := by
  have hnonempty : (cs.dropWhile (isSlash .special)).isEmpty = false := by
    rw [List.isEmpty_eq_false_iff]
    intro hnil
    rw [authorityText, hnil] at hcs
    exact hcs rfl
  have hinside : ∀ c ∈ margins, (!endsAuthority .special c) = true := by
    intro c hc
    have hne {d : Char} (hd : isMargin d = false) : c ≠ d := ne_of_isMargin (h c hc) hd
    simp [endsAuthority, isSlash, hne (show isMargin '/' = false by decide),
      hne (show isMargin '\\' = false by decide), hne (show isMargin '?' = false by decide),
      hne (show isMargin '#' = false by decide)]
  have htake : (margins ++ '/' :: path).takeWhile (fun c => !endsAuthority .special c) = margins := by
    rw [List.takeWhile_append_of_pos hinside]
    exact List.append_nil margins
  rw [authorityText, authorityText, List.dropWhile_append, hnonempty, if_neg (by simp), List.takeWhile_append, htake]
  -- The authority goes on up to the slash of the path if nothing ends it before.
  split
  · rename_i hall
    rw [(List.takeWhile_prefix _).eq_of_length hall]
    exact .inr rfl
  · exact .inl rfl

/-- An authority that is accepted with a path behind it is the one that is accepted without. -/
theorem readAuthority_append_path {scheme : String} (hkind : kindOf scheme = .special)
    {cs margins path : List Char} (hmargins : ∀ c ∈ margins, isMargin c = true) {a a' : Authority}
    (h : readAuthority scheme (authorityText cs) = .ok a)
    (h' : readAuthority scheme (authorityText (cs ++ (margins ++ '/' :: path))) = .ok a') : a' = a := by
  obtain hsame | hmore := authorityText_append_path (ne_nil_of_readAuthority hkind h) hmargins path
  · rw [hsame, h] at h'
    exact (Except.ok.inj h').symm
  · obtain rfl | ⟨before, c, rfl⟩ := List.eq_nil_or_concat margins
    · rw [hmore, List.append_nil, h] at h'
      exact (Except.ok.inj h').symm
    · rw [hmore, List.concat_eq_append, ← List.append_assoc] at h'
      exact absurd h' (not_readAuthority_of_margin (hmargins c (by simp)) hkind _ _)

end Url

namespace Settings

/-- Settings that can be used have a base URL with a special scheme. -/
theorem parse_of_fault? {s : Settings} (h : s.fault? = none) :
    ∃ b, Url.parse s.baseUrl = .ok b ∧ Url.kindOf b.scheme = .special := by
  rw [fault?] at h
  cases hb : Url.parse s.baseUrl with
  | error e =>
    rw [hb] at h
    cases h
  | ok b =>
    rw [hb] at h
    refine ⟨b, rfl, ?_⟩
    by_cases hhttp : b.scheme = "http"
    · rw [hhttp]
      decide
    · by_cases hhttps : b.scheme = "https"
      · rw [hhttps]
        decide
      · simp [hhttp, hhttps] at h

end Settings

namespace Request

/-- No path and no parameters direct a request elsewhere: its URL has the scheme, user, host and port that the base
URL has alone. -/
theorem target_authority {s : Settings} (hs : s.fault? = none) {r : Request} {u : Url}
    (h : r.target s.baseUrl = .ok u) :
    ∃ b a, Url.parse s.baseUrl = .ok b ∧ u.scheme = b.scheme ∧ b.authority = some a ∧ u.authority = some a := by
  obtain ⟨b, hb, hkind⟩ := Settings.parse_of_fault? hs
  obtain ⟨own, hown, -, rfl⟩ := target_eq_ok h
  obtain ⟨scheme, rest, hscheme, hname, hrest⟩ := Url.parse_eq_ok hb
  obtain ⟨a, ha, hread⟩ := Url.authority_of_ofScheme hkind hrest
  obtain ⟨cs, slashes, margins, rfl, hjoined, hslashes, hmargins⟩ := Url.exists_behind_scheme hscheme
  rw [Url.authorityText_append_slashes cs hslashes] at hread
  obtain ⟨scheme', rest', hscheme', hname', hrest'⟩ := Url.parse_eq_ok hown
  rw [clean_joinedText, hjoined] at hscheme'
  cases hscheme'
  have hsame : own.scheme = b.scheme := hname'.trans hname.symm
  obtain ⟨a', ha', hread'⟩ := Url.authority_of_ofScheme (hsame ▸ hkind) hrest'
  obtain ⟨path, hpath⟩ := exists_clean_rootedPath r
  rw [hpath, hsame] at hread'
  have heq : a' = a := Url.readAuthority_append_path hkind hmargins hread hread'
  have hquery := eq_withQuery_appended r.pairs? own
  exact ⟨b, a, hb, (congrArg Url.scheme hquery).trans hsame, ha, (congrArg Url.authority hquery).trans (heq ▸ ha')⟩

/-- A path with slashes of both kinds, an at sign, a tab and steps upwards, right behind the port. -/
theorem target_authority_hostilePath :
    let s : Settings := ⟨"http://user:pw@localhost:8080//", 5000, 8, false⟩
    let r : Request := ⟨"\\\\@evil.example:1/..//\t../x", .get, none, some [⟨"host", .string "@evil.example"⟩], none⟩
    let service : Authority := ⟨"user", "pw", .name "localhost", some 8080⟩
    let b : Url := ⟨"http", some service, .segments ["", ""], none, none⟩
    let u : Url := ⟨"http", some service, .segments ["", "", "x"], some "host=%40evil.example", none⟩
    s.fault? = none ∧ Url.parse s.baseUrl = .ok b ∧ r.target s.baseUrl = .ok u ∧
      u.scheme = b.scheme ∧ u.authority = b.authority := by
  intro s r service b u
  have hs : s.fault? = none := by decide +kernel
  have hb : Url.parse s.baseUrl = .ok b := by decide +kernel
  have hu : r.target s.baseUrl = .ok u := by decide +kernel
  obtain ⟨b', a, hb', hscheme, ha, hau⟩ := target_authority hs hu
  cases hb.symm.trans hb'
  exact ⟨hs, hb, hu, hscheme, hau.trans ha.symm⟩

end Request

end Covenant
