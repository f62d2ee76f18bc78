import Covenant.Text.Utf8
import Mathlib.Tactic.SplitIfs

/-!
# Octets that are decoded

* `decodeSteps_last`, `decodeSteps_next`: an octet in the range that a pending character allows;
* `beginChar_two`, `beginChar_three`, `beginChar_four`: what a first octet leaves pending;
* `decodeSteps_encodeChar`: the octets of a character decode to it, whatever follows;
* `decode?_encode`, `decodeLossy_encode`: the octets of a text decode to it;
* `mem_of_decode?`: octets of ASCII are never lost.
-/

namespace Covenant.Text

/-! ## Octets of one character -/

section

variable {least greatest bits : Nat} {b : UInt8}

/-- The last octet completes a pending character. -/
theorem decodeSteps_last (hleast : least ≤ b.toNat) (hgreatest : b.toNat ≤ greatest) (bs : List UInt8) :
    decodeSteps (some ⟨1, least, greatest, bits⟩) (b :: bs) =
      some (Char.ofNat (0x40 * bits + (b.toNat - 0x80))) :: decodeSteps none bs := by
  rw [decodeSteps, decodeStep, if_pos ⟨hleast, hgreatest⟩]
  rfl

/-- Any other octet adds its six bits to a pending character. -/
theorem decodeSteps_next {owed : Nat} (hleast : least ≤ b.toNat) (hgreatest : b.toNat ≤ greatest)
    (bs : List UInt8) :
    decodeSteps (some ⟨owed + 2, least, greatest, bits⟩) (b :: bs) =
      decodeSteps (some ⟨owed + 1, 0x80, 0xBF, 0x40 * bits + (b.toNat - 0x80)⟩) bs := by
  rw [decodeSteps, decodeStep, if_pos ⟨hleast, hgreatest⟩]
  rfl

end

theorem beginChar_two {b : UInt8} (hle : 0xC2 ≤ b.toNat) (hlt : b.toNat < 0xE0) :
    beginChar b = ([], some ⟨1, 0x80, 0xBF, b.toNat - 0xC0⟩) := by
  rw [beginChar, if_neg (by omega), if_neg (by omega), if_pos hlt]

theorem beginChar_three {b : UInt8} (hle : 0xE0 ≤ b.toNat) (hlt : b.toNat < 0xF0) :
    beginChar b = ([], some ⟨2, if b.toNat = 0xE0 then 0xA0 else 0x80,
      if b.toNat = 0xED then 0x9F else 0xBF, b.toNat - 0xE0⟩) := by
  rw [beginChar, if_neg (by omega), if_neg (by omega), if_neg (by omega)]
  by_cases hfirst : b.toNat = 0xE0
  · simp [hfirst]
  · by_cases hlast : b.toNat = 0xED
    · simp [hlast]
    · simp [hfirst, hlast, hlt]

theorem beginChar_four {b : UInt8} (hle : 0xF0 ≤ b.toNat) (hle' : b.toNat ≤ 0xF4) :
    beginChar b = ([], some ⟨3, if b.toNat = 0xF0 then 0x90 else 0x80,
      if b.toNat = 0xF4 then 0x8F else 0xBF, b.toNat - 0xF0⟩) := by
  rw [beginChar, if_neg (by omega), if_neg (by omega), if_neg (by omega), if_neg (by omega),
    if_neg (by omega), if_neg (by omega)]
  by_cases hfirst : b.toNat = 0xF0
  · simp [hfirst]
  · by_cases hlast : b.toNat = 0xF4
    · simp [hlast]
    · simp [hfirst, hlast, show b.toNat < 0xF4 by omega]

/-- The first octet of a character that takes several leaves the rest pending. -/
theorem decodeSteps_begin {b : UInt8} {p : Pending} (h : beginChar b = ([], some p)) (bs : List UInt8) :
    decodeSteps none (b :: bs) = decodeSteps (some p) bs := by
  rw [decodeSteps, decodeStep, h]
  rfl

theorem toNat_toUInt8 {n : Nat} (h : n < 0x100) : n.toUInt8.toNat = n :=
  UInt8.toNat_ofNat_of_lt' h

/-- No character is a surrogate or lies beyond the last plane. -/
theorem toNat_valid (c : Char) : c.toNat < 0xD800 ∨ (0xE000 ≤ c.toNat ∧ c.toNat < 0x110000) := by
  rcases c.valid with h | ⟨h, h'⟩
  · exact .inl h
  · exact .inr ⟨Nat.lt_of_succ_le h, h'⟩

/-- The octets of a character decode to it, whatever follows. -/
theorem decodeSteps_encodeChar (c : Char) (bs : List UInt8) :
    decodeSteps none (encodeChar c ++ bs) = some c :: decodeSteps none bs := by
  have hvalid := toNat_valid c
  have hchar : Char.ofNat c.toNat = c := Char.ofNat_toNat c
  rw [encodeChar]
  generalize c.toNat = n at hvalid hchar
  split_ifs with hone htwo hthree
  · -- The octet is the character.
    rw [List.singleton_append, decodeSteps, decodeStep, beginChar, toNat_toUInt8 (by omega), if_pos hone, hchar]
    rfl
  · have hb : (0xC0 + n / 0x40).toUInt8.toNat = 0xC0 + n / 0x40 := toNat_toUInt8 (by omega)
    have hlast : (0x80 + n % 0x40).toUInt8.toNat = 0x80 + n % 0x40 := toNat_toUInt8 (by omega)
    rw [List.cons_append, List.singleton_append,
      decodeSteps_begin (beginChar_two (by omega) (by omega)),
      decodeSteps_last (by omega) (by omega), hb, hlast]
    rw [show 0x40 * (0xC0 + n / 0x40 - 0xC0) + (0x80 + n % 0x40 - 0x80) = n by omega, hchar]
  · have hb : (0xE0 + n / 0x1000).toUInt8.toNat = 0xE0 + n / 0x1000 := toNat_toUInt8 (by omega)
    have hnext : (0x80 + n / 0x40 % 0x40).toUInt8.toNat = 0x80 + n / 0x40 % 0x40 :=
      toNat_toUInt8 (by omega)
    have hlast : (0x80 + n % 0x40).toUInt8.toNat = 0x80 + n % 0x40 := toNat_toUInt8 (by omega)
    rw [List.cons_append, List.cons_append, List.singleton_append,
      decodeSteps_begin (beginChar_three (by omega) (by omega)),
      decodeSteps_next (by split <;> omega) (by split <;> omega),
      decodeSteps_last (by omega) (by omega), hb, hnext, hlast]
    rw [show 0x40 * (0x40 * (0xE0 + n / 0x1000 - 0xE0) + (0x80 + n / 0x40 % 0x40 - 0x80)) +
      (0x80 + n % 0x40 - 0x80) = n by omega, hchar]
  · have hb : (0xF0 + n / 0x40000).toUInt8.toNat = 0xF0 + n / 0x40000 := toNat_toUInt8 (by omega)
    have hnext : (0x80 + n / 0x1000 % 0x40).toUInt8.toNat = 0x80 + n / 0x1000 % 0x40 :=
      toNat_toUInt8 (by omega)
    have hthird : (0x80 + n / 0x40 % 0x40).toUInt8.toNat = 0x80 + n / 0x40 % 0x40 :=
      toNat_toUInt8 (by omega)
    have hlast : (0x80 + n % 0x40).toUInt8.toNat = 0x80 + n % 0x40 := toNat_toUInt8 (by omega)
    rw [List.cons_append, List.cons_append, List.cons_append, List.singleton_append,
      decodeSteps_begin (beginChar_four (by omega) (by omega)),
      decodeSteps_next (by split <;> omega) (by split <;> omega),
      decodeSteps_next (by omega) (by omega),
      decodeSteps_last (by omega) (by omega), hb, hnext, hthird, hlast]
    rw [show 0x40 * (0x40 * (0x40 * (0xF0 + n / 0x40000 - 0xF0) + (0x80 + n / 0x1000 % 0x40 - 0x80)) +
      (0x80 + n / 0x40 % 0x40 - 0x80)) + (0x80 + n % 0x40 - 0x80) = n by omega, hchar]

/-! ## Octets of a text -/

theorem decodeSteps_encode (cs : List Char) : decodeSteps none (encode cs) = cs.map some := by
  induction cs with
  | nil => rfl
  | cons c cs ih => rw [encode_cons, decodeSteps_encodeChar, ih, List.map_cons]

/-- The octets of a text decode to it. -/
theorem decode?_encode (cs : List Char) : decode? (encode cs) = some cs := by
  rw [decode?, decodeSteps_encode]
  induction cs with
  | nil => rfl
  | cons c cs ih =>
    rw [List.map_cons, List.mapM_cons, ih]
    rfl

theorem decodeLossy_encode (cs : List Char) : decodeLossy (encode cs) = cs := by
  rw [decodeLossy, decodeSteps_encode, List.map_map]
  exact List.map_id cs

/-! ## Octets of ASCII -/

/-- A state in which an octet of ASCII continues no character. -/
def AsciiBegins (q : Option Pending) : Prop := ∀ p, q = some p → 0x80 ≤ p.least

theorem asciiBegins_beginChar (b : UInt8) : AsciiBegins (beginChar b).2 := by
  intro p hp
  rw [beginChar] at hp
  grind

theorem asciiBegins_decodeStep {q : Option Pending} (hq : AsciiBegins q) (b : UInt8) :
    AsciiBegins (decodeStep q b).2 := by
  cases q with
  | none => exact asciiBegins_beginChar b
  | some p =>
    rw [decodeStep]
    split
    · intro p' hp'
      grind
    · exact asciiBegins_beginChar b

theorem mem_decodeStep {q : Option Pending} (hq : AsciiBegins q) {b : UInt8} (hb : b.toNat < 0x80) :
    some (Char.ofNat b.toNat) ∈ (decodeStep q b).1 := by
  have hbegin : beginChar b = ([some (Char.ofNat b.toNat)], none) := by rw [beginChar, if_pos hb]
  cases q with
  | none => rw [decodeStep, hbegin]; simp
  | some p =>
    have hout : ¬ (p.least ≤ b.toNat ∧ b.toNat ≤ p.greatest) := by
      have hleast := hq p rfl
      omega
    rw [decodeStep, if_neg hout, hbegin]
    simp

/-- An octet of ASCII is decoded to its character wherever it stands. -/
theorem mem_decodeSteps {q : Option Pending} (hq : AsciiBegins q) {b : UInt8} (hb : b.toNat < 0x80)
    {bs : List UInt8} (hmem : b ∈ bs) : some (Char.ofNat b.toNat) ∈ decodeSteps q bs := by
  induction bs generalizing q with
  | nil => exact absurd hmem List.not_mem_nil
  | cons d bs ih =>
    rw [decodeSteps, List.mem_append]
    obtain rfl | hmem := List.mem_cons.1 hmem
    · exact .inl (mem_decodeStep hq hb)
    · exact .inr (ih (asciiBegins_decodeStep hq d) hmem)

theorem eq_map_some_of_mapM {xs : List (Option Char)} {cs : List Char} (h : xs.mapM id = some cs) :
    xs = cs.map some := by
  induction xs generalizing cs with
  | nil => cases h; rfl
  | cons x xs ih =>
    rw [List.mapM_cons] at h
    obtain ⟨c, hc, h⟩ := Option.bind_eq_some_iff.1 h
    obtain ⟨ds, hds, h⟩ := Option.bind_eq_some_iff.1 h
    obtain rfl : c :: ds = cs := Option.some.inj h
    rw [ih hds, List.map_cons, ← hc, id]

theorem mem_of_decode? {bs : List UInt8} {cs : List Char} (h : decode? bs = some cs) {b : UInt8}
    (hb : b.toNat < 0x80) (hmem : b ∈ bs) : Char.ofNat b.toNat ∈ cs := by
  have hsteps : some (Char.ofNat b.toNat) ∈ decodeSteps none bs :=
    mem_decodeSteps (by simp [AsciiBegins]) hb hmem
  rw [eq_map_some_of_mapM h] at hsteps
  simpa using hsteps

end Covenant.Text
