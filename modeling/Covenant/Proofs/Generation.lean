import Covenant.Proofs.TokenReading
import Covenant.Proofs.Tokens

/-!
# Generated values

* `IsUuid`: identifiers in groups of hexadecimal digits;
* `Produces`: the values that a generator may produce;
* `produces_generate`: whatever is drawn, a generator produces one of these;
* `tokens_generate`: which texts are tokens, what they ask for and what is generated for them.
-/

namespace Covenant.Generator

open Covenant.Text Covenant.Decimal

/-! ## Values that a generator may produce -/

/-- An identifier of version 4: five groups of hexadecimal digits with hyphens between them. The third group
starts with the digit of the version, the fourth with one of the four digits of the variant. -/
inductive IsUuid : String → Prop
  | intro {a b c d e : List Char} {variant : Char} :
      a.length = 8 → b.length = 4 → c.length = 3 → d.length = 3 → e.length = 12 →
      (∀ x ∈ a ++ b ++ c ++ d ++ e, x ∈ hexAlphabet) → variant ∈ ['8', '9', 'a', 'b'] →
      IsUuid (String.ofList (joinWith '-' [a, b, '4' :: c, variant :: d, e]))

/-- A value that a generator may produce. -/
inductive Produces : Generator → Json → Prop
  | string {n : Nat} (h : n ≤ maxLength) {cs : List Char} :
      cs.length = n → (∀ c ∈ cs, isAlphanumeric c = true) → Produces (.string n h) (.string (String.ofList cs))
  | number {b : Bounds} {i : Int} (h : Json.Fits i) :
      b.low.val ≤ i → i ≤ b.high.val → Produces (.number b) (.number (.integer i h))
  | bool (b : Bool) : Produces .bool (.bool b)
  | uuid {t : String} : IsUuid t → Produces .uuid (.string t)

/-! ## Generating -/

theorem forall_mem_times {α : Type} {P : α → Prop} {choice : Rand α} (h : ∀ s, P (choice s).1) (n : Nat)
    (s : Source) : ∀ x ∈ (Rand.times n choice s).1, P x := by
  induction n generalizing s with
  | zero => exact nofun
  | succ n ih => exact List.forall_mem_cons.2 ⟨h s, ih _⟩

theorem getD_mem {cs : List Char} {i : Nat} (h : i < cs.length) (d : Char) : cs.getD i d ∈ cs := by
  rw [List.getD_eq_getElem?_getD, List.getElem?_eq_getElem h]
  exact List.getElem_mem h

theorem isAlphanumeric_of_mem_alphabet {c : Char} (h : c ∈ alphabet) : isAlphanumeric c = true := by
  have hall : alphabet.all isAlphanumeric = true := by decide +kernel
  exact List.all_eq_true.1 hall c h

theorem randomHex_mem (s : Source) : (randomHex s).1 ∈ hexAlphabet :=
  getD_mem (Rand.below 15 s).1.isLt '0'

/-- The groups of an identifier, one drawn after the other. -/
theorem randomUuid_fst (s : Source) : (randomUuid s).1 =
    (let a := Rand.times 8 randomHex s
    let b := Rand.times 4 randomHex a.2
    let c := Rand.times 3 randomHex b.2
    let v := Rand.below 3 c.2
    let d := Rand.times 3 randomHex v.2
    let e := Rand.times 12 randomHex d.2
    String.ofList (a.1 ++ ['-'] ++ b.1 ++ ['-', '4'] ++ c.1 ++ ['-'] ++
      hexAlphabet.getD (8 + v.1.val) '8' :: d.1 ++ ['-'] ++ e.1)) := rfl

theorem isUuid_groups {a b c d e : List Char} (ha : a.length = 8 ∧ ∀ x ∈ a, x ∈ hexAlphabet)
    (hb : b.length = 4 ∧ ∀ x ∈ b, x ∈ hexAlphabet) (hc : c.length = 3 ∧ ∀ x ∈ c, x ∈ hexAlphabet)
    (hd : d.length = 3 ∧ ∀ x ∈ d, x ∈ hexAlphabet) (he : e.length = 12 ∧ ∀ x ∈ e, x ∈ hexAlphabet)
    (variant : Fin 4) :
    IsUuid (String.ofList (a ++ ['-'] ++ b ++ ['-', '4'] ++ c ++ ['-'] ++
      hexAlphabet.getD (8 + variant.val) '8' :: d ++ ['-'] ++ e)) := by
  have hhex : ∀ x ∈ a ++ b ++ c ++ d ++ e, x ∈ hexAlphabet := by
    simp only [List.forall_mem_append]
    exact ⟨⟨⟨⟨ha.2, hb.2⟩, hc.2⟩, hd.2⟩, he.2⟩
  have hvariant : ∀ w : Fin 4, hexAlphabet.getD (8 + w.val) '8' ∈ ['8', '9', 'a', 'b'] := by decide
  have hjoined := IsUuid.intro ha.1 hb.1 hc.1 hd.1 he.1 hhex (hvariant variant)
  simpa [joinWith] using hjoined

theorem isUuid_randomUuid (s : Source) : IsUuid (randomUuid s).1 := by
  have hgroup : ∀ n s', (Rand.times n randomHex s').1.length = n ∧
      ∀ x ∈ (Rand.times n randomHex s').1, x ∈ hexAlphabet :=
    fun n s' => ⟨Rand.length_times n randomHex s', forall_mem_times randomHex_mem n s'⟩
  rw [randomUuid_fst]
  exact isUuid_groups (hgroup 8 _) (hgroup 4 _) (hgroup 3 _) (hgroup 3 _) (hgroup 12 _) _

/-- Whatever is drawn, a generator produces a value that it may produce. -/
theorem produces_generate (g : Generator) (s : Source) : Produces g (g.generate s).1 := by
  cases g with
  | string n h =>
    refine .string h (Rand.length_times n _ s) (forall_mem_times ?_ n s)
    intro s'
    apply isAlphanumeric_of_mem_alphabet
    exact getD_mem (Rand.below 61 s').1.isLt 'A'
  | number b =>
    have hbetween := Rand.between_mem b.ordered s
    exact .number _ hbetween.1 hbetween.2
  | bool => exact .bool _
  | uuid => exact .uuid (isUuid_randomUuid s)

/-! ## Tokens and their values -/

/-- Strings are not too long, and numbers have a least one and a greatest one. -/
def InRange : Generator → Prop
  | .string n _ => n ≤ maxLength
  | .number b => b.low.val ≤ b.high.val
  | .bool => True
  | .uuid => True

theorem inRange (g : Generator) : g.InRange := by
  cases g with
  | string n h => exact h
  | number b => exact b.ordered
  | bool => trivial
  | uuid => trivial

/-- A text is a token exactly if it is written as one with valid parameters, and is one for what these ask for.
The order of the parameters makes no difference. Whatever is drawn, the value that is generated for a token is
one that it may produce. -/
theorem tokens_generate :
    (∀ s, (parse? s).isSome ↔ ∃ k ps, IsWritten s k ps ∧ Valid k ps) ∧
    (∀ s g, parse? s = some g ↔ ∃ k ps, IsWritten s k ps ∧ Valid k ps ∧ Denotes ps k g) ∧
    (∀ s t k ps qs, IsWritten s k ps → IsWritten t k qs → ps.Perm qs → parse? s = parse? t) ∧
    ∀ s g, parse? s = some g → g.InRange ∧ ∀ src, Produces g (g.generate src).1 := by
  refine ⟨fun s => isSome_parse?_iff, fun s g => parse?_eq_some_iff, ?_, ?_⟩
  · intro s t k ps qs hs ht hperm
    exact parse?_of_perm hs ht hperm
  · intro s g _
    exact ⟨g.inRange, produces_generate g⟩

theorem isWritten_high_low :
    IsWritten "<generate[number( max = +2;min=-7)]>" .number [("max", "+2"), ("min", "-7")] :=
  isWritten_iff.2 ⟨"number( max = +2;min=-7)".toList, " max = +2;min=-7".toList, by decide, by decide,
    (parameters?_eq_some_iff.1 (by decide)).1⟩

theorem isWritten_low_high :
    IsWritten "<generate[number(min=-7;max=+2)]>" .number [("min", "-7"), ("max", "+2")] :=
  isWritten_iff.2 ⟨"number(min=-7;max=+2)".toList, "min=-7;max=+2".toList, by decide, by decide,
    (parameters?_eq_some_iff.1 (by decide)).1⟩

theorem tokens_generate_bounds :
    parse? "<generate[number( max = +2;min=-7)]>" = parse? "<generate[number(min=-7;max=+2)]>" ∧
    ∃ b, parse? "<generate[number(min=-7;max=+2)]>" = some (.number b) ∧ b.low.val = -7 ∧ b.high.val = 2 ∧
      ∀ src, Produces (.number b) (generate (.number b) src).1 := by
  refine ⟨tokens_generate.2.2.1 _ _ _ _ _ isWritten_high_low isWritten_low_high (.swap _ _ _), ?_⟩
  have hparse : parse? "<generate[number(min=-7;max=+2)]>" =
      some (.number ⟨⟨-7, by decide⟩, ⟨2, by decide⟩, by decide⟩) := by rfl
  exact ⟨_, hparse, rfl, rfl, (tokens_generate.2.2.2 _ _ hparse).2⟩

end Covenant.Generator
