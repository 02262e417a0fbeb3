import CuttingPlanes.Number
import CuttingPlanes.Text.Decimal

/-!
# Which texts are numerals

A numeral is one or more decimal digits. A natural number may have a plus sign in
front, an integer also a minus sign, and zeros in front change nothing. A text is read
as a number exactly when it is written so (`natural?_eq_some_iff`,
`integer?_eq_some_iff`), and as one of 64 bits if it is also in range
(`bind_fit?_eq_some_iff`).
-/

namespace CuttingPlanes.Text

/-- One or more decimal digits; zeros in front change nothing. -/
structure IsNumeral (cs : List Char) (n : Nat) : Prop where
  ne_nil : cs ≠ []
  isDigit : ∀ c ∈ cs, c.isDigit = true
  value : Nat.ofDigitChars 10 cs 0 = n

/-- Digits after at most one plus sign. -/
inductive IsNatural : List Char → Nat → Prop
  | unsigned {cs : List Char} {n : Nat} (h : IsNumeral cs n) : IsNatural cs n
  | plus {cs : List Char} {n : Nat} (h : IsNumeral cs n) : IsNatural ('+' :: cs) n

/-- Digits after at most one sign. -/
inductive IsInteger : List Char → Int → Prop
  | unsigned {cs : List Char} {n : Nat} (h : IsNumeral cs n) : IsInteger cs n
  | plus {cs : List Char} {n : Nat} (h : IsNumeral cs n) : IsInteger ('+' :: cs) n
  | minus {cs : List Char} {n : Nat} (h : IsNumeral cs n) : IsInteger ('-' :: cs) (-n)

variable {cs : List Char} {c : Char} {n : Nat} {z : Int}

theorem numeral?_eq_some_iff : numeral? cs = some n ↔ IsNumeral cs n := by
  unfold numeral?
  split
  · rename_i h
    obtain ⟨hne, hall⟩ := h
    rw [Option.some.injEq]
    exact ⟨fun hn => ⟨hne, List.all_eq_true.mp hall, hn⟩, fun hn => hn.value⟩
  · rename_i h
    refine ⟨nofun, fun hn => absurd ⟨hn.ne_nil, List.all_eq_true.mpr hn.isDigit⟩ h⟩

theorem IsNumeral.not_cons (hc : c.isDigit = false) (h : IsNumeral (c :: cs) n) : False := by
  have hdigit := h.isDigit c List.mem_cons_self
  rw [hc] at hdigit
  cases hdigit

theorem natural?_eq_some_iff : natural? cs = some n ↔ IsNatural cs n := by
  unfold natural?
  split
  · rw [numeral?_eq_some_iff]
    refine ⟨.plus, fun h => ?_⟩
    cases h with
    | unsigned h => exact (h.not_cons (by decide)).elim
    | plus h => exact h
  · rename_i hplus
    rw [numeral?_eq_some_iff]
    refine ⟨.unsigned, fun h => ?_⟩
    cases h with
    | unsigned h => exact h
    | plus h => exact absurd rfl (hplus _)

theorem integer?_eq_some_iff : integer? cs = some z ↔ IsInteger cs z := by
  unfold integer?
  split
  · rw [Option.map_eq_some_iff]
    constructor
    · rintro ⟨n, hn, rfl⟩
      exact .plus (numeral?_eq_some_iff.mp hn)
    · intro h
      cases h with
      | unsigned h => exact (h.not_cons (by decide)).elim
      | plus h => exact ⟨_, numeral?_eq_some_iff.mpr h, rfl⟩
  · rw [Option.map_eq_some_iff]
    constructor
    · rintro ⟨n, hn, rfl⟩
      exact .minus (numeral?_eq_some_iff.mp hn)
    · intro h
      cases h with
      | unsigned h => exact (h.not_cons (by decide)).elim
      | minus h => exact ⟨_, numeral?_eq_some_iff.mpr h, rfl⟩
  · rename_i hplus hminus
    rw [Option.map_eq_some_iff]
    constructor
    · rintro ⟨n, hn, rfl⟩
      exact .unsigned (numeral?_eq_some_iff.mp hn)
    · intro h
      cases h with
      | unsigned h => exact ⟨_, numeral?_eq_some_iff.mpr h, rfl⟩
      | plus h => exact absurd rfl (hplus _)
      | minus h => exact absurd rfl (hminus _)

theorem IsInteger.head (h : IsInteger (c :: cs) z) : c.isDigit = true ∨ c = '+' ∨ c = '-' := by
  cases h with
  | unsigned h => exact Or.inl (h.isDigit c List.mem_cons_self)
  | plus => exact Or.inr (Or.inl rfl)
  | minus => exact Or.inr (Or.inr rfl)

/-- An integer of 64 bits. -/
theorem bind_fit?_eq_some_iff {k : Int64} :
    (integer? cs).bind fit? = some k ↔ IsInteger cs k.toInt := by
  rw [Option.bind_eq_some_iff]
  constructor
  · rintro ⟨z, hz, hk⟩
    rw [fit?_eq_some_iff.mp hk]
    exact integer?_eq_some_iff.mp hz
  · intro h
    exact ⟨_, integer?_eq_some_iff.mpr h, fit?_toInt k⟩

end CuttingPlanes.Text
