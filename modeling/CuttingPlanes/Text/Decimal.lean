/-!
# Decimal numerals

Numbers are written without leading zeros, negative ones with a minus sign.
Reading is more liberal: one plus sign (for integers also one minus sign) and
any number of leading zeros are accepted, and at least one ASCII digit is
required. The main statements, `natural?_digits` and `integer?_plain`, say that
what is written is read back.
-/

namespace CuttingPlanes.Text

/-- The decimal digits of a number, without leading zeros. -/
def digits (n : Nat) : List Char := Nat.toDigits 10 n

/-- An integer with a sign only when it is negative. -/
def plain (z : Int) : List Char :=
  if z < 0 then '-' :: digits z.natAbs else digits z.natAbs

/-- An integer that always has a sign; zero has a plus sign. -/
def signed (z : Int) : List Char :=
  (if z < 0 then '-' else '+') :: digits z.natAbs

/-- The number written by one or more ASCII digits. -/
def numeral? (cs : List Char) : Option Nat :=
  if cs ≠ [] ∧ cs.all Char.isDigit then some (Nat.ofDigitChars 10 cs 0) else none

/-- Digits after at most one plus sign. -/
def natural? : List Char → Option Nat
  | '+' :: cs => numeral? cs
  | cs => numeral? cs

/-- Digits after at most one sign. -/
def integer? : List Char → Option Int
  | '+' :: cs => (numeral? cs).map Int.ofNat
  | '-' :: cs => (numeral? cs).map fun n => -Int.ofNat n
  | cs => (numeral? cs).map Int.ofNat

/-! ## Reading what was written -/

theorem isDigit_of_mem_digits {n : Nat} {c : Char} (h : c ∈ digits n) : c.isDigit = true :=
  Nat.isDigit_of_mem_toDigits (by decide) (by decide) h

theorem digits_ne_nil (n : Nat) : digits n ≠ [] := Nat.toDigits_ne_nil

theorem digits_of_lt {n : Nat} (h : n < 10) : digits n = [n.digitChar] :=
  Nat.toDigits_of_lt_base h

theorem digits_of_le {n : Nat} (h : 10 ≤ n) :
    digits n = digits (n / 10) ++ [(n % 10).digitChar] :=
  Nat.toDigits_of_base_le (by decide) h

@[simp] theorem numeral?_digits (n : Nat) : numeral? (digits n) = some n := by
  have h : (digits n).all Char.isDigit = true :=
    List.all_eq_true.mpr fun _ hc => isDigit_of_mem_digits hc
  rw [numeral?, if_pos ⟨digits_ne_nil n, h⟩, digits, Nat.ofDigitChars_ten_toDigits]

theorem head_digits_ne {n : Nat} {c d : Char} {cs : List Char} (hd : d.isDigit = false)
    (h : digits n = c :: cs) : c ≠ d := by
  rintro rfl
  have := isDigit_of_mem_digits (n := n) (c := c) (by simp [h])
  simp [hd] at this

@[simp] theorem natural?_digits (n : Nat) : natural? (digits n) = some n := by
  unfold natural?
  split
  · rename_i h
    exact absurd rfl (head_digits_ne (by decide) h)
  · exact numeral?_digits n

theorem integer?_digits (n : Nat) : integer? (digits n) = some (n : Int) := by
  unfold integer?
  split
  · rename_i h
    exact absurd rfl (head_digits_ne (by decide) h)
  · rename_i h
    exact absurd rfl (head_digits_ne (by decide) h)
  · simp

@[simp] theorem integer?_plain (z : Int) : integer? (plain z) = some z := by
  unfold plain
  split
  · simp only [integer?, numeral?_digits, Option.map_some, Option.some.injEq,
      Int.ofNat_eq_natCast]
    omega
  · rw [integer?_digits, Option.some.injEq]
    omega

@[simp] theorem integer?_signed (z : Int) : integer? (signed z) = some z := by
  unfold signed
  split <;>
    simp only [integer?, numeral?_digits, Option.map_some, Option.some.injEq,
      Int.ofNat_eq_natCast] <;>
    omega

end CuttingPlanes.Text
