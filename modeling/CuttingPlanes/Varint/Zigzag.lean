import CuttingPlanes.Number

/-!
# Zig-zag numbers

An integer is written as the natural number that holds its magnitude in the
upper bits and its sign in the lowest one. There is no negative zero: the number
one stands for nothing. `unzigzag?_eq_some_iff` says that reading and writing are
inverse on all natural numbers.
-/

namespace CuttingPlanes.Varint

/-- Twice the magnitude, and one more for a negative integer. -/
def zigzag (v : Int64) : Nat :=
  if v.toInt < 0 then 2 * v.toInt.natAbs + 1 else 2 * v.toInt.natAbs

/-- The 64-bit number with a given zig-zag number, if there is one. -/
def unzigzag? (u : Nat) : Option Int64 :=
  if u % 2 = 0 then fit? (u / 2 : Nat)
  else if u = 1 then none
  else fit? (-(u / 2 : Nat))

theorem unzigzag?_eq_some_iff {u : Nat} {v : Int64} : unzigzag? u = some v ↔ zigzag v = u := by
  unfold unzigzag? zigzag
  split
  · rw [fit?_eq_some_iff]
    split <;> omega
  · split
    · simp only [reduceCtorEq, false_iff]
      split <;> omega
    · rw [fit?_eq_some_iff]
      split <;> omega

@[simp] theorem unzigzag?_zigzag (v : Int64) : unzigzag? (zigzag v) = some v :=
  unzigzag?_eq_some_iff.mpr rfl

theorem zigzag_ne_one (v : Int64) : zigzag v ≠ 1 := by
  unfold zigzag
  split <;> omega

/-- The zig-zag number of the least 64-bit number is the largest. -/
theorem zigzag_le (v : Int64) : zigzag v ≤ 0x10000000000000001 := by
  have hl := v.le_toInt
  have hu := v.toInt_lt
  unfold zigzag
  split <;> omega

end CuttingPlanes.Varint
