/-!
# Signed numbers of 64 bits

Coefficients, bounds and the integers of a binary trace are `Int64`. Sums are
formed in `Int` and brought back by `fit?`, which refuses what 64 bits cannot
hold; nothing wraps around.
-/

namespace CuttingPlanes

/-- The 64-bit number with a given value, if there is one. -/
def fit? (z : Int) : Option Int64 :=
  if -0x8000000000000000 ≤ z ∧ z < 0x8000000000000000 then some (Int64.ofInt z) else none

theorem fit?_eq_some_iff {z : Int} {w : Int64} : fit? z = some w ↔ w.toInt = z := by
  unfold fit?
  split
  · rename_i h
    rw [Option.some.injEq, ← Int64.toInt_inj, Int64.toInt_ofInt_of_le (by omega) (by omega)]
    exact eq_comm
  · rename_i h
    have hl := w.le_toInt
    have hu := w.toInt_lt
    simp only [reduceCtorEq, false_iff]
    rintro rfl
    omega

theorem fit?_eq_none_iff {z : Int} : fit? z = none ↔ ¬(-0x8000000000000000 ≤ z ∧ z < 0x8000000000000000) := by
  unfold fit?
  split <;> simp_all

@[simp] theorem fit?_toInt (w : Int64) : fit? w.toInt = some w := fit?_eq_some_iff.mpr rfl

end CuttingPlanes
