/-!
# Variables

A variable is a number from 1 to 2 ^ 32 - 1, and variables are ordered by it.
-/

namespace CuttingPlanes

structure Variable where
  number : Nat
  pos : 0 < number
  lt : number < 0x100000000
deriving DecidableEq, Repr

namespace Variable

/-- The variable with a given number, if the number is in range. -/
def ofNat? (n : Nat) : Option Variable :=
  if h : 0 < n ∧ n < 0x100000000 then some ⟨n, h.1, h.2⟩ else none

instance : LT Variable := ⟨fun v w => v.number < w.number⟩

instance (v w : Variable) : Decidable (v < w) := Nat.decLt v.number w.number

theorem lt_def {v w : Variable} : v < w ↔ v.number < w.number := Iff.rfl

@[ext] theorem ext {v w : Variable} (h : v.number = w.number) : v = w := by
  cases v; cases w; simp_all

theorem lt_irrefl (v : Variable) : ¬ v < v := Nat.lt_irrefl v.number

theorem lt_trans {u v w : Variable} (h : u < v) (h' : v < w) : u < w := Nat.lt_trans h h'

theorem eq_of_not_lt {v w : Variable} (h : ¬ v < w) (h' : ¬ w < v) : v = w :=
  ext (by rw [lt_def] at h h'; omega)

@[simp] theorem ofNat?_number (v : Variable) : ofNat? v.number = some v :=
  dif_pos ⟨v.pos, v.lt⟩

theorem ofNat?_eq_some_iff {n : Nat} {v : Variable} : ofNat? n = some v ↔ v.number = n := by
  constructor
  · unfold ofNat?
    split
    · rintro ⟨⟩
      rfl
    · simp
  · rintro rfl
    exact ofNat?_number v

end Variable

end CuttingPlanes
