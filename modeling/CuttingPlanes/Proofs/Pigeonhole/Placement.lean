import CuttingPlanes.Proofs.Pigeonhole.Constraints

/-!
# Placements of pigeons

An assignment of zeros and ones to the table of variables satisfies the lines of the
rows and columns exactly when it places every pigeon in some hole and no two pigeons
in one (`satisfied_iff_isPlacement`). Such placements exist exactly when there are
holes enough (`exists_isPlacement_iff`).
-/

namespace CuttingPlanes

/-- The assignment has no other values than zero and one. -/
def IsBinary (a : Variable → Int) : Prop := ∀ v, a v = 0 ∨ a v = 1

namespace Pigeonhole

/-- Every pigeon sits in some hole and no two pigeons sit in one. -/
structure IsPlacement (p : Pigeonhole) (a : Variable → Int) : Prop where
  sits : ∀ j, ∃ i, a (p.var i j) = 1
  alone : ∀ i j j', a (p.var i j) = 1 → a (p.var i j') = 1 → j = j'

variable {p : Pigeonhole} {a : Variable → Int}

/-! ## Lines of zeros and ones -/

theorem IsLine.satisfied_iff {k : Int64} {vars : List Variable} {c : Constraint}
    (h : IsLine k vars c) : c.Satisfied a ↔ k.toInt ≤ k.toInt * (vars.map a).sum := by
  unfold Constraint.Satisfied
  rw [h.relation, h.bound, Constraint.eval_of_perm h.perm]
  rfl

theorem Lines.satisfied_iff {ι : Type} {xs : List ι} {line : ι → List Variable}
    {cs : List Constraint} {k : Int64} (h : Lines k line xs cs) :
    (∀ c ∈ cs, c.Satisfied a) ↔ ∀ x ∈ xs, k.toInt ≤ k.toInt * ((line x).map a).sum := by
  induction h with
  | nil => simp
  | cons hline _ ih => simp only [List.forall_mem_cons, hline.satisfied_iff, ih]

variable {n : Nat} {f : Fin n → Int}

theorem one_le_sum_iff (hf : ∀ x, f x = 0 ∨ f x = 1) : 1 ≤ ∑ x, f x ↔ ∃ x, f x = 1 := by
  have hnonneg (x : Fin n) : 0 ≤ f x := by
    rcases hf x with h | h <;> omega
  constructor
  · intro hsum
    by_contra hnone
    push Not at hnone
    have hzero : ∑ x, f x = 0 :=
      Finset.sum_eq_zero fun x _ => (hf x).resolve_right (hnone x)
    omega
  · rintro ⟨x, hx⟩
    have hle := Finset.single_le_sum (fun y _ => hnonneg y) (Finset.mem_univ x)
    omega

theorem sum_le_one_iff (hf : ∀ x, f x = 0 ∨ f x = 1) :
    ∑ x, f x ≤ 1 ↔ ∀ x y, f x = 1 → f y = 1 → x = y := by
  have hnonneg (x : Fin n) : 0 ≤ f x := by
    rcases hf x with h | h <;> omega
  constructor
  · intro hsum x y hx hy
    by_contra hne
    have hle : ∑ z ∈ {x, y}, f z ≤ ∑ z, f z :=
      Finset.sum_le_sum_of_subset_of_nonneg (Finset.subset_univ _) fun z _ _ => hnonneg z
    rw [Finset.sum_pair hne] at hle
    omega
  · intro hunique
    by_cases hex : ∃ x, f x = 1
    · obtain ⟨x, hx⟩ := hex
      have hsum : ∑ z, f z = f x := by
        apply Finset.sum_eq_single x
        · intro y _ hy
          exact (hf y).resolve_right fun hfy => hy (hunique y x hfy hx)
        · simp
      omega
    · push Not at hex
      have hzero : ∑ x, f x = 0 :=
        Finset.sum_eq_zero fun x _ => (hf x).resolve_right (hex x)
      omega

/-! ## Satisfying an instance -/

theorem rows_satisfied_iff (ha : IsBinary a) {rows : List Constraint}
    (h : Lines 1 p.row (List.finRange p.pigeons) rows) :
    (∀ c ∈ rows, c.Satisfied a) ↔ ∀ j, ∃ i, a (p.var i j) = 1 := by
  simp only [h.satisfied_iff, List.mem_finRange, true_implies, toInt_one, one_mul, sum_row]
  apply forall_congr'
  intro j
  exact one_le_sum_iff fun i => ha (p.var i j)

theorem columns_satisfied_iff (ha : IsBinary a) {columns : List Constraint}
    (h : Lines (-1) p.column (List.finRange p.holes) columns) :
    (∀ c ∈ columns, c.Satisfied a) ↔
      ∀ i j j', a (p.var i j) = 1 → a (p.var i j') = 1 → j = j' := by
  have hneg (z : Int) : -1 ≤ -1 * z ↔ z ≤ 1 := by omega
  simp only [h.satisfied_iff, List.mem_finRange, true_implies, toInt_neg_one, hneg, sum_column]
  apply forall_congr'
  intro i
  exact sum_le_one_iff fun j => ha (p.var i j)

/-- Zeros and ones satisfy an instance when they place the pigeons. -/
theorem satisfied_iff_isPlacement (ha : IsBinary a) {rows columns : List Constraint}
    (hrows : Lines 1 p.row (List.finRange p.pigeons) rows)
    (hcolumns : Lines (-1) p.column (List.finRange p.holes) columns) :
    (∀ c ∈ rows ++ columns, c.Satisfied a) ↔ p.IsPlacement a := by
  rw [List.forall_mem_append, rows_satisfied_iff ha hrows, columns_satisfied_iff ha hcolumns]
  constructor
  · rintro ⟨hsits, halone⟩
    exact ⟨hsits, halone⟩
  · intro h
    exact ⟨h.sits, h.alone⟩

/-! ## Holes enough -/

/-- Pigeons that sit in different holes are not more than the holes. -/
theorem IsPlacement.pigeons_le (h : p.IsPlacement a) : p.pigeons ≤ p.holes := by
  choose hole hhole using h.sits
  have hinj : Function.Injective hole := by
    intro j j' heq
    have hj := hhole j
    rw [heq] at hj
    exact h.alone (hole j') j j' hj (hhole j')
  simpa using Fintype.card_le_of_injective hole hinj

/-- Pigeon `j` sits in hole `j`. -/
def diagonal (p : Pigeonhole) (h : p.pigeons ≤ p.holes) (v : Variable) : Int :=
  if ∃ j, v = p.var (Fin.castLE h j) j then 1 else 0

theorem isBinary_diagonal (h : p.pigeons ≤ p.holes) : IsBinary (p.diagonal h) := by
  intro v
  unfold diagonal
  split
  · exact Or.inr rfl
  · exact Or.inl rfl

theorem diagonal_eq_one_iff (h : p.pigeons ≤ p.holes) (i : Fin p.holes) (j : Fin p.pigeons) :
    p.diagonal h (p.var i j) = 1 ↔ i = Fin.castLE h j := by
  have hplace : (∃ j', p.var i j = p.var (Fin.castLE h j') j') ↔ i = Fin.castLE h j := by
    constructor
    · rintro ⟨j', heq⟩
      obtain ⟨hi, rfl⟩ := p.var_inj heq
      exact hi
    · rintro rfl
      exact ⟨j, rfl⟩
  unfold diagonal
  rw [← hplace]
  split <;> simp_all

theorem isPlacement_diagonal (h : p.pigeons ≤ p.holes) : p.IsPlacement (p.diagonal h) where
  sits j := ⟨Fin.castLE h j, (diagonal_eq_one_iff h _ j).mpr rfl⟩
  alone i j j' hj hj' := by
    rw [diagonal_eq_one_iff] at hj hj'
    exact Fin.castLE_injective h (hj.symm.trans hj')

/-- The pigeons can be placed when there are holes enough. -/
theorem exists_isPlacement_iff (p : Pigeonhole) :
    (∃ a, IsBinary a ∧ p.IsPlacement a) ↔ p.pigeons ≤ p.holes := by
  constructor
  · rintro ⟨a, -, h⟩
    exact h.pigeons_le
  · intro h
    exact ⟨p.diagonal h, isBinary_diagonal h, isPlacement_diagonal h⟩

end Pigeonhole

end CuttingPlanes
