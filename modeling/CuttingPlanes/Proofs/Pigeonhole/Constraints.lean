import CuttingPlanes.Pigeonhole
import CuttingPlanes.Proofs.Derivation.Summation

/-!
# The constraints of a pigeonhole instance

The variables form a table with a row for each pigeon and a column for each hole. A
constraint of the instance is a line of the table: it gives one coefficient to the
variables of a row or of a column. Rows and columns are both light enough to be
summed, and since every variable stands in one row and one column, the two sums
cancel (`coeff_sum_add_coeff_sum`).
-/

namespace CuttingPlanes.Pigeonhole

open Constraint

/-! ## The table of variables -/

variable (p : Pigeonhole)

theorem holes_lt : p.holes < 0x100000000 :=
  Nat.lt_of_le_of_lt (Nat.le_mul_of_pos_right _ p.pigeons_pos) p.lt

theorem pigeons_lt : p.pigeons < 0x100000000 :=
  Nat.lt_of_le_of_lt (Nat.le_mul_of_pos_left _ p.holes_pos) p.lt

/-- Different places of the table hold different variables. -/
theorem var_inj {i i' : Fin p.holes} {j j' : Fin p.pigeons} (h : p.var i j = p.var i' j') :
    i = i' ∧ j = j' := by
  have hnumber : j.val * p.holes + i.val = j'.val * p.holes + i'.val := by
    have := congrArg Variable.number h
    simp only [var] at this
    omega
  have hi : i.val = i'.val := by
    have := congrArg (· % p.holes) hnumber
    simpa [Nat.mul_add_mod_of_lt, Nat.mod_eq_of_lt] using this
  have hj : j.val * p.holes = j'.val * p.holes := by omega
  exact ⟨Fin.ext hi, Fin.ext (Nat.eq_of_mul_eq_mul_right p.holes_pos hj)⟩

def row (j : Fin p.pigeons) : List Variable := (List.finRange p.holes).map fun i => p.var i j

def column (i : Fin p.holes) : List Variable := (List.finRange p.pigeons).map fun j => p.var i j

theorem nodup_row (j : Fin p.pigeons) : (p.row j).Nodup :=
  (List.nodup_finRange _).map fun _ _ h => (p.var_inj h).1

theorem nodup_column (i : Fin p.holes) : (p.column i).Nodup :=
  (List.nodup_finRange _).map fun _ _ h => (p.var_inj h).2

theorem row_ne_nil (j : Fin p.pigeons) : p.row j ≠ [] := by
  have := p.holes_pos
  simp only [row, ne_eq, List.map_eq_nil_iff, List.finRange_eq_nil_iff]
  omega

theorem column_ne_nil (i : Fin p.holes) : p.column i ≠ [] := by
  have := p.pigeons_pos
  simp only [column, ne_eq, List.map_eq_nil_iff, List.finRange_eq_nil_iff]
  omega

theorem sum_row (j : Fin p.pigeons) (a : Variable → Int) :
    ((p.row j).map a).sum = ∑ i, a (p.var i j) := by
  rw [row, List.map_map, Fin.sum_univ_def]
  rfl

theorem sum_column (i : Fin p.holes) (a : Variable → Int) :
    ((p.column i).map a).sum = ∑ j, a (p.var i j) := by
  rw [column, List.map_map, Fin.sum_univ_def]
  rfl

/-! ## Lines -/

/-- The constraint gives the coefficient `k` to distinct variables and has the lower
bound `k`. -/
structure IsLine (k : Int64) (vars : List Variable) (c : Constraint) : Prop where
  relation : c.relation = .atLeast
  bound : c.bound = k
  nodup : vars.Nodup
  perm : c.form.terms.Perm (vars.map (⟨k, ·⟩))

theorem exists_line {vars : List Variable} (hne : vars ≠ []) (hnodup : vars.Nodup) (k : Int64) :
    ∃ c, uniform k .atLeast k vars = .ok c ∧ IsLine k vars c := by
  obtain ⟨c, hc, hr, hb, hperm⟩ := exists_uniform hne hnodup k .atLeast k
  exact ⟨c, hc, hr, hb, hnodup, hperm⟩

theorem exists_pigeonConstraint (j : Fin p.pigeons) :
    ∃ c, p.pigeonConstraint j = .ok c ∧ IsLine 1 (p.row j) c :=
  exists_line (p.row_ne_nil j) (p.nodup_row j) 1

theorem exists_holeConstraint (i : Fin p.holes) :
    ∃ c, p.holeConstraint i = .ok c ∧ IsLine (-1) (p.column i) c :=
  exists_line (p.column_ne_nil i) (p.nodup_column i) (-1)

theorem IsLine.coeff_eq {k : Int64} {vars : List Variable} {c : Constraint}
    (h : IsLine k vars c) (v : Variable) :
    c.form.coeff v = k.toInt * (vars.map (LinearForm.unitAt v)).sum := by
  rw [LinearForm.coeff_eq_eval, eval_of_perm h.perm]

theorem IsLine.natAbs_coeff_le {k : Int64} {vars : List Variable} {c : Constraint}
    (h : IsLine k vars c) (v : Variable) : (c.form.coeff v).natAbs ≤ k.toInt.natAbs := by
  rw [coeff_of_perm h.nodup h.perm]
  split <;> simp

variable {p} {ι : Type} {xs : List ι} {line : ι → List Variable} {cs : List Constraint} {k : Int64}

/-- Each of the constraints is the line of one index. -/
def Lines (k : Int64) (line : ι → List Variable) (xs : List ι) (cs : List Constraint) : Prop :=
  List.Forall₂ (fun x c => IsLine k (line x) c) xs cs

theorem Lines.exists_of_mem (h : Lines k line xs cs) {c : Constraint} (hc : c ∈ cs) :
    ∃ x, IsLine k (line x) c := by
  induction h with
  | nil => simp at hc
  | cons hline _ ih =>
    rcases List.mem_cons.mp hc with rfl | hc
    · exact ⟨_, hline⟩
    · exact ih hc

theorem Lines.sum_coeff (h : Lines k line xs cs) (v : Variable) :
    (cs.map (·.form.coeff v)).sum =
      k.toInt * (xs.map fun x => ((line x).map (LinearForm.unitAt v)).sum).sum := by
  induction h with
  | nil => simp
  | cons hline _ ih =>
    simp only [List.map_cons, List.sum_cons, ih, hline.coeff_eq]
    ring

theorem Lines.sum_bound (h : Lines k line xs cs) :
    (cs.map (·.bound.toInt)).sum = k.toInt * xs.length := by
  induction h with
  | nil => simp
  | cons hline _ ih =>
    simp only [List.map_cons, List.sum_cons, ih, hline.bound, List.length_cons]
    push_cast
    ring

/-- Less than 2 ^ 32 lines with coefficients of absolute value one can be summed. -/
theorem Lines.summable (h : Lines k line xs cs) (hk : k.toInt.natAbs = 1)
    (hlen : xs.length < 0x100000000) : Summable .atLeast cs := by
  have hsmall {f : Constraint → Nat} (hf : ∀ c ∈ cs, f c ≤ 1) :
      (cs.map f).sum < 0x8000000000000000 := by
    have hle : (cs.map f).sum ≤ cs.length • 1 := by
      rw [← List.length_map f]
      apply List.sum_le_card_nsmul
      intro n hn
      obtain ⟨c, hc, rfl⟩ := List.mem_map.mp hn
      exact hf c hc
    have hcs : cs.length = xs.length := h.length_eq.symm
    simp only [smul_eq_mul, mul_one] at hle
    omega
  have hne : k ≠ 0 := by
    rintro rfl
    cases hk
  refine ⟨?_, ?_, ?_, ?_⟩
  · intro c hc
    obtain ⟨x, hline⟩ := h.exists_of_mem hc
    exact hline.relation
  · intro c hc
    obtain ⟨x, hline⟩ := h.exists_of_mem hc
    exact reduced_of_perm hne hline.perm
  · intro v
    apply hsmall
    intro c hc
    obtain ⟨x, hline⟩ := h.exists_of_mem hc
    exact hk ▸ hline.natAbs_coeff_le v
  · apply hsmall
    intro c hc
    obtain ⟨x, hline⟩ := h.exists_of_mem hc
    rw [hline.bound, hk]

/-! ## Rows against columns -/

theorem toInt_one : (1 : Int64).toInt = 1 := by decide

theorem toInt_neg_one : (-1 : Int64).toInt = -1 := by decide

/-- Every variable has the same weight in all rows and in all columns, so the sum of
the rows and the sum of the columns cancel. -/
theorem coeff_sum_add_coeff_sum {rows columns : List Constraint}
    (hrows : Lines 1 p.row (List.finRange p.pigeons) rows)
    (hcolumns : Lines (-1) p.column (List.finRange p.holes) columns) (v : Variable) :
    (rows.map (·.form.coeff v)).sum + (columns.map (·.form.coeff v)).sum = 0 := by
  rw [hrows.sum_coeff, hcolumns.sum_coeff, ← Fin.sum_univ_def, ← Fin.sum_univ_def]
  simp only [sum_row, sum_column]
  rw [Finset.sum_comm, toInt_one, toInt_neg_one]
  ring

end CuttingPlanes.Pigeonhole
