import CuttingPlanes.Constraint.Basic
import CuttingPlanes.Proofs.LinearForm.Coefficient
import CuttingPlanes.Proofs.LinearForm.Forming

/-!
# The algebra of constraints

A sum of two constraints follows from them under every assignment of integers, for
both relations (`satisfied_add`), and no assignment satisfies a contradiction
(`not_satisfied_of_isContradiction`). Coefficients and bounds add up, and a sum
exists whenever these fit into 64 bits (`exists_add`). The last section describes
the constraints that give one coefficient to each of some variables.
-/

namespace CuttingPlanes

namespace Relation

theorem holds_add {r : Relation} {x y b c : Int} (h : r.Holds x b) (h' : r.Holds y c) :
    r.Holds (x + y) (b + c) := by
  cases r with
  | atLeast => exact Int.add_le_add h h'
  | equal => exact congrArg₂ (· + ·) h h'

end Relation

namespace Constraint

instance (a : Variable → Int) (c : Constraint) : Decidable (c.Satisfied a) :=
  inferInstanceAs (Decidable (c.relation.Holds _ _))

variable {c d s : Constraint}

/-! ## Sums -/

theorem add_eq_ok_iff :
    c.add d = .ok s ↔ c.relation = d.relation ∧ s.relation = c.relation ∧
      c.form.add d.form = .ok s.form ∧ s.bound.toInt = c.bound.toInt + d.bound.toInt := by
  unfold add
  by_cases hr : c.relation = d.relation
  · rw [if_neg (not_not.mpr hr)]
    cases hf : c.form.add d.form with
    | error v => simp
    | ok form =>
      cases hb : fit? (c.bound.toInt + d.bound.toInt) with
      | none =>
        simp only [reduceCtorEq, false_iff, not_and]
        rintro - - - hs
        rw [← hs, fit?_toInt] at hb
        cases hb
      | some bound =>
        have hbound := fit?_eq_some_iff.mp hb
        rw [← hbound, Int64.toInt_inj]
        cases s
        simp only [Except.ok.injEq, mk.injEq, hr, true_and]
        tauto
  · rw [if_pos hr]
    simp [hr]

theorem satisfied_add {a : Variable → Int} (hc : c.Satisfied a) (hd : d.Satisfied a)
    (h : c.add d = .ok s) : s.Satisfied a := by
  obtain ⟨hr, hs, hform, hbound⟩ := add_eq_ok_iff.mp h
  unfold Satisfied at *
  rw [hs, LinearForm.eval_add hform, hbound]
  rw [← hr] at hd
  exact Relation.holds_add hc hd

theorem not_satisfied_of_isContradiction (h : c.isContradiction = true) (a : Variable → Int) :
    ¬ c.Satisfied a := by
  simp only [isContradiction, Bool.and_eq_true, List.isEmpty_iff, Bool.not_eq_eq_eq_not,
    Bool.not_true, decide_eq_false_iff_not] at h
  have heval : c.form.eval a = 0 := by rw [LinearForm.eval_eq_sum, h.1]; rfl
  unfold Satisfied
  rw [heval]
  exact h.2

/-- Two constraints of one relation have a sum if their coefficients and their
bounds do. -/
theorem exists_add (hr : c.relation = d.relation)
    (hcoeff : ∀ v, -0x8000000000000000 ≤ c.form.coeff v + d.form.coeff v ∧
      c.form.coeff v + d.form.coeff v < 0x8000000000000000)
    (hbound : -0x8000000000000000 ≤ c.bound.toInt + d.bound.toInt ∧
      c.bound.toInt + d.bound.toInt < 0x8000000000000000) :
    ∃ s, c.add d = .ok s := by
  cases hf : c.form.add d.form with
  | error v =>
    obtain ⟨x, y, hx, hy, hnone⟩ := LinearForm.exists_of_add_error hf
    rw [← LinearForm.coeff_eq_of_coeff? hx, ← LinearForm.coeff_eq_of_coeff? hy] at hnone
    exact absurd (hcoeff v) (fit?_eq_none_iff.mp hnone)
  | ok form =>
    cases hb : fit? (c.bound.toInt + d.bound.toInt) with
    | none => exact absurd hbound (fit?_eq_none_iff.mp hb)
    | some bound =>
      refine ⟨⟨form, c.relation, bound⟩, add_eq_ok_iff.mpr ⟨hr, rfl, hf, ?_⟩⟩
      exact fit?_eq_some_iff.mp hb

/-! ## One coefficient for each of some variables -/

/-- What `uniform` forms: the relation and the bound are as given, and the terms are
the variables with the given coefficient. -/
theorem exists_uniform {vars : List Variable} (hne : vars ≠ []) (hnodup : vars.Nodup)
    (k : Int64) (r : Relation) (b : Int64) :
    ∃ c, uniform k r b vars = .ok c ∧ c.relation = r ∧ c.bound = b ∧
      c.form.terms.Perm (vars.map (⟨k, ·⟩)) := by
  have hvars : ((vars.map (⟨k, ·⟩ : Variable → Term)).map Term.var).Nodup := by
    simpa [Function.comp_def] using hnodup
  obtain ⟨f, hf, hperm⟩ := LinearForm.ofTerms_of_nodup hvars
  refine ⟨⟨f, r, b⟩, ?_, rfl, rfl, hperm⟩
  simp [uniform, hne, ofTerms, hf]

theorem eval_of_perm {vars : List Variable} {k : Int64} {f : LinearForm}
    (h : f.terms.Perm (vars.map (⟨k, ·⟩))) (a : Variable → Int) :
    f.eval a = k.toInt * (vars.map a).sum := by
  rw [LinearForm.eval_eq_sum_of_perm h, List.map_map, ← List.sum_map_mul_left]
  rfl

theorem coeff_of_perm {vars : List Variable} {k : Int64} {f : LinearForm} (hnodup : vars.Nodup)
    (h : f.terms.Perm (vars.map (⟨k, ·⟩))) (v : Variable) :
    f.coeff v = if v ∈ vars then k.toInt else 0 := by
  rw [LinearForm.coeff_eq_eval, eval_of_perm h]
  have hsum : (vars.map (LinearForm.unitAt v)).sum = vars.count v := by
    show (vars.map fun w => if w = v then (1 : Int) else 0).sum = _
    simp [List.sum_map_ite_eq]
  rw [hsum, hnodup.count]
  split <;> simp

theorem reduced_of_perm {vars : List Variable} {k : Int64} {f : LinearForm} (hk : k ≠ 0)
    (h : f.terms.Perm (vars.map (⟨k, ·⟩))) : f.Reduced := by
  intro t ht
  obtain ⟨v, -, rfl⟩ := List.mem_map.mp (h.mem_iff.mp ht)
  exact hk

end Constraint

end CuttingPlanes
