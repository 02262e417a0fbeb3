import CuttingPlanes.LinearForm.Addition
import Mathlib

/-!
# Values of linear forms

The value of a form is the sum of what its terms contribute, so it depends neither
on the order of the terms nor on terms with coefficient zero. The main statement,
`eval_add`, says that a sum of forms has the sum of their values: terms that cancel
are left out and nothing wraps around.
-/

namespace CuttingPlanes

/-- What a term contributes to a value. -/
def Term.value (a : Variable → Int) (t : Term) : Int := t.coeff.toInt * a t.var

namespace LinearForm

variable {a : Variable → Int}

theorem eval_eq_sum (a : Variable → Int) (f : LinearForm) :
    f.eval a = (f.terms.map (Term.value a)).sum := by
  unfold eval
  generalize f.terms = ts
  induction ts with
  | nil => rfl
  | cons t ts ih => rw [List.foldr_cons, ih, List.map_cons, List.sum_cons, Term.value]

theorem eval_eq_sum_of_perm {f : LinearForm} {ts : List Term} (h : f.terms.Perm ts) :
    f.eval a = (ts.map (Term.value a)).sum := by
  rw [eval_eq_sum]
  exact (h.map _).sum_eq

theorem value_add_value {s t : Term} {c : Int64} (hv : t.var = s.var)
    (hc : fit? (s.coeff.toInt + t.coeff.toInt) = some c) :
    Term.value a ⟨c, s.var⟩ = s.value a + t.value a := by
  have hsum : c.toInt = s.coeff.toInt + t.coeff.toInt := fit?_eq_some_iff.mp hc
  simp only [Term.value, hsum, hv]
  ring

theorem sum_value_addTerms {ss ts us : List Term} (h : addTerms ss ts = .ok us) :
    (us.map (Term.value a)).sum = (ss.map (Term.value a)).sum + (ts.map (Term.value a)).sum := by
  fun_induction addTerms ss ts generalizing us with
  | case1 ts => cases h; simp
  | case2 ss => cases h; simp
  | case3 s ss t ts _ ih =>
    obtain ⟨us, hus, rfl⟩ := map_eq_ok h
    have := ih hus
    simp only [List.map_cons, List.sum_cons] at this ⊢
    omega
  | case4 s ss t ts _ _ ih =>
    obtain ⟨us, hus, rfl⟩ := map_eq_ok h
    have := ih hus
    simp only [List.map_cons, List.sum_cons] at this ⊢
    omega
  | case5 => cases h
  | case6 s ss t ts hst hts hc ih =>
    have hv := Variable.eq_of_not_lt hts hst
    have hzero : (0 : Int) = s.value a + t.value a := by
      rw [← value_add_value hv hc]
      simp [Term.value]
    have := ih h
    simp only [List.map_cons, List.sum_cons]
    omega
  | case7 s ss t ts hst hts c hc _ ih =>
    obtain ⟨us, hus, rfl⟩ := map_eq_ok h
    have hv := Variable.eq_of_not_lt hts hst
    have hterm := value_add_value (a := a) hv hc
    have := ih hus
    simp only [List.map_cons, List.sum_cons] at this ⊢
    omega

theorem addTerms_of_add {f g h : LinearForm} (hadd : f.add g = .ok h) :
    addTerms f.terms g.terms = .ok h.terms := by
  unfold add at hadd
  split at hadd
  · cases hadd
  · rename_i ts heq
    cases hadd
    exact heq

theorem addTerms_of_add_error {f g : LinearForm} {v : Variable} (hadd : f.add g = .error v) :
    addTerms f.terms g.terms = .error v := by
  unfold add at hadd
  split at hadd
  · rename_i w heq
    cases hadd
    exact heq
  · cases hadd

/-- A sum has the sum of the values. -/
theorem eval_add {f g h : LinearForm} (hadd : f.add g = .ok h) :
    h.eval a = f.eval a + g.eval a := by
  simp only [eval_eq_sum]
  exact sum_value_addTerms (addTerms_of_add hadd)

end LinearForm

end CuttingPlanes
