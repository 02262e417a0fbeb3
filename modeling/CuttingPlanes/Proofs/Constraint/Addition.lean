import CuttingPlanes.Proofs.Constraint.Algebra

/-!
# Adding constraints exactly or not at all

The sum of two constraints is exact, and when there is none the reason is the first one
that applies: the relations differ, the coefficients of some variable have no sum of 64
bits, of which the least variable is named, or the bounds have none (`add_eq_iff_addsTo`).
For forms this goes along the terms: what stands in front of a pair of equal variables
stands in one of the forms only, so no sum is missed that does not fit.
-/

namespace CuttingPlanes

/-- The integer is one of 64 bits. -/
def Fits (z : Int) : Prop := -0x8000000000000000 ≤ z ∧ z < 0x8000000000000000

namespace LinearForm

/-! ## Forms -/

section Terms

variable {ss ts ss' ts' : List Term} {s t : Term} {v : Variable}

/-- The variable has a coefficient in both lists, and these have no sum of 64 bits. -/
def TermsOverflow (ss ts : List Term) (v : Variable) : Prop :=
  ∃ x y, lookup ss v = some x ∧ lookup ts v = some y ∧ fit? (x.toInt + y.toInt) = none

/-- A term in front of all of the other list overflows with none of them. -/
theorem termsOverflow_cons_left (h : ∀ u ∈ ts, s.var < u.var) :
    TermsOverflow (s :: ss) ts v ↔ TermsOverflow ss ts v := by
  by_cases hv : s.var = v
  · have hnone : lookup ts v = none := lookup_eq_none_of_lt (hv ▸ h)
    simp [TermsOverflow, hnone]
  · simp [TermsOverflow, lookup_cons, hv]

theorem termsOverflow_cons_right (h : ∀ u ∈ ss, t.var < u.var) :
    TermsOverflow ss (t :: ts) v ↔ TermsOverflow ss ts v := by
  by_cases hv : t.var = v
  · have hnone : lookup ss v = none := lookup_eq_none_of_lt (hv ▸ h)
    simp [TermsOverflow, hnone]
  · simp [TermsOverflow, lookup_cons, hv]

/-- Two terms of one variable overflow by themselves or not at all. -/
theorem termsOverflow_cons_cons (heq : s.var = t.var) (hs : ∀ u ∈ ss, s.var < u.var) :
    TermsOverflow (s :: ss) (t :: ts) v ↔
      (v = s.var ∧ fit? (s.coeff.toInt + t.coeff.toInt) = none) ∨ TermsOverflow ss ts v := by
  by_cases hv : s.var = v
  · have hnone : lookup ss v = none := lookup_eq_none_of_lt (hv ▸ hs)
    simp [TermsOverflow, lookup_cons, ← heq, hv, hnone]
  · simp [TermsOverflow, lookup_cons, ← heq, hv, Ne.symm hv]

/-- What the result of an addition says about the overflows of its summands: all sums fit if
it is a sum, and otherwise it names the least variable whose sum does not. -/
def ReportsOverflow (ss ts : List Term) : Except Variable (List Term) → Prop
  | .ok _ => ∀ w, ¬TermsOverflow ss ts w
  | .error v => TermsOverflow ss ts v ∧ ∀ w, TermsOverflow ss ts w → ¬w < v

theorem ReportsOverflow.of_iff {result : Except Variable (List Term)}
    (h : ReportsOverflow ss' ts' result)
    (hiff : ∀ w, TermsOverflow ss ts w ↔ TermsOverflow ss' ts' w) :
    ReportsOverflow ss ts result := by
  cases result with
  | ok us => exact fun w hw => h w ((hiff w).mp hw)
  | error v => exact ⟨(hiff v).mpr h.1, fun w hw => h.2 w ((hiff w).mp hw)⟩

theorem ReportsOverflow.map {result : Except Variable (List Term)}
    (h : ReportsOverflow ss ts result) (f : List Term → List Term) :
    ReportsOverflow ss ts (f <$> result) := by
  cases result <;> exact h

theorem reportsOverflow_addTerms (hs : Ascending ss) (ht : Ascending ts) :
    ReportsOverflow ss ts (addTerms ss ts) := by
  fun_induction addTerms ss ts with
  | case1 ts => simp [ReportsOverflow, TermsOverflow]
  | case2 ss => simp [ReportsOverflow, TermsOverflow]
  | case3 s ss t ts hlt ih =>
    have hfront : ∀ u ∈ t :: ts, s.var < u.var := lt_of_ascending_cons ht hlt
    have hrest := ih (List.pairwise_cons.mp hs).2 ht
    exact (hrest.of_iff fun w => termsOverflow_cons_left hfront).map _
  | case4 s ss t ts _ hlt ih =>
    have hfront : ∀ u ∈ s :: ss, t.var < u.var := lt_of_ascending_cons hs hlt
    have hrest := ih hs (List.pairwise_cons.mp ht).2
    exact (hrest.of_iff fun w => termsOverflow_cons_right hfront).map _
  | case5 s ss t ts hst hts hfit =>
    obtain ⟨hss, -⟩ := List.pairwise_cons.mp hs
    have hpair {w : Variable} : TermsOverflow (s :: ss) (t :: ts) w ↔
        (w = s.var ∧ fit? (s.coeff.toInt + t.coeff.toInt) = none) ∨ TermsOverflow ss ts w :=
      termsOverflow_cons_cons (Variable.eq_of_not_lt hst hts) hss
    refine ⟨hpair.mpr (Or.inl ⟨rfl, hfit⟩), fun w hw hlt => ?_⟩
    obtain ⟨rfl, -⟩ | ⟨x, -, hx, -⟩ := hpair.mp hw
    · exact Variable.lt_irrefl _ hlt
    · -- every later variable is greater
      exact Variable.lt_irrefl w (Variable.lt_trans hlt (hss _ (mem_of_lookup hx)))
  | case6 s ss t ts hst hts hc ih =>
    obtain ⟨hss, hs⟩ := List.pairwise_cons.mp hs
    have hrest := ih hs (List.pairwise_cons.mp ht).2
    refine hrest.of_iff fun w => ?_
    rw [termsOverflow_cons_cons (Variable.eq_of_not_lt hst hts) hss, hc]
    simp
  | case7 s ss t ts hst hts c hc _ ih =>
    obtain ⟨hss, hs⟩ := List.pairwise_cons.mp hs
    have hrest := ih hs (List.pairwise_cons.mp ht).2
    refine ReportsOverflow.map (hrest.of_iff fun w => ?_) _
    rw [termsOverflow_cons_cons (Variable.eq_of_not_lt hst hts) hss, hc]
    simp

end Terms

variable {f g h : LinearForm} {v : Variable}

/-- The variable stands in both forms, with coefficients that have no sum of 64 bits. -/
def Overflows (f g : LinearForm) (v : Variable) : Prop :=
  ∃ x y, ⟨x, v⟩ ∈ f.terms ∧ ⟨y, v⟩ ∈ g.terms ∧ ¬Fits (x.toInt + y.toInt)

/-- The variable is the least one that overflows. -/
structure OverflowsFirst (f g : LinearForm) (v : Variable) : Prop where
  overflows : f.Overflows g v
  least : ∀ w, f.Overflows g w → ¬w < v

theorem OverflowsFirst.unique {w : Variable} (h : f.OverflowsFirst g v)
    (h' : f.OverflowsFirst g w) : v = w :=
  Variable.eq_of_not_lt (h'.least v h.overflows) (h.least w h'.overflows)

theorem overflows_iff : f.Overflows g v ↔ TermsOverflow f.terms g.terms v := by
  simp only [Overflows, TermsOverflow, lookup_eq_some_iff f.ascending,
    lookup_eq_some_iff g.ascending, fit?_eq_none_iff, Fits]

theorem overflowsFirst_of_add_error (hadd : f.add g = .error v) : f.OverflowsFirst g v := by
  have hreports := reportsOverflow_addTerms f.ascending g.ascending
  rw [addTerms_of_add_error hadd] at hreports
  obtain ⟨hv, hleast⟩ := hreports
  exact ⟨overflows_iff.mpr hv, fun w hw => hleast w (overflows_iff.mp hw)⟩

theorem not_overflows_of_add_ok (hadd : f.add g = .ok h) (v : Variable) : ¬f.Overflows g v := by
  have hreports := reportsOverflow_addTerms f.ascending g.ascending
  rw [addTerms_of_add hadd] at hreports
  exact fun hv => hreports v (overflows_iff.mp hv)

theorem notMem_vars_iff : v ∉ f.vars ↔ lookup f.terms v = none := by
  rw [lookup_eq_none_iff, vars, List.mem_map]
  push Not
  rfl

/-- A term stands in a sum if it stands in one of the forms and its variable not in the other,
or if it is the sum of a term of each, which is not zero. -/
theorem mem_terms_of_add (hadd : f.add g = .ok h) (k : Int64) (v : Variable) :
    ⟨k, v⟩ ∈ h.terms ↔
      (⟨k, v⟩ ∈ f.terms ∧ v ∉ g.vars) ∨ (v ∉ f.vars ∧ ⟨k, v⟩ ∈ g.terms) ∨
        ∃ x y, ⟨x, v⟩ ∈ f.terms ∧ ⟨y, v⟩ ∈ g.terms ∧ k.toInt = x.toInt + y.toInt ∧ k ≠ 0 := by
  have hcoeff : lookup h.terms v = addCoeff (lookup f.terms v) (lookup g.terms v) :=
    coeff?_add hadd v
  simp only [notMem_vars_iff, ← lookup_eq_some_iff f.ascending, ← lookup_eq_some_iff g.ascending,
    ← lookup_eq_some_iff h.ascending, hcoeff]
  cases lookup f.terms v with
  | none => simp [addCoeff]
  | some x =>
    cases lookup g.terms v with
    | none => simp [addCoeff]
    | some y => simp [addCoeff, Option.filter_eq_some_iff, fit?_eq_some_iff]

/-- A form is determined by the terms that stand in it. -/
theorem eq_of_mem_terms_iff (hmem : ∀ k v, (⟨k, v⟩ : Term) ∈ f.terms ↔ ⟨k, v⟩ ∈ g.terms) :
    f = g := by
  have hperm : f.terms.Perm g.terms :=
    (List.perm_ext_iff_of_nodup f.ascending.nodup_vars.of_map g.ascending.nodup_vars.of_map).mpr
      fun t => hmem t.coeff t.var
  refine ext (List.Perm.eq_of_pairwise ?_ f.ascending g.ascending hperm)
  intro s t _ _ hst hts
  exact absurd (Variable.lt_trans hst hts) (Variable.lt_irrefl _)

end LinearForm

namespace Constraint

/-! ## Constraints -/

variable {c d s s' : Constraint}

/-- The exact sum. A variable stands in it with the coefficient that it has in one constraint
and not in the other, zero or not, or with the sum of its two coefficients unless this is zero. -/
structure IsExactSum (c d s : Constraint) : Prop where
  relation_eq : s.relation = c.relation
  bound_eq : s.bound.toInt = c.bound.toInt + d.bound.toInt
  ascending : s.form.vars.Pairwise (· < ·)
  mem_iff : ∀ k v, (⟨k, v⟩ : Term) ∈ s.form.terms ↔
    (⟨k, v⟩ ∈ c.form.terms ∧ v ∉ d.form.vars) ∨ (v ∉ c.form.vars ∧ ⟨k, v⟩ ∈ d.form.terms) ∨
      ∃ x y, ⟨x, v⟩ ∈ c.form.terms ∧ ⟨y, v⟩ ∈ d.form.terms ∧ k.toInt = x.toInt + y.toInt ∧ k ≠ 0

/-- What two constraints are added to, by what can be said of them without adding. -/
inductive AddsTo (c d : Constraint) : Except ConstraintError Constraint → Prop
  | differentRelations (hrelation : c.relation ≠ d.relation) :
    AddsTo c d (.error (.differentRelations c.relation d.relation))
  | coefficientOverflow {v : Variable} (hrelation : c.relation = d.relation)
    (hfirst : c.form.OverflowsFirst d.form v) : AddsTo c d (.error (.coefficientOverflow v))
  | boundOverflow (hrelation : c.relation = d.relation) (hno : ∀ v, ¬c.form.Overflows d.form v)
    (hbound : ¬Fits (c.bound.toInt + d.bound.toInt)) : AddsTo c d (.error .boundOverflow)
  | sum {s : Constraint} (hrelation : c.relation = d.relation)
    (hno : ∀ v, ¬c.form.Overflows d.form v) (hbound : Fits (c.bound.toInt + d.bound.toInt))
    (hsum : IsExactSum c d s) : AddsTo c d (.ok s)

theorem isExactSum_of_add (h : c.add d = .ok s) : IsExactSum c d s := by
  obtain ⟨-, hrelation, hform, hbound⟩ := add_eq_ok_iff.mp h
  exact ⟨hrelation, hbound, List.pairwise_map.mpr s.form.ascending,
    LinearForm.mem_terms_of_add hform⟩

theorem IsExactSum.unique (h : IsExactSum c d s) (h' : IsExactSum c d s') : s = s' := by
  have hform : s.form = s'.form :=
    LinearForm.eq_of_mem_terms_iff fun k v => (h.mem_iff k v).trans (h'.mem_iff k v).symm
  have hrelation : s.relation = s'.relation := h.relation_eq.trans h'.relation_eq.symm
  have hbound : s.bound = s'.bound := Int64.toInt_inj.mp (h.bound_eq.trans h'.bound_eq.symm)
  cases s
  cases s'
  simp_all

theorem addsTo_add (c d : Constraint) : AddsTo c d (c.add d) := by
  by_cases hrelation : c.relation = d.relation
  · cases hform : c.form.add d.form with
    | error v =>
      have hadd : c.add d = .error (.coefficientOverflow v) := by simp [add, hrelation, hform]
      rw [hadd]
      exact .coefficientOverflow hrelation (LinearForm.overflowsFirst_of_add_error hform)
    | ok form =>
      have hno := LinearForm.not_overflows_of_add_ok hform
      cases hbound : fit? (c.bound.toInt + d.bound.toInt) with
      | none =>
        have hadd : c.add d = .error .boundOverflow := by simp [add, hrelation, hform, hbound]
        rw [hadd]
        exact .boundOverflow hrelation hno (fit?_eq_none_iff.mp hbound)
      | some bound =>
        have hfits : Fits (c.bound.toInt + d.bound.toInt) := by
          by_contra hnot
          rw [fit?_eq_none_iff.mpr hnot] at hbound
          cases hbound
        have hadd : c.add d = .ok ⟨form, c.relation, bound⟩ := by
          simp [add, hrelation, hform, hbound]
        rw [hadd]
        exact .sum hrelation hno hfits (isExactSum_of_add hadd)
  · have hadd : c.add d = .error (.differentRelations c.relation d.relation) := if_pos hrelation
    rw [hadd]
    exact .differentRelations hrelation

/-- No two constraints are added to two things. -/
theorem AddsTo.unique {result result' : Except ConstraintError Constraint}
    (h : AddsTo c d result) (h' : AddsTo c d result') : result = result' := by
  cases h with
  | differentRelations hdiffer =>
    cases h' with
    | differentRelations => rfl
    | coefficientOverflow hrelation => exact absurd hrelation hdiffer
    | boundOverflow hrelation => exact absurd hrelation hdiffer
    | sum hrelation => exact absurd hrelation hdiffer
  | coefficientOverflow hrelation hfirst =>
    cases h' with
    | differentRelations hdiffer => exact absurd hrelation hdiffer
    | coefficientOverflow _ hfirst' => rw [hfirst.unique hfirst']
    | boundOverflow _ hno _ => exact absurd hfirst.overflows (hno _)
    | sum _ hno _ _ => exact absurd hfirst.overflows (hno _)
  | boundOverflow hrelation hno hbound =>
    cases h' with
    | differentRelations hdiffer => exact absurd hrelation hdiffer
    | coefficientOverflow _ hfirst => exact absurd hfirst.overflows (hno _)
    | boundOverflow => rfl
    | sum _ _ hfits _ => exact absurd hfits hbound
  | sum hrelation hno hfits hsum =>
    cases h' with
    | differentRelations hdiffer => exact absurd hrelation hdiffer
    | coefficientOverflow _ hfirst => exact absurd hfirst.overflows (hno _)
    | boundOverflow _ _ hbound => exact absurd hfits hbound
    | sum _ _ _ hsum' => rw [hsum.unique hsum']

/-- Adding two constraints gives their exact sum, or the first error that applies. -/
theorem add_eq_iff_addsTo (c d : Constraint) (result : Except ConstraintError Constraint) :
    c.add d = result ↔ AddsTo c d result := by
  constructor
  · rintro rfl
    exact addsTo_add c d
  · exact fun h => (addsTo_add c d).unique h

end Constraint

end CuttingPlanes
