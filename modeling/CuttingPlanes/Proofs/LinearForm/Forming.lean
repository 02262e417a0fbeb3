import CuttingPlanes.LinearForm.Basic
import Mathlib.Data.List.Nodup

/-!
# Forming linear forms

Terms give a form whenever no variable stands in two of them; the form holds the
same terms in ascending order (`ofTerms_of_nodup`). The terms of a form give that
form again, whatever order they are in (`ofTerms_of_perm`).
-/

namespace CuttingPlanes

theorem Ascending.nodup_vars {ts : List Term} (h : Ascending ts) : (ts.map Term.var).Nodup := by
  apply List.Pairwise.map Term.var _ h
  intro s t hst he
  exact Variable.lt_irrefl t.var (he ▸ hst)

/-- Terms can be put into ascending order in one way only. -/
theorem Ascending.eq_of_perm {ts us : List Term} (hts : Ascending ts) (hus : Ascending us)
    (h : ts.Perm us) : ts = us :=
  h.eq_of_pairwise
    (fun _ _ _ _ hst hts => absurd (Variable.lt_trans hst hts) (Variable.lt_irrefl _)) hts hus

namespace LinearForm

theorem firstRepeated?_eq_none {ts : List Term} (h : (ts.map Term.var).Nodup) :
    firstRepeated? ts = none := by
  fun_induction firstRepeated? ts with
  | case1 s t rest he => simp [he] at h
  | case2 s t rest _ ih => exact ih (List.nodup_cons.mp h).2
  | case3 => rfl

theorem ofTerms_eq_ok {ts : List Term} (h : firstRepeated? (sorted ts) = none) :
    ∃ f, ofTerms ts = .ok f ∧ f.terms = sorted ts := by
  unfold ofTerms
  split
  · rename_i v heq
    rw [h] at heq
    cases heq
  · exact ⟨_, rfl, rfl⟩

/-- Forming loses no term. -/
theorem perm_of_ofTerms {ts : List Term} {f : LinearForm} (h : ofTerms ts = .ok f) :
    f.terms.Perm ts := by
  unfold ofTerms at h
  split at h
  · cases h
  · cases h
    exact sorted_perm ts

theorem ofTerms_of_nodup {ts : List Term} (h : (ts.map Term.var).Nodup) :
    ∃ f, ofTerms ts = .ok f ∧ f.terms.Perm ts := by
  have hperm := sorted_perm ts
  have hnone : firstRepeated? (sorted ts) = none :=
    firstRepeated?_eq_none ((hperm.map Term.var).nodup_iff.mpr h)
  obtain ⟨f, hf, hterms⟩ := ofTerms_eq_ok hnone
  exact ⟨f, hf, hterms ▸ hperm⟩

/-- The terms of a form give the form, whatever order they are in. -/
theorem ofTerms_of_perm {ts : List Term} {f : LinearForm} (h : f.terms.Perm ts) :
    ofTerms ts = .ok f := by
  have hnodup : (ts.map Term.var).Nodup :=
    (h.map Term.var).nodup_iff.mp f.ascending.nodup_vars
  obtain ⟨g, hg, hterms⟩ := ofTerms_of_nodup hnodup
  rw [hg, ext (g.ascending.eq_of_perm f.ascending (hterms.trans h.symm))]

end LinearForm

end CuttingPlanes
