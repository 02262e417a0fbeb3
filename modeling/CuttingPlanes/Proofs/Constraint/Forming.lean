import CuttingPlanes.Proofs.Constraint.Algebra
import Mathlib.Data.List.Duplicate

/-!
# Forming constraints from terms

A constraint is formed from terms in any order, unless some variable stands in two of them;
then the least such variable is named. Sorting puts the terms of one variable next to each
other, and the first such pair is one of the least variable (`repeatsFirst_of_sorted`). So
nothing depends on the order of the terms, and the variables of all constraints that are
formed or added up, however often, stand in ascending order (`forming_law`).
-/

namespace CuttingPlanes

namespace LinearForm

variable {ts us : List Term} {s t : Term} {v w : Variable} {f : LinearForm}

/-- The variable stands in two of the terms. -/
def Repeats (ts : List Term) (v : Variable) : Prop := (ts.map Term.var).Duplicate v

/-- The variable is the least one that stands in two of the terms. -/
structure RepeatsFirst (ts : List Term) (v : Variable) : Prop where
  repeats : Repeats ts v
  least : ∀ w, Repeats ts w → ¬w < v

theorem repeats_cons_iff : Repeats (t :: ts) v ↔ t.var = v ∧ v ∈ ts.map Term.var ∨ Repeats ts v :=
  List.duplicate_cons_iff

theorem Repeats.perm (h : Repeats ts v) (hperm : ts.Perm us) : Repeats us v := by
  rw [Repeats, List.duplicate_iff_two_le_count] at h ⊢
  rwa [← (hperm.map Term.var).count_eq]

theorem RepeatsFirst.perm (h : RepeatsFirst ts v) (hperm : ts.Perm us) : RepeatsFirst us v :=
  ⟨h.repeats.perm hperm, fun w hw => h.least w (hw.perm hperm.symm)⟩

theorem RepeatsFirst.unique (h : RepeatsFirst ts v) (h' : RepeatsFirst ts w) : v = w :=
  Variable.eq_of_not_lt (h'.least v h.repeats) (h.least w h'.repeats)

/-! ## Sorted terms -/

theorem var_le_of_mem (hsorted : (t :: ts).Pairwise fun s t => s.var.number ≤ t.var.number)
    (hs : s ∈ t :: ts) : t.var.number ≤ s.var.number := by
  rcases List.mem_cons.mp hs with rfl | hs
  · exact Nat.le_refl _
  · exact (List.pairwise_cons.mp hsorted).1 s hs

/-- Among sorted terms, the first variable that also stands in the next term is the least one
that stands in two. -/
theorem repeatsFirst_of_sorted (hsorted : ts.Pairwise fun s t => s.var.number ≤ t.var.number)
    (h : firstRepeated? ts = some v) : RepeatsFirst ts v := by
  fun_induction firstRepeated? ts with
  | case1 s t rest heq =>
    cases h
    refine ⟨repeats_cons_iff.mpr (Or.inl ⟨rfl, by rw [heq]; exact List.mem_cons_self⟩), ?_⟩
    intro w hw
    obtain ⟨u, hu, rfl⟩ := List.mem_map.mp hw.mem
    exact Nat.not_lt.mpr (var_le_of_mem hsorted hu)
  | case2 s t rest hne ih =>
    obtain ⟨hs, hrest⟩ := List.pairwise_cons.mp hsorted
    obtain ⟨hrepeats, hleast⟩ := ih hrest h
    refine ⟨repeats_cons_iff.mpr (Or.inr hrepeats), fun w hw => ?_⟩
    rcases repeats_cons_iff.mp hw with ⟨rfl, hmem⟩ | hw
    · -- the next term has a greater variable, and so have all that follow
      obtain ⟨u, hu, heq⟩ := List.mem_map.mp hmem
      have hlt : s.var.number < t.var.number :=
        Nat.lt_of_le_of_ne (hs t List.mem_cons_self) fun h => hne (Variable.ext h)
      have hle := var_le_of_mem hrest hu
      rw [heq] at hle
      exact absurd hlt (Nat.not_lt.mpr hle)
    · exact hleast w hw
  | case3 => cases h

theorem not_repeats_of_ascending (h : Ascending ts) (v : Variable) : ¬Repeats ts v :=
  List.nodup_iff_forall_not_duplicate.mp h.nodup_vars v

/-! ## Forms -/

theorem ofTerms_eq_ok_iff : ofTerms ts = .ok f ↔ f.terms.Perm ts :=
  ⟨perm_of_ofTerms, ofTerms_of_perm⟩

theorem repeatsFirst_of_ofTerms_error (h : ofTerms ts = .error v) : RepeatsFirst ts v := by
  unfold ofTerms at h
  split at h
  · rename_i w heq
    cases h
    exact (repeatsFirst_of_sorted (sorted_pairwise ts) heq).perm (sorted_perm ts)
  · cases h

theorem ofTerms_eq_error_iff : ofTerms ts = .error v ↔ RepeatsFirst ts v := by
  refine ⟨repeatsFirst_of_ofTerms_error, fun h => ?_⟩
  cases hform : ofTerms ts with
  | error w => rw [h.unique (repeatsFirst_of_ofTerms_error hform)]
  | ok f =>
    have hrepeats : Repeats f.terms v := h.repeats.perm (ofTerms_eq_ok_iff.mp hform).symm
    exact absurd hrepeats (not_repeats_of_ascending f.ascending v)

/-- What is formed is in order because its terms have been sorted and none was refused. -/
theorem ascending_of_ofTerms (h : ofTerms ts = .ok f) : Ascending f.terms := by
  unfold ofTerms at h
  split at h
  · cases h
  · rename_i hnone
    cases h
    exact ascending_of_firstRepeated? (sorted_pairwise ts) hnone

/-- A sum is in order because its summands are. -/
theorem ascending_of_add {g h : LinearForm} (hf : Ascending f.terms) (hg : Ascending g.terms)
    (hadd : f.add g = .ok h) : Ascending h.terms :=
  addTerms_ascending hf hg (addTerms_of_add hadd)

end LinearForm

namespace Constraint

open LinearForm

variable {ts us : List Term} {r : Relation} {b k : Int64} {c d s : Constraint}
  {e : ConstraintError} {vars : List Variable}

/-! ## Constraints -/

theorem ofTerms_eq_ok_iff :
    ofTerms ts r b = .ok c ↔ c.form.terms.Perm ts ∧ c.relation = r ∧ c.bound = b := by
  rw [← LinearForm.ofTerms_eq_ok_iff, ofTerms]
  obtain ⟨form, relation, bound⟩ := c
  cases LinearForm.ofTerms ts with
  | error v => simp
  | ok f =>
    rw [Except.ok.injEq, Except.ok.injEq, Constraint.mk.injEq]
    exact and_congr_right fun _ => and_congr eq_comm eq_comm

theorem ofTerms_eq_error_iff :
    ofTerms ts r b = .error e ↔ ∃ v, RepeatsFirst ts v ∧ e = .repeatedVariable v := by
  simp only [← LinearForm.ofTerms_eq_error_iff]
  rw [ofTerms]
  cases LinearForm.ofTerms ts with
  | error v =>
    rw [Except.error.injEq]
    constructor
    · rintro rfl
      exact ⟨v, rfl, rfl⟩
    · rintro ⟨w, hw, rfl⟩
      cases hw
      rfl
  | ok f => simp

theorem exists_error_iff : (∃ e, ofTerms ts r b = .error e) ↔ ∃ v, Repeats ts v := by
  constructor
  · rintro ⟨e, he⟩
    obtain ⟨v, hv, -⟩ := ofTerms_eq_error_iff.mp he
    exact ⟨v, hv.repeats⟩
  · rintro ⟨v, hv⟩
    cases hform : ofTerms ts r b with
    | error e => exact ⟨e, rfl⟩
    | ok c =>
      have hrepeats : Repeats c.form.terms v := hv.perm (ofTerms_eq_ok_iff.mp hform).1.symm
      exact absurd hrepeats (not_repeats_of_ascending c.form.ascending v)

theorem ofTerms_perm (h : ts.Perm us) (r : Relation) (b : Int64) :
    ofTerms ts r b = ofTerms us r b := by
  cases hform : ofTerms ts r b with
  | error e =>
    obtain ⟨v, hv, he⟩ := ofTerms_eq_error_iff.mp hform
    exact (ofTerms_eq_error_iff.mpr ⟨v, hv.perm h, he⟩).symm
  | ok c =>
    obtain ⟨hperm, hr, hb⟩ := ofTerms_eq_ok_iff.mp hform
    exact (ofTerms_eq_ok_iff.mpr ⟨hperm.trans h, hr, hb⟩).symm

/-- Constraints that are formed in one of the ways there are, and sums of such constraints. -/
inductive Obtained : Constraint → Prop
  | ofTerms {ts : List Term} {r : Relation} {b : Int64} {c : Constraint}
      (h : ofTerms ts r b = .ok c) : Obtained c
  | uniform {k : Int64} {r : Relation} {b : Int64} {vars : List Variable} {c : Constraint}
      (h : uniform k r b vars = .ok c) : Obtained c
  | trivial (r : Relation) (b : Int64) : Obtained (trivial r b)
  | add {c d s : Constraint} (hc : Obtained c) (hd : Obtained d) (h : c.add d = .ok s) :
      Obtained s

theorem form_of_ofTerms (h : ofTerms ts r b = .ok c) : LinearForm.ofTerms ts = .ok c.form :=
  LinearForm.ofTerms_eq_ok_iff.mpr (ofTerms_eq_ok_iff.mp h).1

theorem ofTerms_of_uniform (h : uniform k r b vars = .ok c) :
    ofTerms (vars.map (⟨k, ·⟩)) r b = .ok c := by
  unfold uniform at h
  split at h
  · cases h
  · exact h

theorem Obtained.ascending (h : Obtained c) : Ascending c.form.terms := by
  induction h with
  | ofTerms h => exact ascending_of_ofTerms (form_of_ofTerms h)
  | uniform h => exact ascending_of_ofTerms (form_of_ofTerms (ofTerms_of_uniform h))
  | trivial r b => exact .nil
  | add _ _ h ihc ihd =>
    obtain ⟨-, -, hform, -⟩ := add_eq_ok_iff.mp h
    exact ascending_of_add ihc ihd hform

theorem pairwise_vars (h : Ascending c.form.terms) : c.form.vars.Pairwise (· < ·) :=
  List.Pairwise.map Term.var (fun _ _ hlt => hlt) h

theorem length_coeffs (f : LinearForm) : f.coeffs.length = f.vars.length := by
  rw [coeffs, LinearForm.vars, List.length_map, List.length_map]

/-- Coefficients and variables, side by side, are the terms. -/
theorem zipWith_coeffs_vars (f : LinearForm) : List.zipWith Term.mk f.coeffs f.vars = f.terms := by
  rw [coeffs, LinearForm.vars, List.zipWith_map, List.zipWith_self]
  exact List.map_id f.terms

/-- No constraint is formed from terms exactly if some variable stands in two of them, and then
the least such variable is named; otherwise the constraint has these terms in ascending order
of their variables. So the order in which terms are given makes no difference. Constraints that
come from forming and adding have ascending variables and one coefficient for each. -/
theorem forming_law :
    (∀ ts r b, (∃ e, ofTerms ts r b = .error e) ↔ ∃ v, Repeats ts v) ∧
    (∀ ts r b e, ofTerms ts r b = .error e ↔ ∃ v, RepeatsFirst ts v ∧ e = .repeatedVariable v) ∧
    (∀ ts r b c, ofTerms ts r b = .ok c → c.form.terms.Perm ts ∧
      c.form.vars.Pairwise (· < ·) ∧ c.relation = r ∧ c.bound = b) ∧
    (∀ ts us r b, ts.Perm us → ofTerms ts r b = ofTerms us r b) ∧
    ∀ c, Obtained c → c.form.vars.Pairwise (· < ·) ∧ c.form.coeffs.length = c.form.vars.length ∧
      List.zipWith Term.mk c.form.coeffs c.form.vars = c.form.terms := by
  refine ⟨fun ts r b => exists_error_iff, fun ts r b e => ofTerms_eq_error_iff,
    fun ts r b c h => ?_, fun ts us r b hperm => ofTerms_perm hperm r b, fun c h => ?_⟩
  · obtain ⟨hperm, hr, hb⟩ := ofTerms_eq_ok_iff.mp h
    exact ⟨hperm, pairwise_vars (Obtained.ofTerms h).ascending, hr, hb⟩
  · exact ⟨pairwise_vars h.ascending, length_coeffs c.form, zipWith_coeffs_vars c.form⟩

/-- Two variables stand in two terms each, and the one that comes second is named. Terms in
descending order are sorted, and a sum keeps their order. -/
theorem forming_law_descending :
    let x : Variable := ⟨3, by decide, by decide⟩
    let y : Variable := ⟨9, by decide, by decide⟩
    let ts : List Term := [⟨2, y⟩, ⟨0, x⟩, ⟨-1, y⟩, ⟨5, x⟩]
    ofTerms ts .atLeast 1 = .error (.repeatedVariable x) ∧
    ofTerms ts.reverse .atLeast 1 = .error (.repeatedVariable x) ∧
    ∃ c d s, ofTerms [⟨0, y⟩, ⟨4, x⟩] .atLeast 1 = .ok c ∧
      uniform (-1) .atLeast (-1) [y, x] = .ok d ∧ c.add d = .ok s ∧ s.form.vars = [x, y] ∧
      s.form.vars.Pairwise (· < ·) := by
  intro x y ts
  have hfirst : RepeatsFirst [⟨0, x⟩, ⟨5, x⟩, ⟨2, y⟩, ⟨-1, y⟩] x :=
    repeatsFirst_of_sorted (by decide) rfl
  have hrefused : ofTerms ts .atLeast 1 = .error (.repeatedVariable x) :=
    (forming_law.2.1 ts .atLeast 1 _).mpr ⟨x, hfirst.perm (by decide), rfl⟩
  have hreverse := forming_law.2.2.2.1 ts.reverse ts .atLeast 1 ts.reverse_perm
  let c : Constraint := ⟨⟨[⟨4, x⟩, ⟨0, y⟩], by decide⟩, .atLeast, 1⟩
  let d : Constraint := ⟨⟨[⟨-1, x⟩, ⟨-1, y⟩], by decide⟩, .atLeast, -1⟩
  let s : Constraint := ⟨⟨[⟨3, x⟩, ⟨-1, y⟩], by decide⟩, .atLeast, 0⟩
  have hc : ofTerms [⟨0, y⟩, ⟨4, x⟩] .atLeast 1 = .ok c :=
    ofTerms_eq_ok_iff.mpr ⟨by decide, rfl, rfl⟩
  have hd : uniform (-1) .atLeast (-1) [y, x] = .ok d :=
    ofTerms_eq_ok_iff.mpr ⟨by decide, rfl, rfl⟩
  have hadd : c.add d = .ok s := by decide +kernel
  have hs := forming_law.2.2.2.2 s (.add (.ofTerms hc) (.uniform hd) hadd)
  exact ⟨hrefused, hreverse.trans hrefused, c, d, s, hc, hd, hadd, rfl, hs.1⟩

end Constraint

end CuttingPlanes
