import CuttingPlanes.Proofs.Constraint.Addition
import CuttingPlanes.Proofs.Derivation.Summation

/-!
# Adding constraints in any order

The two sides of a sum may be exchanged, whatever comes of it (`add_swap`). Grouping matters
for whether a sum fits, and it matters for zero coefficients that are written down: one that
cancels on the way is gone. Constraints without zero coefficients have no others in their
sums, and such a constraint is determined by its coefficients, so all the trees that add the
same constraints and have a sum have the same one (`add_laws`).
-/

namespace CuttingPlanes

namespace LinearForm

variable {f g : LinearForm} {v : Variable} {k : Int64}

theorem Overflows.symm (h : f.Overflows g v) : g.Overflows f v := by
  obtain ⟨x, y, hx, hy, hfits⟩ := h
  exact ⟨y, x, hy, hx, by rwa [add_comm]⟩

theorem OverflowsFirst.symm (h : f.OverflowsFirst g v) : g.OverflowsFirst f v :=
  ⟨h.overflows.symm, fun w hw => h.least w hw.symm⟩

/-- Without zero coefficients, the terms of a form are the values that are not zero. -/
theorem mem_terms_iff_coeff (hf : f.Reduced) : ⟨k, v⟩ ∈ f.terms ↔ k ≠ 0 ∧ f.coeff v = k.toInt := by
  constructor
  · intro hmem
    have hk : f.coeff? v = some k := (lookup_eq_some_iff f.ascending).mpr hmem
    exact ⟨hf _ hmem, coeff_eq_of_coeff? hk⟩
  · rintro ⟨hne, hcoeff⟩
    cases hx : f.coeff? v with
    | none =>
      have hzero : f.coeff v = (0 : Int64).toInt := by rw [coeff, hx]; rfl
      exact absurd (Int64.toInt_inj.mp (hcoeff.symm.trans hzero)) hne
    | some x =>
      have hxk : x = k := Int64.toInt_inj.mp ((coeff_eq_of_coeff? hx).symm.trans hcoeff)
      exact hxk ▸ mem_of_lookup hx

/-- A form without zero coefficients is determined by its coefficients. -/
theorem eq_of_coeff (hf : f.Reduced) (hg : g.Reduced) (h : ∀ v, f.coeff v = g.coeff v) :
    f = g := by
  apply eq_of_mem_terms_iff
  intro k v
  rw [mem_terms_iff_coeff hf, mem_terms_iff_coeff hg, h v]

end LinearForm

/-- The error with its left side and its right side exchanged. -/
def ConstraintError.swapped : ConstraintError → ConstraintError
  | .differentRelations left right => .differentRelations right left
  | e => e

namespace Constraint

variable {c d s s' : Constraint} {cs ds : List Constraint}

/-! ## Two constraints -/

theorem IsExactSum.symm (hrelation : c.relation = d.relation) (h : IsExactSum c d s) :
    IsExactSum d c s where
  relation_eq := h.relation_eq.trans hrelation
  bound_eq := h.bound_eq.trans (add_comm _ _)
  ascending := h.ascending
  mem_iff k v := by
    rw [h.mem_iff]
    constructor
    · rintro (⟨hk, hv⟩ | ⟨hv, hk⟩ | ⟨x, y, hx, hy, hsum, hne⟩)
      · exact Or.inr (Or.inl ⟨hv, hk⟩)
      · exact Or.inl ⟨hk, hv⟩
      · exact Or.inr (Or.inr ⟨y, x, hy, hx, hsum.trans (add_comm _ _), hne⟩)
    · rintro (⟨hk, hv⟩ | ⟨hv, hk⟩ | ⟨y, x, hy, hx, hsum, hne⟩)
      · exact Or.inr (Or.inl ⟨hv, hk⟩)
      · exact Or.inl ⟨hk, hv⟩
      · exact Or.inr (Or.inr ⟨x, y, hx, hy, hsum.trans (add_comm _ _), hne⟩)

theorem AddsTo.symm {result : Except ConstraintError Constraint} (h : AddsTo c d result) :
    AddsTo d c (result.mapError ConstraintError.swapped) := by
  cases h with
  | differentRelations hdiffer => exact .differentRelations (Ne.symm hdiffer)
  | coefficientOverflow hrelation hfirst => exact .coefficientOverflow hrelation.symm hfirst.symm
  | boundOverflow hrelation hno hbound =>
    exact .boundOverflow hrelation.symm (fun v hv => hno v hv.symm) (by rwa [add_comm])
  | sum hrelation hno hbound hsum =>
    exact .sum hrelation.symm (fun v hv => hno v hv.symm) (by rwa [add_comm])
      (hsum.symm hrelation)

/-- Exchanging the summands exchanges the sides of the error, if there is one, and nothing
else. -/
theorem add_swap (c d : Constraint) : d.add c = (c.add d).mapError ConstraintError.swapped :=
  (addsTo_add d c).unique (addsTo_add c d).symm

theorem reduced_of_add (hc : c.form.Reduced) (hd : d.form.Reduced) (h : c.add d = .ok s) :
    s.form.Reduced := by
  obtain ⟨-, -, hform, -⟩ := add_eq_ok_iff.mp h
  exact LinearForm.reduced_add hc hd hform

/-! ## Many constraints -/

theorem IsSumOf.append (hc : c.IsSumOf cs) (hd : d.IsSumOf ds) (h : c.add d = .ok s) :
    s.IsSumOf (cs ++ ds) := by
  obtain ⟨-, -, hform, hbound⟩ := add_eq_ok_iff.mp h
  constructor
  · intro v
    rw [List.map_append, List.sum_append, LinearForm.coeff_add hform, hc.coeff, hd.coeff]
  · rw [List.map_append, List.sum_append, hbound, hc.bound, hd.bound]

theorem IsSumOf.perm (h : s.IsSumOf cs) (hperm : cs.Perm ds) : s.IsSumOf ds :=
  ⟨fun v => (h.coeff v).trans (hperm.map _).sum_eq, h.bound.trans (hperm.map _).sum_eq⟩

/-- Some multiple of one variable is at least zero. -/
def scaled (k : Int64) : Constraint :=
  ⟨⟨[⟨k, ⟨8, by decide, by decide⟩⟩], List.pairwise_singleton _ _⟩, .atLeast, 0⟩

/-- A way to add some constraints, two at a time. -/
inductive SumTree
  | leaf (c : Constraint)
  | node (left right : SumTree)

namespace SumTree

/-- The constraints that are added. -/
def leaves : SumTree → List Constraint
  | .leaf c => [c]
  | .node left right => left.leaves ++ right.leaves

/-- What the tree adds up to, if all of its sums exist. -/
def total : SumTree → Except ConstraintError Constraint
  | .leaf c => .ok c
  | .node left right => do
    let c ← left.total
    let d ← right.total
    c.add d

variable {t u left right : SumTree}

theorem exists_of_total_node (h : (node left right).total = .ok s) :
    ∃ c d, left.total = .ok c ∧ right.total = .ok d ∧ c.add d = .ok s := by
  rw [total] at h
  cases hc : left.total with
  | error e => rw [hc] at h; cases h
  | ok c =>
    cases hd : right.total with
    | error e => rw [hc, hd] at h; cases h
    | ok d => rw [hc, hd] at h; exact ⟨c, d, rfl, rfl, h⟩

theorem leaves_ne_nil (t : SumTree) : t.leaves ≠ [] := by
  induction t with
  | leaf c => exact List.cons_ne_nil _ _
  | node left right ihl ihr => exact List.append_ne_nil_of_left_ne_nil ihl _

theorem isSumOf_of_total (h : t.total = .ok s) : s.IsSumOf t.leaves := by
  induction t generalizing s with
  | leaf c =>
    cases h
    exact isSumOf_singleton c
  | node left right ihl ihr =>
    obtain ⟨c, d, hc, hd, hadd⟩ := exists_of_total_node h
    exact (ihl hc).append (ihr hd) hadd

theorem relation_of_total (h : t.total = .ok s) {e : Constraint} (he : e ∈ t.leaves) :
    e.relation = s.relation := by
  induction t generalizing s with
  | leaf c =>
    cases h
    rw [List.mem_singleton.mp he]
  | node left right ihl ihr =>
    obtain ⟨c, d, hc, hd, hadd⟩ := exists_of_total_node h
    obtain ⟨hrelation, hs, -, -⟩ := add_eq_ok_iff.mp hadd
    obtain hleft | hright := List.mem_append.mp he
    · exact (ihl hc hleft).trans hs.symm
    · exact (ihr hd hright).trans (hrelation.symm.trans hs.symm)

theorem reduced_of_total (hreduced : ∀ c ∈ t.leaves, c.form.Reduced) (h : t.total = .ok s) :
    s.form.Reduced := by
  induction t generalizing s with
  | leaf c =>
    cases h
    exact hreduced c (List.mem_singleton.mpr rfl)
  | node left right ihl ihr =>
    obtain ⟨c, d, hc, hd, hadd⟩ := exists_of_total_node h
    refine reduced_of_add (ihl (fun e he => ?_) hc) (ihr (fun e he => ?_) hd) hadd
    · exact hreduced e (List.mem_append_left _ he)
    · exact hreduced e (List.mem_append_right _ he)

/-- Two trees with the same leaves, none of which has a zero coefficient, add up to the
same. -/
theorem total_unique (hperm : t.leaves.Perm u.leaves) (hreduced : ∀ c ∈ t.leaves, c.form.Reduced)
    (ht : t.total = .ok s) (hu : u.total = .ok s') : s = s' := by
  have hsum : s.IsSumOf u.leaves := (isSumOf_of_total ht).perm hperm
  have hsum' : s'.IsSumOf u.leaves := isSumOf_of_total hu
  have hform : s.form = s'.form := by
    have hreduced' : ∀ c ∈ u.leaves, c.form.Reduced :=
      fun c hc => hreduced c (hperm.mem_iff.mpr hc)
    refine LinearForm.eq_of_coeff (reduced_of_total hreduced ht) (reduced_of_total hreduced' hu) ?_
    exact fun v => (hsum.coeff v).trans (hsum'.coeff v).symm
  have hbound : s.bound = s'.bound := Int64.toInt_inj.mp (hsum.bound.trans hsum'.bound.symm)
  have hrelation : s.relation = s'.relation := by
    obtain ⟨c, hc⟩ := List.exists_mem_of_ne_nil _ t.leaves_ne_nil
    exact (relation_of_total ht hc).symm.trans (relation_of_total hu (hperm.mem_iff.mp hc))
  obtain ⟨form, relation, bound⟩ := s
  rw [Constraint.mk.injEq]
  exact ⟨hform, hrelation, hbound⟩

/-- With a zero coefficient the grouping matters: it stays if all that it meets has cancelled
before, and otherwise it goes. -/
theorem exists_total_ne : ∃ t u : SumTree, t.leaves = u.leaves ∧
    ∃ s s', t.total = .ok s ∧ u.total = .ok s' ∧ s ≠ s' := by
  refine ⟨node (node (leaf (scaled 0)) (leaf (scaled 1))) (leaf (scaled (-1))),
    node (leaf (scaled 0)) (node (leaf (scaled 1)) (leaf (scaled (-1)))), rfl, ?_⟩
  exact ⟨trivial .atLeast 0, scaled 0, by decide +kernel, by decide +kernel, by decide⟩

end SumTree

/-- The laws of addition: it commutes, errors included, it makes no zero coefficients, and
without these all the trees over some constraints that have a sum have the same. -/
theorem add_laws :
    (∀ c d : Constraint, d.add c = (c.add d).mapError ConstraintError.swapped) ∧
    (∀ c d s : Constraint, c.form.Reduced → d.form.Reduced → c.add d = .ok s → s.form.Reduced) ∧
    ∀ cs : List Constraint, (∀ c ∈ cs, c.form.Reduced) →
      ∀ t u : SumTree, t.leaves.Perm cs → u.leaves.Perm cs →
      ∀ s s' : Constraint, t.total = .ok s → u.total = .ok s' → s = s' := by
  refine ⟨add_swap, fun c d s => reduced_of_add, fun cs hreduced t u ht hu s s' hs hs' => ?_⟩
  have hleaves : ∀ c ∈ t.leaves, c.form.Reduced := fun c hc => hreduced c (ht.mem_iff.mp hc)
  exact SumTree.total_unique (ht.trans hu.symm) hleaves hs hs'

/-- The variable cancels in one tree and comes back, and it never cancels in the other. -/
theorem add_laws_cancelled :
    let t : SumTree := .node (.node (.leaf (scaled 1)) (.leaf (scaled (-1)))) (.leaf (scaled 2))
    let u : SumTree := .node (.leaf (scaled 1)) (.node (.leaf (scaled 2)) (.leaf (scaled (-1))))
    t.total = .ok (scaled 2) ∧ u.total = .ok (scaled 2) := by
  intro t u
  have hreduced : ∀ c ∈ t.leaves, c.form.Reduced := by
    have hscaled (k : Int64) (hk : k ≠ 0) : (scaled k).form.Reduced :=
      List.forall_mem_singleton.mpr hk
    exact List.forall_mem_cons.mpr ⟨hscaled 1 (by decide), List.forall_mem_cons.mpr
      ⟨hscaled (-1) (by decide), List.forall_mem_singleton.mpr (hscaled 2 (by decide))⟩⟩
  have hperm : u.leaves.Perm t.leaves := .cons _ (.swap _ _ _)
  have ht : t.total = .ok (scaled 2) := by decide +kernel
  cases hu : u.total with
  | error e =>
    have hsucceeds : u.total.isOk = true := by decide +kernel
    rw [hu] at hsucceeds
    cases hsucceeds
  | ok s =>
    have heq := add_laws.2.2 t.leaves hreduced t u (.refl _) hperm (scaled 2) s ht hu
    exact ⟨ht, heq ▸ rfl⟩

end Constraint

end CuttingPlanes
