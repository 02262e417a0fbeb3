import CuttingPlanes.Proofs.Derivation.Steps

/-!
# Summing many steps

Whatever pairs the queue of `sum` forms, the constraint that is left has the sums of
all coefficients and bounds. Nothing overflows on the way when the absolute values
of what is summed stay below 2 ^ 63, since a partial sum is bounded by them
(`sum_succeeds`).
-/

namespace CuttingPlanes

namespace Constraint

/-- The coefficients and the bound are the sums of those of the given constraints. -/
structure IsSumOf (c : Constraint) (cs : List Constraint) : Prop where
  coeff : ∀ v, c.form.coeff v = (cs.map (·.form.coeff v)).sum
  bound : c.bound.toInt = (cs.map (·.bound.toInt)).sum

/-- Constraints of one relation and without zero coefficients that are light enough
to be summed in any order. -/
structure Summable (r : Relation) (cs : List Constraint) : Prop where
  relation : ∀ c ∈ cs, c.relation = r
  reduced : ∀ c ∈ cs, c.form.Reduced
  coeff_lt : ∀ v, (cs.map fun c => (c.form.coeff v).natAbs).sum < 0x8000000000000000
  bound_lt : (cs.map fun c => c.bound.toInt.natAbs).sum < 0x8000000000000000

variable {r : Relation} {c d s : Constraint} {cs : List Constraint}

theorem sum_map_queue {M : Type} [AddCommMonoid M] (f : Constraint → M) :
    ((c :: d :: cs).map f).sum = f c + f d + (cs.map f).sum := by
  simp [add_assoc]

theorem sum_map_snoc {M : Type} [AddCommMonoid M] (f : Constraint → M) :
    ((cs ++ [s]).map f).sum = (cs.map f).sum + f s := by
  simp

theorem isSumOf_singleton (c : Constraint) : c.IsSumOf [c] := ⟨fun v => by simp, by simp⟩

theorem Summable.exists_add (h : Summable r (c :: d :: cs)) : ∃ s, c.add d = .ok s := by
  have hc : c.relation = r := h.relation c (by simp)
  have hd : d.relation = r := h.relation d (by simp)
  apply Constraint.exists_add (hc.trans hd.symm)
  · intro v
    have hlt := h.coeff_lt v
    rw [sum_map_queue] at hlt
    omega
  · have hlt := h.bound_lt
    rw [sum_map_queue] at hlt
    omega

/-- Two constraints may be replaced by their sum. -/
theorem Summable.replace (h : Summable r (c :: d :: cs)) (hadd : c.add d = .ok s) :
    Summable r (cs ++ [s]) := by
  obtain ⟨-, hs, hform, hbound⟩ := add_eq_ok_iff.mp hadd
  refine ⟨?_, ?_, ?_, ?_⟩
  · intro e he
    rcases List.mem_append.mp he with he | he
    · exact h.relation e (by simp [he])
    · rw [List.mem_singleton.mp he, hs]
      exact h.relation c (by simp)
  · intro e he
    rcases List.mem_append.mp he with he | he
    · exact h.reduced e (by simp [he])
    · rw [List.mem_singleton.mp he]
      exact LinearForm.reduced_add (h.reduced c (by simp)) (h.reduced d (by simp)) hform
  · intro v
    have hlt := h.coeff_lt v
    have hv := LinearForm.coeff_add hform v
    rw [sum_map_queue] at hlt
    rw [sum_map_snoc]
    omega
  · have hlt := h.bound_lt
    rw [sum_map_queue] at hlt
    rw [sum_map_snoc]
    omega

theorem IsSumOf.replace {e : Constraint} (hadd : c.add d = .ok s) (h : e.IsSumOf (cs ++ [s])) :
    e.IsSumOf (c :: d :: cs) := by
  obtain ⟨-, -, hform, hbound⟩ := add_eq_ok_iff.mp hadd
  constructor
  · intro v
    have hv := h.coeff v
    have hs := LinearForm.coeff_add hform v
    rw [sum_map_snoc] at hv
    rw [sum_map_queue]
    omega
  · have hb := h.bound
    rw [sum_map_snoc] at hb
    rw [sum_map_queue]
    omega

end Constraint

/-- All of the records are derived steps. -/
def AllDerived (records : List Record) : Prop := ∀ r ∈ records, ∃ s, r = .step s ∧ s.kind = .derived

theorem AllDerived.comment_notMem {records : List Record} (h : AllDerived records)
    (text : String) : .comment text ∉ records := by
  intro hmem
  obtain ⟨s, hs, -⟩ := h _ hmem
  cases hs

theorem AllDerived.inputsOf_eq {records : List Record} (h : AllDerived records) :
    inputsOf records = [] := by
  induction records with
  | nil => rfl
  | cons r records ih =>
    obtain ⟨s, rfl, hs⟩ := h r (by simp)
    simp [hs, ih fun r hr => h r (by simp [hr])]

theorem AllDerived.countsOf_eq {records : List Record} (h : AllDerived records) :
    countsOf records = ⟨0, records.length, 0⟩ := by
  induction records with
  | nil => rfl
  | cons r records ih =>
    obtain ⟨s, rfl, hs⟩ := h r (by simp)
    simp [hs, ih fun r hr => h r (by simp [hr]), Counts.addStep]

namespace Derivation

open Actions Writer Constraint

variable {sink : Sink} {format : Format} {records : List Record} {d : Derivation}

def Knows (d : Derivation) (ids : List StepId) (cs : List Constraint) : Prop :=
  List.Forall₂ (fun id c => d.constraint? id = some c) ids cs

theorem Knows.of_append {d' : Derivation} {more : List Record} {ids : List StepId}
    {cs : List Constraint} (h : HasDerived sink format records d)
    (h' : HasDerived sink format (records ++ more) d') (hknown : d.Knows ids cs) :
    d'.Knows ids cs :=
  hknown.imp fun _ _ hc => h.constraint?_of_append h' hc

/-- What `sum` leaves: the last step has the sum of the constraints, and one derived
step less than there were summands has been recorded. -/
structure HasSummed (sink : Sink) (format : Format) (records : List Record) (r : Relation)
    (cs : List Constraint) (id : StepId) (d : Derivation) (more : List Record) (c : Constraint) :
    Prop where
  derived : HasDerived sink format (records ++ more) d
  allDerived : AllDerived more
  length_eq : more.length + 1 = cs.length
  known : d.constraint? id = some c
  relation : c.relation = r
  reduced : c.form.Reduced
  isSum : c.IsSumOf cs

/-- Steps whose constraints are light enough are summed. -/
theorem sum_succeeds {r : Relation} {queue : List StepId} {cs : List Constraint}
    (h : HasDerived sink format records d) (hknown : d.Knows queue cs) (hne : queue ≠ [])
    (hsum : Summable r cs) :
    Succeeds (sum queue) d fun id? d' =>
      ∃ id more c, id? = some id ∧ HasSummed sink format records r cs id d' more c := by
  fun_induction sum queue generalizing d records cs with
  | case1 => exact absurd rfl hne
  | case2 step =>
    obtain ⟨c, _, hc, hnil, rfl⟩ := List.forall₂_cons_left_iff.mp hknown
    obtain rfl := List.forall₂_nil_left_iff.mp hnil
    refine .pure ⟨step, [], c, rfl, ?_⟩
    exact {
      derived := by simpa using h
      allDerived := by simp [AllDerived]
      length_eq := rfl
      known := hc
      relation := hsum.relation c (by simp)
      reduced := hsum.reduced c (by simp)
      isSum := isSumOf_singleton c }
  | case3 left right queue ih =>
    obtain ⟨c, _, hc, htail, rfl⟩ := List.forall₂_cons_left_iff.mp hknown
    obtain ⟨e, cs, he, hqueue, rfl⟩ := List.forall₂_cons_left_iff.mp htail
    obtain ⟨s, hs⟩ := hsum.exists_add
    refine (add_succeeds h hc he hs).bind fun step d₁ ⟨hstep, h₁⟩ => ?_
    -- the sum takes the place of its summands, at the other end of the queue
    have hlast : d₁.constraint? step = some s := h₁.constraint?_last hstep
    have hknown₁ : d₁.Knows (queue ++ [step]) (cs ++ [s]) :=
      List.rel_append (Knows.of_append h h₁ hqueue) (.cons hlast .nil)
    refine (ih step h₁ hknown₁ (by simp) (hsum.replace hs)).mono ?_
    rintro - d' ⟨id, more, t, rfl, hsummed⟩
    refine ⟨id, .step ⟨step, .derived, s, [left, right]⟩ :: more, t, rfl, ?_⟩
    exact {
      derived := by simpa using hsummed.derived
      allDerived := by
        intro r hr
        rcases List.mem_cons.mp hr with rfl | hr
        · exact ⟨_, rfl, rfl⟩
        · exact hsummed.allDerived r hr
      length_eq := by
        have := hsummed.length_eq
        simp only [List.length_append, List.length_cons, List.length_nil] at this ⊢
        omega
      known := hsummed.known
      relation := hsummed.relation
      reduced := hsummed.reduced
      isSum := hsummed.isSum.replace hs }

end Derivation

end CuttingPlanes
